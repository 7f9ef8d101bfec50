import GameNet.Proofs.Circuit
import GameNet.Proofs.Extent

/-!
Searching upstream, depth first.

The stack holds components that are still to be looked at, marked once they only wait for their inputs.
-/

namespace GameNet

open List

namespace Network

def Upstream (net : Network) (roots : List CompId) (c : CompId) : Prop :=
  ∃ r ∈ roots, Relation.ReflTransGen net.Feeds c r

def Rooted (net : Network) (roots : List CompId) : Prop :=
  ∀ c, net.Upstream roots c → net.contains c = true

theorem Upstream.root {net : Network} {roots : List CompId} {r : CompId} (h : r ∈ roots) :
    net.Upstream roots r := ⟨r, h, .refl⟩

theorem Upstream.input {net : Network} {roots : List CompId} {c i : CompId}
    (h : net.Upstream roots c) (hi : i ∈ net.inputsOf c) : net.Upstream roots i := by
  obtain ⟨r, hr, hpath⟩ := h
  exact ⟨r, hr, .head hi hpath⟩

theorem Balanced.rooted {net : Network} {roots : List CompId} (hb : net.Balanced)
    (hroots : ∀ r ∈ roots, net.contains r) : net.Rooted roots := by
  rintro c ⟨r, hr, hpath⟩
  rcases hpath.cases_head with rfl | ⟨b, hcb, -⟩
  · exact hroots c hr
  · exact hb.contains_source hcb

theorem get_upTo {net : Network} {c : CompId} {p : Prop} (hno : ¬ net.contains c → p) :
    (Checked.upTo fun _ => p).holds (net.get c) fun k => net.get? c = some k := by
  unfold Network.get
  cases hk : net.get? c with
  | some k => exact .inl ⟨k, rfl, rfl⟩
  | none => exact .inr ⟨_, rfl, hno (by simp [contains, hk])⟩

end Network

namespace Search

open Network

/-! ## The end of a search -/

/-- What is left to do: what is on the stack, and what opening the other components adds to it. -/
def ahead (net : Network) (stack : List (CompId × Bool)) (opened : List CompId) : Nat :=
  stack.length + (net.extent -
    tally (fun c => (net.get? c).elim 0 fun k => k.inputs.length + 1) opened)

section Ahead

variable {net : Network} {c : CompId} {stack : List (CompId × Bool)} {opened : List CompId}

theorem tally_opened_le (net : Network) (h : opened.Nodup) :
    tally (fun c => (net.get? c).elim 0 fun k => k.inputs.length + 1) opened ≤ net.extent := by
  have hsum := total_add net (fun k => k.inputs.length) fun _ => 1
  have hone := net.total_one_le
  have hmono : net.total (fun k => k.inputs.length) ≤
      net.total fun k => k.inputs.length + k.outputs.length := total_mono fun k => Nat.le_add_right _ _
  refine Nat.le_trans (tally_le_total h) ?_
  rw [extent_eq, hsum]
  omega

theorem ahead_open {k : Component} (hk : net.get? c = some k) (honce : (c :: opened).Nodup)
    (p : CompId → Bool) : ahead net ((k.inputs.filter p).map (·, false) ++ (c, true) :: stack) (c :: opened) <
      ahead net ((c, false) :: stack) opened := by
  have hle := tally_opened_le net honce
  have hfresh := length_filter_le p k.inputs
  rw [tally_cons, hk, Option.elim_some] at hle
  simp only [ahead, tally_cons, hk, Option.elim_some, length_append, length_map, length_cons]
  omega

theorem ahead_pop {x : CompId × Bool} : ahead net stack opened < ahead net (x :: stack) opened := by
  simp only [ahead, length_cons]
  omega

theorem ahead_start (net : Network) {roots : List CompId} {bound : Nat}
    (h : net.extent + roots.length ≤ bound) :
    ahead net (roots.map (·, false)) [] < Loop.allowance (bound + Loop.patience) := by
  refine Nat.lt_of_lt_of_le ?_ (Loop.allowance_mono (Nat.le_add_right bound Loop.patience))
  refine Nat.lt_of_le_of_lt ?_ (Loop.lt_allowance bound)
  simp only [ahead, length_map, tally_nil]
  omega

end Ahead

/-! ## The search -/

def above (stack : List (CompId × Bool)) (c : CompId) : List (CompId × Bool) :=
  stack.takeWhile fun x => decide (x ≠ (c, true))

section Above

variable {stack : List (CompId × Bool)} {c : CompId}

theorem above_cons_of_ne {x : CompId × Bool} (h : x ≠ (c, true)) :
    above (x :: stack) c = x :: above stack c := takeWhile_cons_of_pos (decide_eq_true h)

theorem above_fresh (fresh : List CompId) (stack : List (CompId × Bool)) :
    above (fresh.map (·, false) ++ stack) c = fresh.map (·, false) ++ above stack c := by
  refine takeWhile_append_of_pos fun x hx => decide_eq_true fun hxc => ?_
  obtain ⟨i, -, rfl⟩ := mem_map.mp hx
  cases hxc

end Above

/-- In the middle of a search from the roots. What is opened waits on the stack for its inputs, which lie
above it; what is found has inputs that are found too. -/
structure Searching (net : Network) (roots : List CompId) (stack : List (CompId × Bool))
    (opened : List CompId) (found : CompId → Prop) : Prop where
  upstream : ∀ x ∈ stack, net.Upstream roots x.1
  reached : ∀ c ∈ opened, net.Upstream roots c
  once : opened.Nodup
  roots : ∀ r ∈ roots, found r ∨ r ∈ opened ∨ (r, false) ∈ stack
  waiting : ∀ c ∈ opened, found c ∨ (c, true) ∈ stack
  marked : ∀ c, (c, true) ∈ stack → c ∈ opened ∧ ¬ found c
  nested : stack.Pairwise fun x y => y.2 = true → Relation.TransGen net.Feeds x.1 y.1
  pending : ∀ c, (c, true) ∈ stack → ∀ i ∈ net.inputsOf c,
    found i ∨ i ∈ opened ∨ (i, false) ∈ above stack c
  inputs : ∀ c, found c → ∀ i ∈ net.inputsOf c, found i

section Searching

variable {net : Network} {roots : List CompId} {stack : List (CompId × Bool)} {opened : List CompId}
  {found found' : CompId → Prop} {c : CompId}

theorem Searching.start (hinputs : ∀ c, found c → ∀ i ∈ net.inputsOf c, found i) :
    Searching net roots (roots.map (·, false)) [] found := by
  have hfalse : ∀ c, (c, true) ∉ roots.map (·, false) := by
    intro c hc
    obtain ⟨r, -, hr⟩ := mem_map.mp hc
    cases hr
  refine ⟨fun x hx => ?_, forall_mem_nil _, nodup_nil,
    fun r hr => .inr (.inr (mem_map_of_mem hr)), forall_mem_nil _,
    fun c hc => absurd hc (hfalse c), ?_, fun c hc => absurd hc (hfalse c), hinputs⟩
  · obtain ⟨c, hc, rfl⟩ := mem_map.mp hx
    exact .root hc
  · rw [pairwise_map]
    exact pairwise_of_forall fun _ _ hm => absurd hm (by simp)

theorem Searching.opens (h : Searching net roots ((c, false) :: stack) opened found)
    (hnew : c ∉ opened) (hunknown : ¬ found c) {fresh : List CompId} (hsub : fresh ⊆ net.inputsOf c)
    (hfresh : ∀ i ∈ net.inputsOf c, i ∈ fresh ∨ found i ∨ i ∈ c :: opened) :
    Searching net roots (fresh.map (·, false) ++ (c, true) :: stack) (c :: opened) found := by
  have hup : net.Upstream roots c := h.upstream (c, false) mem_cons_self
  have hold := h.nested
  rw [pairwise_cons] at hold
  refine ⟨fun x hx => ?_, forall_mem_cons.mpr ⟨hup, h.reached⟩,
    nodup_cons.mpr ⟨hnew, h.once⟩, fun r hr => ?_, fun d hd => ?_, fun d hd => ?_, ?_,
    fun d hd i hi => ?_, h.inputs⟩
  · rcases mem_append.mp hx with hx | hx
    · obtain ⟨i, hi, rfl⟩ := mem_map.mp hx
      exact hup.input (hsub hi)
    · rcases mem_cons.mp hx with rfl | hx
      · exact hup
      · exact h.upstream x (mem_cons_of_mem _ hx)
  · rcases h.roots r hr with hf | ho | ho
    · exact .inl hf
    · exact .inr (.inl (mem_cons_of_mem _ ho))
    · rcases mem_cons.mp ho with heq | ho
      · cases heq
        exact .inr (.inl mem_cons_self)
      · exact .inr (.inr (mem_append_right _ (mem_cons_of_mem _ ho)))
  · rcases mem_cons.mp hd with rfl | hd
    · exact .inr (mem_append_right _ mem_cons_self)
    · rcases h.waiting d hd with hd | hd
      · exact .inl hd
      · rcases mem_cons.mp hd with heq | hd
        · cases heq
        · exact .inr (mem_append_right _ (mem_cons_of_mem _ hd))
  · rcases mem_append.mp hd with hd | hd
    · obtain ⟨i, -, hi⟩ := mem_map.mp hd
      cases hi
    · rcases mem_cons.mp hd with heq | hd
      · cases heq
        exact ⟨mem_cons_self, hunknown⟩
      · obtain ⟨ho, hf⟩ := h.marked d (mem_cons_of_mem _ hd)
        exact ⟨mem_cons_of_mem _ ho, hf⟩
  · rw [pairwise_append, pairwise_cons]
    refine ⟨?_, hold, fun x hx y hy hm => ?_⟩
    · rw [pairwise_map]
      exact pairwise_of_forall fun _ _ hm => absurd hm (by simp)
    obtain ⟨i, hi, rfl⟩ := mem_map.mp hx
    have hfeeds : net.Feeds i c := hsub hi
    rcases mem_cons.mp hy with rfl | hy
    · exact .single hfeeds
    · exact .head hfeeds (hold.1 y hy hm)
  · -- what is new waits above `c`, and for the frames below it `c` is open now
    rw [above_fresh]
    rcases mem_append.mp hd with hd | hd
    · obtain ⟨j, -, hj⟩ := mem_map.mp hd
      cases hj
    by_cases hdc : d = c
    · subst hdc
      rcases hfresh i hi with hif | hif | hif
      · exact .inr (.inr (mem_append_left _ (mem_map_of_mem hif)))
      · exact .inl hif
      · exact .inr (.inl hif)
    rw [above_cons_of_ne (by simpa using Ne.symm hdc)]
    have hd' := (mem_cons.mp hd).resolve_left fun heq => hdc (congrArg Prod.fst heq)
    rcases h.pending d (mem_cons_of_mem _ hd') i hi with hf | ho | ho
    · exact .inl hf
    · exact .inr (.inl (mem_cons_of_mem _ ho))
    rw [above_cons_of_ne (by simp)] at ho
    rcases mem_cons.mp ho with heq | ho
    · cases heq
      exact .inr (.inl mem_cons_self)
    · exact .inr (.inr (mem_append_right _ (mem_cons_of_mem _ ho)))

theorem Searching.skips (h : Searching net roots ((c, false) :: stack) opened found)
    (hc : found c ∨ c ∈ opened) : Searching net roots stack opened found := by
  refine ⟨(forall_mem_cons.mp h.upstream).2, h.reached, h.once, fun r hr => ?_,
    fun d hd => ?_, fun d hd => h.marked d (mem_cons_of_mem _ hd),
    (pairwise_cons.mp h.nested).2, fun d hd i hi => ?_, h.inputs⟩
  · rcases h.roots r hr with hf | ho | ho
    · exact .inl hf
    · exact .inr (.inl ho)
    · rcases mem_cons.mp ho with heq | ho
      · cases heq
        exact hc.imp_right .inl
      · exact .inr (.inr ho)
  · rcases h.waiting d hd with hd | hd
    · exact .inl hd
    · rcases mem_cons.mp hd with heq | hd
      · cases heq
      · exact .inr hd
  · rcases h.pending d (mem_cons_of_mem _ hd) i hi with hf | ho | ho
    · exact .inl hf
    · exact .inr (.inl ho)
    · rw [above_cons_of_ne (by simp)] at ho
      rcases mem_cons.mp ho with heq | ho
      · cases heq
        exact hc.imp_right .inl
      · exact .inr (.inr ho)

section

variable (h : Searching net roots ((c, true) :: stack) opened found) (ha : net.Acyclic)
include h ha

/-- The inputs of a component whose mark comes up are found: otherwise one would wait below it, and the
component would be upstream of its own input. -/
theorem Searching.found_inputs {i : CompId} (hi : i ∈ net.inputsOf c) : found i := by
  rcases h.pending c mem_cons_self i hi with hf | ho | ho
  · exact hf
  · rcases h.waiting i ho with hf | hw
    · exact hf
    · have hfeeds : net.Feeds i c := hi
      rcases mem_cons.mp hw with heq | hw
      · cases heq
        exact absurd (.single hfeeds) (ha _)
      · exact absurd (.head hfeeds ((pairwise_cons.mp h.nested).1 _ hw rfl)) (ha i)
  · rw [above, takeWhile_cons_of_neg (by simp)] at ho
    cases ho

theorem Searching.finishes (hiff : ∀ d, found' d ↔ d = c ∨ found d) :
    Searching net roots stack opened found' := by
  have hmono : ∀ d, found d → found' d := fun d hd => (hiff d).mpr (.inr hd)
  -- below its mark there is no other mark of the same component
  have hne : ∀ d, (d, true) ∈ stack → d ≠ c := by
    rintro d hd rfl
    exact ha d ((pairwise_cons.mp h.nested).1 _ hd rfl)
  refine ⟨(forall_mem_cons.mp h.upstream).2, h.reached, h.once, fun r hr => ?_,
    fun d hd => ?_, fun d hd => ?_, (pairwise_cons.mp h.nested).2, fun d hd i hi => ?_,
    fun d hd i hi => hmono i ?_⟩
  · rcases h.roots r hr with hf | ho | ho
    · exact .inl (hmono r hf)
    · exact .inr (.inl ho)
    · rcases mem_cons.mp ho with heq | ho
      · cases heq
      · exact .inr (.inr ho)
  · rcases h.waiting d hd with hd | hd
    · exact .inl (hmono d hd)
    · rcases mem_cons.mp hd with heq | hd
      · cases heq
        exact .inl ((hiff _).mpr (.inl rfl))
      · exact .inr hd
  · obtain ⟨ho, hf⟩ := h.marked d (mem_cons_of_mem _ hd)
    exact ⟨ho, fun hf' => ((hiff d).mp hf').elim (hne d hd) hf⟩
  · rcases h.pending d (mem_cons_of_mem _ hd) i hi with hf | ho | ho
    · exact .inl (hmono i hf)
    · exact .inr (.inl ho)
    · rw [above_cons_of_ne (by simpa using Ne.symm (hne d hd))] at ho
      rcases mem_cons.mp ho with heq | ho
      · cases heq
      · exact .inr (.inr ho)
  · rcases (hiff d).mp hd with rfl | hd
    · exact h.found_inputs ha hi
    · exact h.inputs d hd i hi

end

/-- When the stack is empty, all there is upstream has been found. -/
theorem Searching.ends (h : Searching net roots [] opened found) (hc : net.Upstream roots c) : found c := by
  obtain ⟨r, hr, hpath⟩ := hc
  induction hpath using Relation.ReflTransGen.head_induction_on with
  | refl =>
    rcases h.roots r hr with hf | ho | ho
    · exact hf
    · exact (h.waiting r ho).resolve_right not_mem_nil
    · exact absurd ho not_mem_nil
  | head hac _ ih => exact h.inputs _ ih _ hac

end Searching

end Search

end GameNet
