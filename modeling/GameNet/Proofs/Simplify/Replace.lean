import GameNet.Proofs.Simplify.Mass

/-!
A component that another one stands in for: the other takes over its outputs, and it goes.

This is what merging two gates, splicing out a component that passes its input on and removing a double
negation come down to.
-/

namespace GameNet.Network

open List

/-- The edges when `x` has taken over the outputs of `c`. An output that both have fed may be fed
once or as often as by both. -/
structure Replaces (net : Network) (c x : CompId) (edges : CompId → CompId → Nat) : Prop where
  off : ∀ a b, a = c ∨ b = c → edges a b = 0
  other : ∀ a b, a ≠ c → b ≠ c → a ≠ x → edges a b = net.edgesIn a b
  own : ∀ b, b ≠ c → net.edgesIn x b ≤ edges x b
  taken : ∀ b, b ≠ c → net.edgesIn c b ≤ edges x b
  bound : ∀ b, b ≠ c → edges x b ≤ net.edgesIn x b + net.edgesIn c b

section Replaces

variable {net net' : Network} {c x : CompId} {edges : CompId → CompId → Nat}
  {touched : CompId → Prop} {keep : List CompId}
variable (h : Replaces net c x edges)
include h

theorem Replaces.pos (hx : x ≠ c) {a b : CompId} :
    0 < edges a b ↔ a ≠ c ∧ b ≠ c ∧ (0 < net.edgesIn a b ∨ a = x ∧ 0 < net.edgesIn c b) := by
  by_cases hab : a = c ∨ b = c
  · have := h.off a b hab
    grind
  by_cases hax : a = x
  · subst hax
    have h1 := h.own b
    have h2 := h.taken b
    have h3 := h.bound b
    grind
  · have := h.other a b
    grind

theorem Replaces.read_eq (hx : x ≠ c) {v : CompId → Bool}
    (hv : v c = v x) {b : CompId} (hb : b ≠ c) (op : Op) {inputs : List CompId}
    (hi : ∀ a, a ∈ inputs ↔ 0 < edges a b) : op.read inputs v = op.read (net.inputsOf b) v := by
  apply op.read_congr
  intro t
  constructor
  · rintro ⟨a, ha, rfl⟩
    obtain ⟨-, -, hpos | ⟨rfl, hpos⟩⟩ := (h.pos hx).mp ((hi a).mp ha)
    · exact ⟨a, edgesIn_pos.mp hpos, rfl⟩
    · exact ⟨c, edgesIn_pos.mp hpos, hv⟩
  rintro ⟨a, ha, rfl⟩
  by_cases hac : a = c
  · subst hac
    exact ⟨x, (hi x).mpr ((h.pos hx).mpr ⟨hx, hb, .inr ⟨rfl, edgesIn_pos.mpr ha⟩⟩), hv.symm⟩
  · exact ⟨a, (hi a).mpr ((h.pos hx).mpr ⟨hac, hb, .inl (edgesIn_pos.mpr ha)⟩), rfl⟩

theorem Replaces.sound (e : Edit (· = c) touched edges net net') (hb : net.Balanced) (hx : x ≠ c)
    (hkeep : c ∉ keep) (ht : ∀ o, touched o → net.inputsOf o ≠ []) (rank : CompId → Nat)
    (hrank : ∀ a b, 0 < edges a b → rank a < rank b)
    (hv : ∀ v, net.Obeys v → v c = v x) (hread : ¬ net.Unread x) : Sound (· ∈ keep) net net' := by
  refine e.sound (fun d hd hdc => hkeep (hdc ▸ hd)) rank hrank ?_ ?_ ?_ ?_ ?_ ?_
  · intro o ho hi
    exact absurd hi (ht o ho)
  · intro b hbc hi a
    have none : ∀ a, net.edgesIn a b = 0 := fun a => by rw [edgesIn, hi]; rfl
    have := (h.pos hx (a := a) (b := b)).not
    have := none a
    have := none c
    grind
  · intro b hbc hi
    obtain ⟨a, ha⟩ := exists_mem_of_ne_nil _ hi
    by_cases hac : a = c
    · subst hac
      exact ⟨x, (h.pos hx).mpr ⟨hx, hbc, .inr ⟨rfl, edgesIn_pos.mpr ha⟩⟩⟩
    · exact ⟨a, (h.pos hx).mpr ⟨hac, hbc, .inl (edgesIn_pos.mpr ha)⟩⟩
  · intro b op hbc _ _ _ hl a a' ha ha'
    rw [length_inputsOf_le_one hb.wired] at hl
    have h1 := (h.pos hx).mp ha
    have h2 := (h.pos hx).mp ha'
    have h3 := h.bound b hbc
    have h4 := h.taken b hbc
    have h5 := h.other a b
    have h6 := hl a a'
    have h7 := hl a c
    have h8 := hl c a'
    have h9 := hl c c
    grind
  · intro v hobeys b op hbc _ _ inputs hi
    exact h.read_eq hx (hv v hobeys) hbc op hi
  · intro a hun b
    have hax : a ≠ x := fun hax => hread (hax ▸ hun)
    have := (h.pos hx (a := a) (b := b)).not
    have := hun.edgesIn hb b
    grind

theorem Replaces.progress (e : Edit (· = c) touched edges net net') (s : Sound (· ∈ keep) net net')
    (hb : net.Balanced) (ha : net.Acyclic) (hx : x ≠ c) (hk : Solid keep net)
    (hc : net.contains c) (hr : net.routes x ≤ net.routes c) : Progress keep 1 net net' := by
  refine e.progress s (fun d hd => hk.contains hd)
    (e.majorizes hb ha (fun a => if a = c then [x] else [a]) (fun a => ?_) fun b hbc a => ?_)
    (fun _ _ => Nat.le_refl _) rfl hc
  · split
    · next hac => rw [hac]; simpa using hr
    · simp
  have hcount : ∀ l : List CompId,
      (l.flatMap fun a => if a = c then [x] else [a]).count a =
        (if a = c then 0 else l.count a) + if a = x then l.count c else 0 := by
    intro l
    induction l with
    | nil => simp
    | cons d l ih =>
      rw [flatMap_cons, count_append, ih, count_cons, count_cons]
      split <;> simp [count_singleton] <;> grind
  rw [hcount]
  change _ ≤ (if a = c then 0 else net.edgesIn a b) + if a = x then net.edgesIn c b else 0
  have h1 := h.off a b
  have h2 := h.other a b
  have h3 := h.bound b hbc
  grind

theorem Replaces.trim (e : Edit (· = c) touched edges net net') (hb : net.Balanced) (hx : x ≠ c)
    (hup : ∀ a, a ∈ net.inputsOf c → ∃ b, b ≠ c ∧ (a ∈ net.inputsOf b ∨ a = x ∧ c ∈ net.inputsOf b))
    (ht : Trim keep net) : Trim keep net' := by
  intro a hal ho
  have hac := e.not_gone hal
  refine ht a (e.contains hac ▸ hal) (eq_nil_iff_forall_not_mem.mpr fun b hab => ?_)
  have none : ∀ b, ¬ 0 < edges a b := fun b hpos =>
    not_mem_nil (ho ▸ e.wired.mem_outputsOf.mpr hpos)
  by_cases hbc : b = c
  · subst hbc
    obtain ⟨d, hd, hor⟩ := hup a (hb.mem_iff.mp hab)
    refine none d ((h.pos hx).mpr ⟨hac, hd, ?_⟩)
    rw [edgesIn_pos, edgesIn_pos]
    exact hor
  · exact none b ((h.pos hx).mpr ⟨hac, hbc, .inl (edgesIn_pos.mpr (hb.mem_iff.mp hab))⟩)

end Replaces

end GameNet.Network
