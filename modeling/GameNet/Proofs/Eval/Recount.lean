import GameNet.Eval.Recount
import GameNet.Proofs.Eval.Counting
import GameNet.Proofs.Search

/-!
Counting from scratch.

Where counts are right, counting again finds the same counts everywhere.
-/

namespace GameNet

open List

namespace Network

def Narrow (net : Network) : Prop :=
  ∀ c k, net.get? c = some k →
    (k.op ≠ .and → k.op ≠ .or → k.inputs.length ≤ 1) ∧ (k.op = .constant → k.inputs = [])

def LeavesSet (net : Network) : Prop :=
  ∀ c k, net.get? c = some k → k.inputs = [] → k.count ≠ unset

instance (net : Network) : Decidable net.Narrow := decidable_of_iff' _ forall_components

instance (net : Network) : Decidable net.LeavesSet := decidable_of_iff' _ forall_components

theorem Recounts.narrow {net net' : Network} (h : Recounts net net') (hn : net.Narrow) : net'.Narrow := by
  intro c k' hk'
  obtain ⟨n, hk⟩ := h.symm.get? hk'
  have hc := hn c _ hk
  exact hc

theorem Settled.count_ne_unset {net : Network} (h : net.Settled) (hl : net.LeavesSet) {c : CompId} {k : Component}
    (hk : net.get? c = some k) : k.count ≠ unset := by
  by_cases hi : k.inputs = []
  · exact hl c k hk hi
  intro hu
  have := (h.tallied.count_bounds hk hi).1
  rw [hu] at this
  exact absurd this (by decide)

theorem Settled.count_bit {net : Network} (h : net.Settled) (hn : net.Narrow) {c : CompId}
    {k : Component} (hk : net.get? c = some k) (hg : k.isGate = false) (hi : k.inputs ≠ []) :
    k.count = 0 ∨ k.count = 1 := by
  have hand : k.op ≠ .and := fun hand => by rw [Component.isGate, hand] at hg; cases hg
  have hor : k.op ≠ .or := fun hor => by rw [Component.isGate, hor] at hg; cases hg
  have hlen := (hn c k hk).1 hand hor
  have hb := h.tallied.count_bounds hk hi
  omega

end Network

namespace Recount

open Network Search

/-! ## Counting a component -/

/-- A component whose count is kept: one without inputs, a constant, or a proposition that is fed by a
transition. -/
def Held (net : Network) (k : Component) : Prop :=
  k.inputs = [] ∨ k.op = .constant ∨
    k.op = .proposition ∧ ∃ t, k.inputs = [t] ∧ net.op? t = some .transition

structure Counting (net : Network) (k : Component) (n : Int) : Prop where
  gate : k.op = .and ∨ k.op = .or → n = (k.inputs.countP net.valueAt : Nat)
  held : k.op ≠ .and → k.op ≠ .or → Held net k → n = k.count ∧ n ≠ unset
  fed : k.op ≠ .and → k.op ≠ .or → ¬ Held net k →
    k.inputs.length = 1 ∧ n = (k.inputs.countP net.valueAt : Nat)

def Exact (net : Network) (c : CompId) : Prop := ∀ k, net.get? c = some k → Counting net k k.count

def Readable (s : State) (i : CompId) : Prop :=
  ∃ k, s.net.get? i = some k ∧ (i ∈ s.closed ∨ k.count ≠ unset)

def Unblocked (net : Network) (k : Component) : Prop := k.op ≠ .and → k.op ≠ .or →
  (Held net k → k.count ≠ unset) ∧ (¬ Held net k → k.inputs.length ≤ 1)

section Count

variable {s : State} {c : CompId} {k : Component} {p : Prop}

theorem inputValue_upTo {i : CompId} (hread : ¬ Readable s i → p) :
    (Checked.upTo fun _ => p).holds (inputValue s i) (· = s.net.valueAt i) := by
  unfold inputValue
  refine (Checked.upTo _).bind (get_upTo fun hno => hread fun h => ?_) fun k hk => ?_
  · obtain ⟨k, hk, -⟩ := h
    exact hno (contains_of_get? hk)
  rw [valueAt_of_get? hk]
  dsimp only
  split
  · next hcyc =>
    refine .inr ⟨_, rfl, hread ?_⟩
    rintro ⟨k', hk', hread⟩
    rw [hk] at hk'
    cases hk'
    simp only [Bool.and_eq_true, Bool.not_eq_true', decide_eq_true_eq,
      contains_eq_mem, decide_eq_false_iff_not] at hcyc
    exact hread.elim hcyc.1.2 (absurd hcyc.2)
  · exact .inl ⟨_, rfl, rfl⟩

theorem leaf_upTo (hset : k.count = unset → p) :
    (Checked.upTo fun _ => p).holds (leaf s c k) fun n => n = k.count ∧ n ≠ unset := by
  unfold leaf
  split
  · next h => exact .inr ⟨_, rfl, hset h⟩
  · next h => exact .inl ⟨_, rfl, rfl, h⟩

theorem follow_upTo (many : InvariantCause) (hread : ∀ i ∈ k.inputs, ¬ Readable s i → p)
    (hset : k.inputs = [] → k.count = unset → p) (hone : 1 < k.inputs.length → p) :
    (Checked.upTo fun _ => p).holds (follow s c k many) fun n => (k.inputs = [] → n = k.count ∧ n ≠ unset) ∧
        (k.inputs ≠ [] → k.inputs.length = 1 ∧ n = (k.inputs.countP s.net.valueAt : Nat)) := by
  unfold follow
  rcases hi : k.inputs with _ | ⟨i, _ | ⟨j, rest⟩⟩
  · exact (Checked.upTo _).mono (leaf_upTo (hset hi)) fun n hn => ⟨fun _ => hn, fun h => absurd rfl h⟩
  · refine (Checked.upTo _).bind (inputValue_upTo (hread i (by simp [hi]))) fun v hv =>
      .inl ⟨_, rfl, fun h => absurd h (cons_ne_nil _ _), fun _ => ⟨rfl, ?_⟩⟩
    rw [hv, countP_singleton, countOf]
    split <;> rfl
  · exact .inr ⟨_, rfl, hone (by simp [hi])⟩

theorem count_upTo (hk : s.net.get? c = some k)
    (hno : ¬ ((∀ i ∈ k.inputs, Readable s i) ∧ Unblocked s.net k) → p) :
    (Checked.upTo fun _ => p).holds (count s c) (Counting s.net k) := by
  have hread : ∀ i ∈ k.inputs, ¬ Readable s i → p := fun i hi h => hno fun hall => h (hall.1 i hi)
  -- a component adds up its inputs, keeps its count, or follows its only input
  have hgate : k.op = .and ∨ k.op = .or → (Checked.upTo fun _ => p).holds (k.inputs.foldlM
      (fun n i => do return if ← inputValue s i then n + 1 else n) (0 : Int)) (Counting s.net k) :=
    fun hop => (Checked.upTo _).mono ((Checked.upTo _).countM id k.inputs fun i hi =>
      inputValue_upTo (hread i hi)) fun n hn =>
      ⟨fun _ => hn, fun h h' => (hop.elim h h').elim, fun h h' => (hop.elim h h').elim⟩
  have hleaf : Held s.net k → k.op ≠ .and → k.op ≠ .or →
      (Checked.upTo fun _ => p).holds (leaf s c k) (Counting s.net k) := fun hheld hand hor =>
    (Checked.upTo _).mono (leaf_upTo fun hu => hno fun h => (h.2 hand hor).1 hheld hu) fun n hn =>
      ⟨fun h => (h.elim hand hor).elim, fun _ _ _ => hn, fun _ _ h => absurd hheld h⟩
  have hfollow : ∀ many, k.op ≠ .and → k.op ≠ .or → (Held s.net k → k.inputs = []) →
      (Checked.upTo fun _ => p).holds (follow s c k many) (Counting s.net k) := by
    intro many hand hor hheld
    refine (Checked.upTo _).mono (follow_upTo many hread
      (fun hi hu => hno fun h => (h.2 hand hor).1 (.inl hi) hu) fun hlt => hno fun h => ?_) fun n hn =>
        ⟨fun h => (h.elim hand hor).elim, fun _ _ h => hn.1 (hheld h),
          fun _ _ h => hn.2 fun hi => h (.inl hi)⟩
    refine absurd ((h.2 hand hor).2 fun hh => ?_) (Nat.not_le_of_lt hlt)
    rw [hheld hh] at hlt
    cases hlt
  unfold count
  rw [get_of_get? hk]
  dsimp only [bind, Except.bind]
  cases hop : k.op with
  | and => exact hgate (.inl hop)
  | or => exact hgate (.inr hop)
  | not => exact hfollow _ (by simp [hop]) (by simp [hop]) fun h => by simpa [Held, hop] using h
  | transition => exact hfollow _ (by simp [hop]) (by simp [hop]) fun h => by simpa [Held, hop] using h
  | constant => exact hleaf (.inr (.inl hop)) (by simp [hop]) (by simp [hop])
  | proposition =>
    dsimp only
    split
    · next i hi =>
      cases hki : s.net.get? i with
      | none =>
        rw [Network.op, Network.get, hki]
        refine .inr ⟨_, rfl, hread i (by simp [hi]) ?_⟩
        rintro ⟨ki, hki', -⟩
        rw [hki] at hki'
        cases hki'
      | some ki =>
        rw [Network.op, get_of_get? hki]
        dsimp only [bind, Except.bind, pure, Except.pure]
        split
        · next htr =>
          exact hleaf (.inr (.inr ⟨hop, i, hi, by rw [op?_of_get? hki, htr]⟩)) (by simp [hop]) (by simp [hop])
        next htr =>
        refine hfollow _ (by simp [hop]) (by simp [hop]) fun h => ?_
        rcases h with h | h | ⟨-, t, ht', hopt⟩
        · exact h
        · rw [hop] at h
          cases h
        rw [hi] at ht'
        cases ht'
        rw [op?_of_get? hki] at hopt
        exact absurd (Option.some.inj hopt) htr
    · next hmany =>
      refine hfollow _ (by simp [hop]) (by simp [hop]) fun h => ?_
      rcases h with h | h | ⟨-, t, ht', -⟩
      · exact h
      · rw [hop] at h
        cases h
      · exact absurd ht' (hmany t)

end Count

/-! ## Counts that are right -/

structure Sure (net : Network) (reached : CompId → Prop) : Prop where
  live : ∀ c, reached c → net.contains c = true
  input : ∀ c, reached c → ∀ i ∈ net.inputsOf c, reached i
  set : ∀ c k, reached c → net.get? c = some k → k.count ≠ unset
  one : ∀ c k, reached c → net.get? c = some k → k.op ≠ .and → k.op ≠ .or → k.inputs.length ≤ 1
  counted : ∀ c k, reached c → net.get? c = some k → k.op = .and ∨ k.op = .or ∨ k.inputs ≠ [] →
    k.count = (k.inputs.countP net.valueAt : Nat)

theorem Sure.of_settled {net : Network} (hs : net.Settled) (hl : net.LeavesSet) (hb : net.Balanced)
    (hn : net.Narrow) : Sure net fun c => net.contains c = true where
  live _ hc := hc
  input c _ i hi := hb.contains_source hi
  set c k _ hk := hs.count_ne_unset hl hk
  one c k _ hk := (hn c k hk).1
  counted c k _ hk h := by
    refine hs c k hk ?_
    rcases h with hop | hop | hi
    · exact .inl (by rw [Component.isGate, hop]; rfl)
    · exact .inl (by rw [Component.isGate, hop]; rfl)
    · exact .inr hi

theorem Sure.of_tallied {net : Network} (ht : net.Tallied) (hb : net.Balanced) (hn : net.Narrow)
    (hrest : ∀ c k, net.get? c = some k → k.inputs = [] → k.outputs ≠ [] →
      k.count ≠ unset ∧ (k.op = .and ∨ k.op = .or → k.count = 0)) :
    Sure net fun c => net.contains c ∧ (net.inputsOf c ≠ [] ∨ net.outputsOf c ≠ []) where
  live _ hc := hc.1
  input c _ i hi := by
    refine ⟨hb.contains_source hi, .inr fun ho => ?_⟩
    have hmem := hb.mem_iff.mpr hi
    rw [ho] at hmem
    cases hmem
  set c k hc hk hu := by
    by_cases hi : k.inputs = []
    · refine (hrest c k hk hi ?_).1 hu
      rw [← outputsOf_of_get? hk]
      exact hc.2.resolve_left fun hne => hne ((inputsOf_of_get? hk).trans hi)
    · have := (ht.count_bounds hk hi).1
      rw [hu] at this
      exact absurd this (by decide)
  one c k _ hk := (hn c k hk).1
  counted c k hc hk h := by
    by_cases hi : k.inputs = []
    · have hop : k.op = .and ∨ k.op = .or := by
        rcases h with hop | hop | hne
        · exact .inl hop
        · exact .inr hop
        · exact absurd hi hne
      have ho : k.outputs ≠ [] := by
        rw [← outputsOf_of_get? hk]
        exact hc.2.resolve_left fun hne => hne ((inputsOf_of_get? hk).trans hi)
      rw [(hrest c k hk hi ho).2 hop, hi]
      rfl
    · exact ht c k hk hi

section Compare

variable {net : Network} {reached : CompId → Prop} {s : State} {k : Component} {c : CompId}

theorem Sure.count_eq (h : Sure s.net reached) (hc : reached c)
    (hk : s.net.get? c = some k) : count s c = .ok k.count := by
  have hread : ∀ i ∈ k.inputs, Readable s i := by
    intro i hi
    rw [← inputsOf_of_get? hk] at hi
    have hreached := h.input c hc i hi
    obtain ⟨ki, hki⟩ := contains_iff.mp (h.live i hreached)
    exact ⟨ki, hki, .inr (h.set i ki hreached hki)⟩
  obtain ⟨n, hn, hcount⟩ := Checked.Yields.of_upTo (count_upTo hk id) fun _ hno =>
    hno ⟨hread, fun hand hor => ⟨fun _ => h.set c k hc hk, fun _ => h.one c k hc hk hand hor⟩⟩
  rw [hn]
  refine congrArg Except.ok ?_
  by_cases hop : k.op = .and ∨ k.op = .or
  · rw [hcount.gate hop, h.counted c k hc hk (hop.imp id .inl)]
  obtain ⟨hand, hor⟩ := not_or.mp hop
  by_cases hheld : Held s.net k
  · exact (hcount.held hand hor hheld).1
  · rw [(hcount.fed hand hor hheld).2, h.counted c k hc hk (.inr (.inr fun hi => hheld (.inl hi)))]

structure Surveying (net : Network) (reached : CompId → Prop) (s : State) : Prop where
  same : s.net = net
  live : ∀ x ∈ s.stack, reached x.1
  once : s.opened.Nodup

theorem Surveying.turn {compare : Bool} (hsure : Sure net reached) (h : Surveying net reached s) :
    (Recount.turn compare s).Yields (Guarantee.Reaches (fun s' => Surveying net reached s' ∧
      ahead net s'.stack s'.opened < ahead net s.stack s.opened) (· = net)) := by
  obtain ⟨snet, stack, opened, closed⟩ := s
  obtain ⟨hnet, hlive, honce⟩ := h
  dsimp only at hnet hlive honce
  subst hnet
  unfold Recount.turn
  rcases stack with _ | ⟨⟨c, _ | _⟩, stack⟩
  · exact .pure rfl
  · -- a component is opened
    have hc := hlive _ mem_cons_self
    obtain ⟨k, hk⟩ := contains_iff.mp (hsure.live _ hc)
    by_cases hopen : opened.contains c = true
    · dsimp only
      rw [if_pos hopen]
      exact .pure ⟨⟨rfl, (forall_mem_cons.mp hlive).2, honce⟩, ahead_pop⟩
    dsimp only
    rw [if_neg hopen]
    have hnew : c ∉ opened := fun hm => hopen (contains_iff_mem.mpr hm)
    have honce' : (c :: opened).Nodup := nodup_cons.mpr ⟨hnew, honce⟩
    refine .bind_ok (get_of_get? hk) (.pure ⟨⟨rfl, ?_, honce'⟩, ahead_open hk honce' _⟩)
    intro x hx
    rcases mem_append.mp hx with hx | hx
    · obtain ⟨i, hi, rfl⟩ := mem_map.mp hx
      refine hsure.input c hc i ?_
      rw [inputsOf_of_get? hk]
      exact mem_of_mem_filter hi
    · rcases mem_cons.mp hx with rfl | hx
      · exact hc
      · exact hlive x (mem_cons_of_mem _ hx)
  · -- a component is counted
    have hc := hlive _ mem_cons_self
    obtain ⟨k, hk⟩ := contains_iff.mp (hsure.live _ hc)
    have hsame : (snet.modify c fun x => { x with count := k.count }) = snet := by
      refine (modify_congr ?_).trans (modify_id snet c)
      intro x hx
      rw [hk] at hx
      cases hx
      rfl
    refine .bind_ok (hsure.count_eq (s := ⟨snet, stack, opened, closed⟩) hc hk)
      (.bind_ok (get_of_get? hk) ?_)
    have hcond : (compare && decide (k.count ≠ k.count)) = false := by simp
    rw [hcond, hsame]
    exact .pure ⟨⟨rfl, (forall_mem_cons.mp hlive).2, honce⟩, ahead_pop⟩

end Compare

/-! ## Counts made anew -/

section Anew

variable {net : Network} {s : State} {c : CompId} {k : Component} {stack : List (CompId × Bool)}
  {opened closed : List CompId} {roots : List CompId} {cur : Network}

theorem Held.of_recounts {net' : Network} (h : Recounts net net') (hk : Held net k) (n : Int) :
    Held net' (k.counting n) := by
  rcases hk with hi | hop | ⟨hop, t, hi, ht⟩
  · exact .inl hi
  · exact .inr (.inl hop)
  · exact .inr (.inr ⟨hop, t, hi, (h.op? t).trans ht⟩)

theorem Counting.of_recounts {net' : Network} {n : Int} (h : Recounts net net')
    (hv : ∀ i ∈ k.inputs, net'.valueAt i = net.valueAt i) (hc : Counting net k n) :
    Counting net' (k.counting n) n := by
  have hcount : k.inputs.countP net'.valueAt = k.inputs.countP net.valueAt :=
    countP_congr fun i hi => by rw [hv i hi]
  have hheld : Held net' (k.counting n) → Held net k := fun hh => by
    have hback := hh.of_recounts h.symm k.count
    exact hback
  refine ⟨fun hop => (hc.gate hop).trans (congrArg _ hcount.symm), fun hand hor hh => ?_,
    fun hand hor hh => ?_⟩
  · exact ⟨rfl, (hc.held hand hor (hheld hh)).2⟩
  · obtain ⟨hone, hn⟩ := hc.fed hand hor fun h' => hh (h'.of_recounts h n)
    exact ⟨hone, hn.trans (congrArg _ hcount.symm)⟩

structure Walking (net : Network) (roots : List CompId) (s : State) : Prop where
  search : Searching net roots s.stack s.opened (· ∈ s.closed)
  recounts : Recounts net s.net
  opened : ∀ c ∈ s.closed, c ∈ s.opened
  exact : ∀ c ∈ s.closed, Exact s.net c
  held : ∀ c k, net.get? c = some k → k.op ≠ .and → k.op ≠ .or → Held net k →
    s.net.countAt c = net.countAt c
  same : ∀ c, c ∉ s.closed → s.net.countAt c = net.countAt c

theorem Walking.opens (h : Walking net roots ⟨cur, (c, false) :: stack, opened, closed⟩) (hnew : c ∉ opened) :
    Walking net roots ⟨cur, ((net.inputsOf c).filter fun i => !(c :: opened).contains i).map
      (·, false) ++ (c, true) :: stack, c :: opened, closed⟩ := by
  refine ⟨h.search.opens hnew (fun hc => hnew (h.opened c hc)) (filter_subset_self _)
    fun i hi => ?_, h.recounts, fun d hd => mem_cons_of_mem _ (h.opened d hd), h.exact, h.held,
    h.same⟩
  by_cases hio : i ∈ c :: opened
  · exact .inr (.inr hio)
  · exact .inl (mem_filter.mpr ⟨hi, by simpa using hio⟩)

theorem Walking.skips (h : Walking net roots ⟨cur, (c, false) :: stack, opened, closed⟩)
    (hc : c ∈ opened) : Walking net roots ⟨cur, stack, opened, closed⟩ :=
  ⟨h.search.skips (.inr hc), h.recounts, h.opened, h.exact, h.held, h.same⟩

theorem Walking.counts (h : Walking net roots ⟨cur, (c, true) :: stack, opened, closed⟩)
    (ha : net.Acyclic) (hk : cur.get? c = some k) {n : Int} (hn : Counting cur k n) :
    Walking net roots ⟨cur.recount1 c n, stack, opened, c :: closed⟩ := by
  obtain ⟨hopened, hnot⟩ := h.search.marked c mem_cons_self
  have hin : ∀ i, i ∈ net.inputsOf c → i ∈ closed := fun i hi => h.search.found_inputs ha hi
  have hre : Recounts net (cur.recount1 c n) := h.recounts.trans (recounts_recount1 _ c n)
  have hother : ∀ d, d ≠ c → (cur.recount1 c n).countAt d = cur.countAt d := by
    intro d hd
    rw [countAt, get?_recount1_of_ne hd, countAt]
  have hvalue : ∀ i, i ∈ closed → (cur.recount1 c n).valueAt i = cur.valueAt i := by
    intro i hi
    have hne : i ≠ c := by
      rintro rfl
      exact hnot hi
    rw [valueAt, get?_recount1_of_ne hne, valueAt]
  have hins : k.inputs = net.inputsOf c := by
    rw [← h.recounts.inputsOf, inputsOf_of_get? hk]
  refine ⟨h.search.finishes ha fun d => mem_cons, hre, fun d hd => ?_, fun d hd => ?_,
    fun d kd hkd hand hor hheld => ?_, fun d hd => ?_⟩
  · rcases mem_cons.mp hd with rfl | hd
    · exact hopened
    · exact h.opened d hd
  · intro kd hkd
    by_cases hdc : d = c
    · subst hdc
      rw [get?_recount1_self hk] at hkd
      cases hkd
      exact hn.of_recounts (recounts_recount1 _ d n) fun i hi => hvalue i (hin i (hins ▸ hi))
    have hd' : d ∈ closed := (mem_cons.mp hd).resolve_left hdc
    rw [get?_recount1_of_ne hdc] at hkd
    refine (h.exact d hd' kd hkd).of_recounts (recounts_recount1 _ c n) fun i hi => hvalue i ?_
    refine h.search.inputs d hd' i ?_
    rw [← h.recounts.inputsOf, inputsOf_of_get? hkd]
    exact hi
  · by_cases hdc : d = c
    · subst hdc
      obtain ⟨m, hm⟩ := h.recounts.get? hkd
      rw [hk] at hm
      cases hm
      have hkeep := hn.held hand hor (hheld.of_recounts h.recounts m)
      rw [countAt_of_get? (get?_recount1_self hk)]
      refine hkeep.1.trans ?_
      rw [← h.held d kd hkd hand hor hheld, countAt_of_get? hk]
    · rw [hother d hdc]
      exact h.held d kd hkd hand hor hheld
  · have hdc : d ≠ c := fun heq => hd (heq ▸ mem_cons_self)
    rw [hother d hdc]
    exact h.same d fun hm => hd (mem_cons_of_mem _ hm)

end Anew

end Recount

structure Network.Recounted (net : Network) (roots : List CompId) (net' : Network) : Prop where
  recounts : Recounts net net'
  exact : ∀ c, net.Upstream roots c → Recount.Exact net' c
  held : ∀ c k, net.get? c = some k → k.op ≠ .and → k.op ≠ .or → Recount.Held net k →
    net'.countAt c = net.countAt c
  same : ∀ c, net'.countAt c = net.countAt c ∨ net.Upstream roots c

namespace Recount

variable {s : State} {roots : List CompId}

open Network Search

theorem Walking.recounted {net : Network}
    (h : Walking net roots s) (hend : s.stack = []) : net.Recounted roots s.net := by
  have hsearch := h.search
  rw [hend] at hsearch
  refine ⟨h.recounts, fun c hc => h.exact c (hsearch.ends hc), h.held, fun c => ?_⟩
  by_cases hc : c ∈ s.closed
  · exact .inr (hsearch.reached c (h.opened c hc))
  · exact .inl (h.same c hc)

def Countable (net : Network) : Prop := ∀ c k, net.get? c = some k → Unblocked net k

theorem Walking.turn {net : Network} {compare : Bool} (ha : net.Acyclic) (h : Walking net roots s) :
    (Checked.upTo fun _ => ¬ (compare = false ∧ net.Rooted roots ∧ Countable net)).holds
      (Recount.turn compare s) (Guarantee.Reaches (fun s' => Walking net roots s' ∧
        ahead net s'.stack s'.opened < ahead net s.stack s.opened) (net.Recounted roots)) := by
  obtain ⟨cur, _ | ⟨⟨c, _ | _⟩, stack⟩, opened, closed⟩ := s
  · exact .inl ⟨_, rfl, h.recounted rfl⟩
  · unfold Recount.turn
    by_cases hopen : opened.contains c = true
    · dsimp only
      rw [if_pos hopen]
      exact .inl ⟨_, rfl, h.skips (contains_iff_mem.mp hopen), ahead_pop⟩
    dsimp only
    rw [if_neg hopen]
    refine (Checked.upTo _).bind (get_upTo fun hno hgood => hno ((h.recounts.contains c).trans
      (hgood.2.1 c (h.search.upstream _ mem_cons_self)))) fun k hk => .inl ⟨_, rfl, ?_⟩
    have hnext := h.opens fun hm => hopen (contains_iff_mem.mpr hm)
    obtain ⟨n, hk0⟩ := h.recounts.symm.get? hk
    rw [inputsOf_of_get? hk0] at hnext
    exact ⟨hnext, ahead_open hk0 hnext.search.once _⟩
  have hup : net.Upstream roots c := h.search.upstream _ mem_cons_self
  unfold Recount.turn
  dsimp only
  cases hk : cur.get? c with
  | none =>
    unfold count Network.get
    dsimp only
    rw [hk]
    refine .inr ⟨_, rfl, fun hgood => ?_⟩
    have hc := (h.recounts.contains c).trans (hgood.2.1 c hup)
    rw [Network.contains, hk] at hc
    cases hc
  | some k =>
    obtain ⟨n₀, hk₀⟩ := h.recounts.symm.get? hk
    have hblocked : net.Rooted roots → Countable net → (∀ i ∈ k.inputs,
        Readable ⟨cur, stack, opened, closed⟩ i) ∧ Unblocked cur k := by
      intro hroots hcount
      refine ⟨fun i hi => ?_, fun hand hor => ?_⟩
      · have hi' : i ∈ net.inputsOf c := by
          rw [inputsOf_of_get? hk₀]
          exact hi
        obtain ⟨ki, hki⟩ := contains_iff.mp ((h.recounts.contains i).trans (hroots i (hup.input hi')))
        -- without cycles, no input of `c` can still be open
        exact ⟨ki, hki, .inl (h.search.found_inputs ha hi')⟩
      obtain ⟨hset, hone⟩ := hcount c _ hk₀ hand hor
      refine ⟨fun hheld => ?_, fun hfed => hone fun hheld => hfed ?_⟩
      · have hheld₀ : Held net (k.counting n₀) := hheld.of_recounts h.recounts.symm n₀
        have hsame := h.held c _ hk₀ hand hor hheld₀
        rw [countAt_of_get? hk, countAt_of_get? hk₀] at hsame
        rw [hsame]
        exact hset hheld₀
      · have hback := hheld.of_recounts h.recounts k.count
        exact hback
    refine (Checked.upTo _).bind (count_upTo (s := ⟨cur, stack, opened, closed⟩) hk
      fun hno hgood => hno (hblocked hgood.2.1 hgood.2.2)) fun n hn => ?_
    rw [get_of_get? hk]
    dsimp only [bind, Except.bind]
    split
    · next hcmp =>
      refine .inr ⟨_, rfl, fun hgood => ?_⟩
      rw [hgood.1] at hcmp
      cases hcmp
    · exact .inl ⟨_, rfl, h.counts ha hk hn, ahead_pop⟩

theorem Walking.start (net : Network) (roots : List CompId) :
    Walking net roots { net, stack := roots.map (·, false) } :=
  ⟨.start (forall_mem_nil _), .refl net, forall_mem_nil _,
    forall_mem_nil _, fun _ _ _ _ _ _ => rfl, fun _ _ => rfl⟩

end Recount

namespace Network

variable {net : Network} {roots : List CompId} {c : CompId}

theorem mem_sinks : c ∈ net.sinks ↔ net.contains c ∧ net.inputsOf c ≠ [] ∧ net.outputsOf c = [] := by
  rw [sinks, mem_map]
  constructor
  · rintro ⟨⟨d, k⟩, hx, rfl⟩
    obtain ⟨hm, hp⟩ := mem_filter.mp hx
    have hk := mem_components.mp hm
    rw [inputsOf_of_get? hk, outputsOf_of_get? hk]
    simp only [Bool.and_eq_true, List.isEmpty_iff, Bool.not_eq_true', isEmpty_eq_false_iff] at hp
    exact ⟨contains_of_get? hk, hp.2, hp.1⟩
  · rintro ⟨hc, hi, ho⟩
    obtain ⟨k, hk⟩ := contains_iff.mp hc
    rw [inputsOf_of_get? hk] at hi
    rw [outputsOf_of_get? hk] at ho
    refine ⟨(c, k), mem_filter.mpr ⟨mem_components.mpr hk, ?_⟩, rfl⟩
    simp [hi, ho]

theorem contains_of_mem_sinks (hc : c ∈ net.sinks) : net.contains c := (mem_sinks.mp hc).1

theorem exists_sink (hb : net.Balanced) (ha : net.Acyclic) (hc : net.inputsOf c ≠ [] ∨ net.outputsOf c ≠ []) :
    ∃ r ∈ net.sinks, Relation.ReflTransGen net.Feeds c r := by
  induction c using ha.induct_outputs hb with
  | step c ih =>
    rcases ho : net.outputsOf c with _ | ⟨o, rest⟩
    · have hi : net.inputsOf c ≠ [] := hc.resolve_right fun h => h ho
      exact ⟨c, mem_sinks.mpr ⟨contains_of_fed hi, hi, ho⟩, .refl⟩
    have hco : o ∈ net.outputsOf c := by
      rw [ho]
      exact mem_cons_self
    have hfeeds : net.Feeds c o := hb.mem_iff.mp hco
    obtain ⟨r, hsink, hpath⟩ := ih o hco (.inl (ne_nil_of_mem hfeeds))
    exact ⟨r, hsink, .head hfeeds hpath⟩

theorem Recounted.exact_of_fed {net net' : Network} (h : net.Recounted net.sinks net')
    (hb : net.Balanced) (ha : net.Acyclic) (hi : net.inputsOf c ≠ []) : Recount.Exact net' c := by
  obtain ⟨r, hr, hpath⟩ := exists_sink hb ha (.inl hi)
  exact h.exact c ⟨r, hr, hpath⟩

/-- Counting anew leaves exact counts at the roots and upstream of them. -/
theorem recount_upTo (ha : net.Acyclic) (roots : List CompId) (compare : Bool) :
    (Checked.upTo fun _ => ¬ (compare = false ∧ net.Rooted roots ∧ Recount.Countable net)).holds
      (net.recount roots compare) (net.Recounted roots) :=
  (Checked.upTo _).run (Recount.Walking net roots) (fun s => Search.ahead net s.stack s.opened)
    (net.Recounted roots) (fun _ h => h.turn ha) (.start net roots) (Search.ahead_start net (Nat.le_succ _))

theorem recount_ensures (ha : net.Acyclic) (roots : List CompId) (compare : Bool) :
    (net.recount roots compare).Ensures (net.Recounted roots) := .of_upTo (recount_upTo ha roots compare)

theorem recount_yields_of_rooted (ha : net.Acyclic) (hcount : Recount.Countable net)
    (hroots : net.Rooted roots) : (net.recount roots false).Yields (net.Recounted roots) :=
  .of_upTo (recount_upTo ha roots false) fun _ hno => hno ⟨rfl, hroots, hcount⟩

theorem recount_yields (hb : net.Balanced) (ha : net.Acyclic) (hcount : Recount.Countable net)
    (hroots : ∀ c ∈ roots, net.contains c) : (net.recount roots false).Yields (net.Recounted roots) :=
  recount_yields_of_rooted ha hcount (hb.rooted hroots)

theorem recount_of_sure {reached : CompId → Prop} (hsure : Recount.Sure net reached)
    (hroots : ∀ c ∈ roots, reached c) (compare : Bool) : net.recount roots compare = .ok net := by
  refine Checked.Yields.eq_ok (Checked.total.run (Recount.Surveying net reached)
    (fun s => Search.ahead net s.stack s.opened) (· = net) (fun s h => h.turn hsure)
    ⟨rfl, fun x hx => ?_, nodup_nil⟩ (Search.ahead_start net (Nat.le_succ _)))
  obtain ⟨c, hc, rfl⟩ := mem_map.mp hx
  exact hroots c hc

theorem recount_eq (hs : net.Settled) (hl : net.LeavesSet) (hb : net.Balanced) (hn : net.Narrow)
    (hroots : ∀ c ∈ roots, net.contains c) (compare : Bool) : net.recount roots compare = .ok net :=
  recount_of_sure (.of_settled hs hl hb hn) hroots compare

end Network

end GameNet
