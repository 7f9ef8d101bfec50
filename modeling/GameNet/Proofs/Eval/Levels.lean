import GameNet.Eval.Levels
import GameNet.Proofs.Eval.Forward

/-!
Evaluation level by level: it ends, and the counts are right when it does.

The order of the levels has no part in that. All that matters is which changes are still waiting.
-/

namespace GameNet.Levels

open List

open Network Forward

/-! ## What is waiting -/

def waiting (pending : Array (Array Flip)) (level applied : Nat) : List Flip :=
  ((pending.toList.drop level).flatMap Array.toList).drop applied

def InStep (pending : Array (Array Flip)) (level applied : Nat) : Prop :=
  applied ≤ (pending[level]?).elim 0 Array.size

def Idle (lv : Levels) : Prop := ∀ queued ∈ lv.pending, queued = #[]

section Queue

variable {pending : Array (Array Flip)} {level applied : Nat} {queued : Array Flip}

theorem waiting_of_none (h : pending[level]? = none) : waiting pending level applied = [] := by
  have hle : pending.toList.length ≤ level := by
    rw [Array.length_toList]
    exact Array.getElem?_eq_none_iff.mp h
  rw [waiting, drop_eq_nil_of_le hle, flatMap_nil, drop_nil]

theorem waiting_of_some (h : pending[level]? = some queued) (hs : applied ≤ queued.size) :
    waiting pending level applied =
      queued.toList.drop applied ++ (pending.toList.drop (level + 1)).flatMap Array.toList := by
  have hlt : level < pending.toList.length := by
    rw [Array.length_toList]
    exact (Array.getElem?_eq_some_iff.mp h).1
  have hget : pending.toList[level] = queued := by
    rw [Array.getElem_toList]
    exact (Array.getElem?_eq_some_iff.mp h).2
  rw [waiting, drop_eq_getElem_cons hlt, hget, flatMap_cons, drop_append_of_le_length]
  rwa [Array.length_toList]

theorem waiting_next {f : Flip} (h : pending[level]? = some queued) (hf : queued[applied]? = some f) :
    waiting pending level applied = f :: waiting pending level (applied + 1) ∧
      InStep pending level (applied + 1) := by
  obtain ⟨hlt, hget⟩ := Array.getElem?_eq_some_iff.mp hf
  rw [waiting_of_some h hlt.le, waiting_of_some h hlt,
    drop_eq_getElem_cons (i := applied) (by rwa [Array.length_toList]),
    Array.getElem_toList, hget, cons_append]
  refine ⟨rfl, ?_⟩
  rw [InStep, h]
  exact hlt

theorem waiting_clear (h : pending[level]? = some queued)
    (hf : queued[applied]? = none) (hs : InStep pending level applied) :
    waiting (pending.modify level fun _ => #[]) (level + 1) 0 = waiting pending level applied := by
  rw [InStep, h] at hs
  have hle := Array.getElem?_eq_none_iff.mp hf
  rw [waiting_of_some h hs, drop_eq_nil_of_le (by rwa [Array.length_toList]), nil_append,
    waiting, Array.toList_modify, drop_zero, drop_modify_of_lt _ _ _ _ (Nat.lt_succ_self level)]

theorem flatMap_modify_push (x : Flip) (l : List (Array Flip)) : ∀ i, i < l.length →
      ((l.modify i (·.push x)).flatMap Array.toList).Perm (x :: l.flatMap Array.toList) := by
  induction l with
  | nil => intro i hi; cases hi
  | cons q l ih =>
    intro i hi
    cases i with
    | zero =>
      rw [modify_zero_cons, flatMap_cons, flatMap_cons, Array.toList_push, append_assoc]
      exact perm_middle
    | succ i =>
      rw [modify_succ_cons, flatMap_cons, flatMap_cons]
      exact ((ih i (Nat.lt_of_succ_lt_succ hi)).append_left _).trans perm_middle

theorem drop_flatMap_modify_push (x : Flip) (q : Array Flip) (l : List (Array Flip)) (i : Nat)
    (hi : i < (q :: l).length) (hq : applied ≤ q.size) :
    ((((q :: l).modify i (·.push x)).flatMap Array.toList).drop applied).Perm
      (x :: ((q :: l).flatMap Array.toList).drop applied) := by
  rw [← Array.length_toList] at hq
  rw [flatMap_cons, drop_append_of_le_length hq]
  cases i with
  | zero =>
    rw [modify_zero_cons, flatMap_cons, Array.toList_push, append_assoc, drop_append_of_le_length hq]
    exact perm_middle
  | succ i =>
    rw [modify_succ_cons, flatMap_cons, drop_append_of_le_length hq]
    exact ((flatMap_modify_push x l i (Nat.lt_of_succ_lt_succ hi)).append_left _).trans perm_middle

theorem size_queue (lv : Levels) (j : Nat) (c : CompId) (d : Int) :
    (lv.queue j c d).pending.size = max lv.pending.size (j + 1) := by
  simp only [queue, Array.size_modify, Array.size_append, Array.size_replicate]
  omega

theorem getElem?_queue_of_ne (lv : Levels) {j i : Nat} (c : CompId) (d : Int) (h : i ≠ j)
    (hi : i < lv.pending.size) : (lv.queue j c d).pending[i]? = lv.pending[i]? := by
  rw [queue, Array.getElem?_modify, if_neg (Ne.symm h), Array.getElem?_append, if_pos hi]

theorem waiting_queue (lv : Levels) {j : Nat} (c : CompId) (d : Int) (hj : level ≤ j)
    (hs : InStep lv.pending level applied) : (waiting (lv.queue j c d).pending level applied).Perm
        ((c, d) :: waiting lv.pending level applied) ∧ InStep (lv.queue j c d).pending level applied := by
  let padded := lv.pending ++ Array.replicate (j + 1 - lv.pending.size) #[]
  have hflat : (padded.toList.drop level).flatMap Array.toList =
      (lv.pending.toList.drop level).flatMap Array.toList := by
    rw [Array.toList_append, Array.toList_replicate, drop_append, flatMap_append, drop_replicate]
    simp
  have hlen : j < padded.toList.length := by
    rw [Array.length_toList, Array.size_append, Array.size_replicate]
    omega
  have hlevel : level < padded.toList.length := Nat.lt_of_le_of_lt hj hlen
  have hget : padded[level]? = some padded.toList[level] := by
    rw [← Array.getElem?_toList, getElem?_eq_getElem hlevel]
  have hq : applied ≤ (padded.toList[level]).size := by
    by_cases hin : level < lv.pending.size
    · rw [Array.getElem?_append, if_pos hin] at hget
      rwa [InStep, hget] at hs
    · rw [InStep, Array.getElem?_eq_none (Nat.le_of_not_lt hin)] at hs
      exact hs.trans (Nat.zero_le _)
  constructor
  · have hperm := drop_flatMap_modify_push (c, d) padded.toList[level] (padded.toList.drop (level + 1))
      (j - level) (by rw [← drop_eq_getElem_cons hlevel, length_drop]; omega) hq
    rw [← drop_eq_getElem_cons hlevel, hflat, ← drop_modify_of_ge _ _ _ _ hj,
      ← Array.toList_modify] at hperm
    exact hperm
  · rw [InStep, queue, Array.getElem?_modify, hget]
    split
    · rw [Option.map_some, Option.elim_some, Array.size_push]
      omega
    · exact hq

end Queue

/-! ## Applying changes -/

def owed (flips : List Flip) (p : CompId) : Int :=
  flips.foldr (fun f n => (if f.1 = p then f.2 else 0) + n) 0

theorem owed_cons (f : Flip) (flips : List Flip) (p : CompId) :
    owed (f :: flips) p = (if p = f.1 then f.2 else 0) + owed flips p := by
  simp only [owed, foldr_cons, eq_comm]

theorem owed_perm {flips flips' : List Flip} (h : flips.Perm flips') (p : CompId) :
    owed flips p = owed flips' p := by
  induction h with
  | nil => rfl
  | cons f _ ih => rw [owed_cons, owed_cons, ih]
  | swap f g l => simp only [owed_cons]; omega
  | trans _ _ ih ih' => exact ih.trans ih'

theorem owed_map_append (outputs : List CompId) (d : Int) (flips : List Flip) (p : CompId) :
    owed (outputs.map (·, d) ++ flips) p = outputs.count p * d + owed flips p := by
  induction outputs with
  | nil => simp
  | cons o outputs ih =>
    rw [map_cons, cons_append, owed_cons, ih, count_cons]
    by_cases ho : p = o
    · simp only [ho, if_true, beq_self_eq_true, Nat.cast_add, Nat.cast_one, Int.add_mul, Int.one_mul]
      omega
    · have hne : (o == p) = false := by simpa using Ne.symm ho
      simp only [ho, hne, if_false, Bool.false_eq_true, Nat.add_zero, Int.zero_add]

def Toggles (net : Network) (f : Flip) : Prop :=
  ∃ k, net.get? f.1 = some k ∧ k.isGate = false ∧ (k.count = 0 ∨ k.count = 1) ∧
    (k.count + f.2 = 0 ∨ k.count + f.2 = 1)

/-- The changes that wait: steps at components that are there, and at most one toggle for each
component without inputs. -/
structure Orderly (net0 net : Network) (flips : List Flip) : Prop where
  steps : ∀ f ∈ flips, IsStep f.2 ∧ net0.contains f.1 = true
  toggles : ∀ f ∈ flips, net0.inputsOf f.1 = [] → Toggles net f
  once : ∀ c, net0.inputsOf c = [] → (flips.map (·.1)).count c ≤ 1

structure Running (net0 : Network) (given : CompId → Int) (top : Nat) (s : State) : Prop where
  recounts : Recounts net0 s.net
  inStep : InStep s.levels.pending s.level s.applied
  cleared : ∀ i < s.level, ∀ queued, s.levels.pending[i]? = some queued → queued = #[]
  size : s.levels.pending.size ≤ top
  orderly : Orderly net0 s.net (waiting s.levels.pending s.level s.applied)
  ledger : ∃ n, Ledger s.net given n (owed (waiting s.levels.pending s.level s.applied))

section Apply

variable {net0 net : Network} {given : CompId → Int} {top level applied : Nat} {flips : List Flip}
  {c : CompId}

theorem queueAll_yields (htop : ∀ c k, net.get? c = some k → k.level < top) {outputs : List CompId}
    (ho : ∀ o ∈ outputs, net.contains o) (d : Int) {lv : Levels} (hlevel : level < lv.pending.size)
    (hsize : lv.pending.size ≤ top) (hs : InStep lv.pending level applied) :
    (outputs.foldlM (fun lv o => do
        return Levels.queue lv (max (← net.get o).level level) o d) lv : Checked Levels).Yields
      fun lv' => (waiting lv'.pending level applied).Perm
          (outputs.map (·, d) ++ waiting lv.pending level applied) ∧
        InStep lv'.pending level applied ∧ lv'.pending.size ≤ top ∧
        ∀ i < level, lv'.pending[i]? = lv.pending[i]? := by
  induction outputs generalizing lv with
  | nil => exact .pure ⟨.refl _, hs, hsize, fun _ _ => rfl⟩
  | cons o outputs ih =>
    obtain ⟨k, hk⟩ := contains_iff.mp (ho o mem_cons_self)
    have hlt := htop o k hk
    have hle : level ≤ max k.level level := Nat.le_max_right _ _
    obtain ⟨hperm, hs'⟩ := waiting_queue lv o d hle hs
    have hsz := size_queue lv (max k.level level) o d
    rw [foldlM_cons]
    refine Checked.Yields.bind (P := fun lv' => lv' = lv.queue (max k.level level) o d)
      (.bind_ok (get_of_get? hk) (.pure rfl)) fun lv' hlv => ?_
    subst hlv
    refine (ih (forall_mem_cons.mp ho).2 (by omega) (by omega) hs').mono fun lv' h => ?_
    obtain ⟨hp, hin, hsz', hbelow⟩ := h
    refine ⟨hp.trans ?_, hin, hsz', fun i hi => ?_⟩
    · rw [map_cons, cons_append]
      exact (hperm.append_left _).trans perm_middle
    · rw [hbelow i hi, getElem?_queue_of_ne lv o d (by omega) (by omega)]

theorem Orderly.perm {flips flips' : List Flip} (h : Orderly net0 net flips)
    (hp : flips.Perm flips') : Orderly net0 net flips' where
  steps f hf := h.steps f (hp.mem_iff.mpr hf)
  toggles f hf := h.toggles f (hp.mem_iff.mpr hf)
  once c hc := by
    rw [← (hp.map (·.1)).count_eq c]
    exact h.once c hc

theorem Orderly.tail {d x : Int}
    (h : Orderly net0 net ((c, d) :: flips)) : Orderly net0 (net.recount1 c x) flips where
  steps f hf := h.steps f (mem_cons_of_mem _ hf)
  toggles f hf hi := by
    obtain ⟨k, hk, hrest⟩ := h.toggles f (mem_cons_of_mem _ hf) hi
    have hne : f.1 ≠ c := by
      rintro rfl
      have hone := h.once f.1 hi
      have hpos : 0 < (flips.map (·.1)).count f.1 := count_pos_iff.mpr (mem_map_of_mem hf)
      rw [map_cons, count_cons_self] at hone
      omega
    exact ⟨k, by rw [get?_recount1_of_ne hne, hk], hrest⟩
  once e he := by
    have := h.once e he
    rw [map_cons, count_cons] at this
    omega

theorem Orderly.append {outputs : List CompId} {d : Int}
    (h : Orderly net0 net flips) (ho : ∀ o ∈ outputs, net0.inputsOf o ≠ []) (hd : IsStep d) :
    Orderly net0 net (outputs.map (·, d) ++ flips) where
  steps f hf := by
    rcases mem_append.mp hf with hf | hf
    · obtain ⟨o, hm, rfl⟩ := mem_map.mp hf
      exact ⟨hd, contains_of_fed (ho o hm)⟩
    · exact h.steps f hf
  toggles f hf hi := by
    rcases mem_append.mp hf with hf | hf
    · obtain ⟨o, hm, rfl⟩ := mem_map.mp hf
      exact absurd hi (ho o hm)
    · exact h.toggles f hf hi
  once c hc := by
    have hzero : outputs.count c = 0 := count_eq_zero.mpr fun hm => ho c hm hc
    rw [map_append, map_map, count_append]
    have hmap : outputs.map ((·.1) ∘ fun o => (o, d)) = outputs := map_id _
    rw [hmap, hzero, Nat.zero_add]
    exact h.once c hc

theorem Orderly.cons {d : Int} (h : Orderly net0 net flips) (hd : IsStep d) (hc : net0.contains c)
    (ht : Toggles net (c, d)) (hfresh : c ∉ flips.map (·.1)) : Orderly net0 net ((c, d) :: flips) where
  steps f hf := by
    rcases mem_cons.mp hf with rfl | hf
    · exact ⟨hd, hc⟩
    · exact h.steps f hf
  toggles f hf hi := by
    rcases mem_cons.mp hf with rfl | hf
    · exact ht
    · exact h.toggles f hf hi
  once e he := by
    have hone := h.once e he
    rw [map_cons, count_cons]
    by_cases hec : e = c
    · subst hec
      rw [count_eq_zero.mpr hfresh]
      simp
    · have hne : (c == e) = false := by simpa using Ne.symm hec
      simpa [hne] using hone

theorem Running.apply {w : CompId → Nat} {s : State} {queued : Array Flip} {d : Int}
    (h : Running net0 given top s) (hq : s.levels.pending[s.level]? = some queued)
    (hf : queued[s.applied]? = some (c, d)) (hb : net0.Balanced) (hs : net0.Standard)
    (htop : ∀ c k, net0.get? c = some k → k.level < top)
    (hw : ∀ c, net0.contains c → tally w (net0.outputsOf c) < w c) :
    (Levels.apply s c d).Yields fun s' => Running net0 given top s' ∧ s'.level = s.level ∧
      tally w ((waiting s'.levels.pending s'.level s'.applied).map (·.1)) <
        tally w ((waiting s.levels.pending s.level s.applied).map (·.1)) := by
  obtain ⟨net, levels, level, applied⟩ := s
  obtain ⟨hr, -, hcl, hsize, hord, n, hl⟩ := h
  dsimp only at hq hf hr hcl hsize hord hl
  obtain ⟨hnext, hin⟩ := waiting_next hq hf
  have hlevel : level < levels.pending.size := (Array.getElem?_eq_some_iff.mp hq).1
  rw [hnext] at hord hl ⊢
  obtain ⟨hd, hlive⟩ := hord.steps (c, d) mem_cons_self
  obtain ⟨k, hk⟩ := contains_iff.mp ((hr.contains c).trans hlive)
  have hstd := hr.standard hs c k hk
  have hout : net0.outputsOf c = k.outputs := by rw [← hr.outputsOf, outputsOf_of_get? hk]
  have hnet : (net.modify c fun _ => { k with count := k.wrap (k.count + d) }) =
      net.recount1 c (k.wrap (k.count + d)) := modify_eq_recount1 hk rfl
  have hr' := hr.trans (recounts_recount1 net c (k.wrap (k.count + d)))
  obtain ⟨n', hl'⟩ := hl.add (hr.balanced hb) hk hstd hd fun hi => by
    obtain ⟨k', hk', htoggle⟩ := hord.toggles (c, d) mem_cons_self
      (by rw [← hr.inputsOf, inputsOf_of_get? hk, hi])
    rw [hk] at hk'
    cases hk'
    exact htoggle
  have hfed : ∀ o ∈ k.outputs, net0.inputsOf o ≠ [] := fun o ho =>
    ne_nil_of_mem (hb.mem_iff.mp (hout ▸ ho))
  have hlive' : ∀ o ∈ k.outputs, (net.recount1 c (k.wrap (k.count + d))).contains o = true :=
    fun o ho => (hr'.contains o).trans (hb.contains_target (hout ▸ ho))
  have htop' : ∀ e ke, (net.recount1 c (k.wrap (k.count + d))).get? e = some ke → ke.level < top := by
    intro e ke hke
    obtain ⟨x, hx⟩ := hr'.symm.get? hke
    have hlt := htop e _ hx
    exact hlt
  have hstep := isStep_mul_sign hd hstd
  have hwrap : Component.wrap { k with count := k.wrap (k.count + d) } (d * k.sign) = d * k.sign :=
    wrap_of_isStep _ hstep
  have hlight := hw c hlive
  rw [hout] at hlight
  unfold Levels.apply
  refine .bind_ok (get_of_get? hk) ?_
  dsimp only
  rw [hnet]
  by_cases hcross : crossed (k.counting (k.wrap (k.count + d))) d = true
  · -- the value turns, so the outputs of `c` are owed its flip
    rw [if_pos hcross] at hl'
    have hif : crossed { k with count := k.wrap (k.count + d) } d = true := hcross
    rw [if_pos hif, hwrap]
    refine .bind (queueAll_yields htop' hlive' (d * k.sign) hlevel hsize hin) fun lv' h => .pure ?_
    obtain ⟨hperm, hin', hsize', hbelow⟩ := h
    refine ⟨⟨hr', hin', fun i hi q hq' => ?_, hsize', (hord.tail.append hfed hstep).perm hperm.symm,
      n', hl'.congr fun p => ?_⟩, rfl, ?_⟩
    · rw [hbelow i hi] at hq'
      exact hcl i hi q hq'
    · rw [owed_perm hperm, owed_map_append, owed_cons, add_sub_cancel_left, Int.add_comm]
    · rw [tally_perm (hperm.map (·.1)), map_append, tally_append, map_map, map_cons, tally_cons]
      have hmap : k.outputs.map ((·.1) ∘ fun o => (o, d * k.sign)) = k.outputs := map_id _
      rw [hmap]
      dsimp only
      omega
  · rw [if_neg hcross] at hl'
    have hif : ¬ crossed { k with count := k.wrap (k.count + d) } d = true := hcross
    rw [if_neg hif]
    refine .bind (.pure (P := fun lv' => lv' = levels) rfl) fun lv' hlv => .pure ?_
    subst hlv
    refine ⟨⟨hr', hin, hcl, hsize, hord.tail, n', hl'.congr fun p => ?_⟩, rfl, ?_⟩
    · rw [owed_cons, add_sub_cancel_left, Int.mul_zero, Int.add_zero]
    · rw [map_cons, tally_cons]
      dsimp only
      omega

theorem Running.turn {w : CompId → Nat} (hb : net0.Balanced) (hs : net0.Standard)
    (htop : ∀ c k, net0.get? c = some k → k.level < top)
    (hw : ∀ c, net0.contains c → tally w (net0.outputsOf c) < w c) (s : State)
    (h : Running net0 given top s) : (Levels.turn s).Yields (Guarantee.Reaches
      (fun s' => Running net0 given top s' ∧
        tally w ((waiting s'.levels.pending s'.level s'.applied).map (·.1)) + (top - s'.level) <
          tally w ((waiting s.levels.pending s.level s.applied).map (·.1)) + (top - s.level))
      fun r => Recounts net0 r.1 ∧ (∃ n, Ledger r.1 given n fun _ => 0) ∧ r.2.Idle) := by
  unfold Levels.turn
  cases hq : s.levels.pending[s.level]? with
  | none =>
    obtain ⟨n, hl⟩ := h.ledger
    refine .pure ⟨h.recounts, ⟨n, hl.congr fun p => ?_⟩, fun queued hm => ?_⟩
    · rw [waiting_of_none hq]
      rfl
    obtain ⟨i, hi, hget⟩ := Array.mem_iff_getElem.mp hm
    have hle := Array.getElem?_eq_none_iff.mp hq
    exact h.cleared i (Nat.lt_of_lt_of_le hi hle) queued (by rw [Array.getElem?_eq_getElem hi, hget])
  | some queued =>
    have hlevel : s.level < s.levels.pending.size := (Array.getElem?_eq_some_iff.mp hq).1
    dsimp only
    cases hf : queued[s.applied]? with
    | some f =>
      refine .bind (h.apply hq hf hb hs htop hw) fun s' hs' => .pure ⟨hs'.1, ?_⟩
      obtain ⟨-, hlev, hlt⟩ := hs'
      have htop : top - s'.level = top - s.level := congrArg (top - ·) hlev
      omega
    | none =>
      have hwait := waiting_clear hq hf h.inStep
      refine .pure ⟨⟨h.recounts, Nat.zero_le _, fun i hi q hget => ?_, ?_, ?_, ?_⟩, ?_⟩
      · dsimp only at hi hget
        rw [Array.getElem?_modify] at hget
        split at hget
        · obtain ⟨q', -, rfl⟩ := Option.map_eq_some_iff.mp hget
          rfl
        · next hne => exact h.cleared i (by omega) q hget
      · dsimp only
        rw [Array.size_modify]
        exact h.size
      · dsimp only
        rw [hwait]
        exact h.orderly
      · dsimp only
        rw [hwait]
        exact h.ledger
      · dsimp only
        rw [hwait]
        have := h.size
        omega

end Apply

/-! ## Whole runs -/

section Run

variable {net : Network} {lv : Levels}

theorem le_foldl_level (l : List (CompId × Component)) :
    ∀ n, n ≤ l.foldl (fun n (_, k) => n + k.level + 1) n ∧
      ∀ x ∈ l, x.2.level < l.foldl (fun n (_, k) => n + k.level + 1) n := by
  induction l with
  | nil => exact fun n => ⟨Nat.le_refl n, forall_mem_nil _⟩
  | cons y l ih =>
    intro n
    obtain ⟨hle, hall⟩ := ih (n + y.2.level + 1)
    rw [foldl_cons]
    refine ⟨Nat.le_trans (by omega) hle, fun x hx => ?_⟩
    rcases mem_cons.mp hx with rfl | hx
    · exact Nat.lt_of_lt_of_le (by omega) hle
    · exact hall x hx

theorem le_extent (lv : Levels) (net : Network) :
    lv.pending.size + (waiting lv.pending 0 0).length ≤ lv.extent net := by
  refine Nat.le_trans ?_ (le_foldl_level net.components _).1
  rw [waiting, drop_zero, drop_zero, ← Array.foldl_toList, ← Array.length_toList]
  suffices h : ∀ (l : List (Array Flip)) (n : Nat),
      n + l.length + (l.flatMap Array.toList).length =
        l.foldl (fun n queued => n + queued.size + 1) n by
    rw [← h, Nat.zero_add]
  intro l
  induction l with
  | nil => exact fun n => rfl
  | cons q l ih =>
    intro n
    have hq : q.toList.length = q.size := Array.length_toList
    rw [foldl_cons, ← ih, flatMap_cons, length_append, length_cons]
    omega

theorem run_yields {given n : CompId → Int} (hb : net.Balanced) (ha : net.Acyclic)
    (hs : net.Standard) (hord : Orderly net net (waiting lv.pending 0 0))
    (hl : Ledger net given n (owed (waiting lv.pending 0 0))) : (lv.run net).Yields fun r =>
      Recounts net r.1 ∧ (∃ n, Ledger r.1 given n fun _ => 0) ∧ r.2.Idle := by
  obtain ⟨w, hw, hle⟩ := exists_weight hb ha
  have hext := le_extent lv net
  refine Checked.total.run (Running net given (lv.extent net))
    (fun s => tally w ((waiting s.levels.pending s.level s.applied).map (·.1)) +
      (lv.extent net - s.level)) _
    (Running.turn hb hs (fun c k hk => (le_foldl_level net.components _).2 (c, k) (mem_components.mpr hk)) hw)
    ⟨.refl net, Nat.zero_le _, fun i hi => absurd hi (Nat.not_lt_zero i), by dsimp only; omega, hord,
      n, hl⟩ ?_
  have htally : tally w ((waiting lv.pending 0 0).map (·.1)) ≤
      (waiting lv.pending 0 0).length * Loop.allowance net.extent := by
    rw [← length_map (f := (·.1))]
    exact tally_le_mul fun c _ => hle c
  calc tally w ((waiting lv.pending 0 0).map (·.1)) + (lv.extent net - 0)
      ≤ lv.extent net * Loop.allowance net.extent + lv.extent net * Loop.allowance net.extent := by
        refine Nat.add_le_add (htally.trans (Nat.mul_le_mul_right _ (by omega))) ?_
        exact Nat.le_mul_of_pos_right _ (Loop.allowance_pos _)
    _ < Loop.allowance (net.extent + lv.extent net + 1) := by
        have hlt := Nat.mul_lt_mul_of_pos_right (Loop.lt_allowance (lv.extent net))
          (Loop.allowance_pos net.extent)
        rw [Loop.allowance, Loop.allowance_add, Nat.mul_comm (Loop.allowance net.extent)]
        omega
    _ ≤ Loop.allowance (net.extent + lv.extent net + 1 + Loop.patience) :=
        Loop.allowance_le_add _ _

end Run

/-! ## Setting values -/

section Set

variable {net : Network} {lv : Levels}

theorem Idle.waiting_eq (h : lv.Idle) : waiting lv.pending 0 0 = [] := by
  rw [waiting, drop_zero, drop_zero, flatMap_eq_nil_iff]
  intro q hq
  rw [h q (Array.mem_toList_iff.mp hq)]

structure Setting (net : Network) (values rest : List (CompId × Bool)) (lv : Levels) : Prop where
  rest_ok : ∀ x ∈ rest, net.Settable x.1
  distinct : (rest.map (·.1)).Nodup
  apart : ∀ f ∈ waiting lv.pending 0 0, f.1 ∉ rest.map (·.1)
  orderly : Orderly net net (waiting lv.pending 0 0)
  ledger : ∃ given, Ledger net given net.countAt (owed (waiting lv.pending 0 0)) ∧
    aimed rest given = aimed values net.countAt

theorem owed_of_not_mem {flips : List Flip} {c : CompId} (h : c ∉ flips.map (·.1)) : owed flips c = 0 := by
  induction flips with
  | nil => rfl
  | cons f flips ih =>
    rw [map_cons, mem_cons, not_or] at h
    rw [owed_cons, if_neg h.1, ih h.2, Int.zero_add]

theorem Setting.step {values rest : List (CompId × Bool)} {c : CompId} {value : Bool}
    (h : Setting net values ((c, value) :: rest) lv) :
    (lv.set net c value).Yields (Setting net values rest) := by
  obtain ⟨k, hk, hi, hg, h01⟩ := h.rest_ok (c, value) mem_cons_self
  obtain ⟨given, hl, haim⟩ := h.ledger
  have hdist := h.distinct
  rw [map_cons, nodup_cons] at hdist
  have hfresh : c ∉ (waiting lv.pending 0 0).map (·.1) := by
    intro hm
    obtain ⟨f, hf, rfl⟩ := mem_map.mp hm
    exact h.apart f hf (by simp)
  have hin : net.inputsOf c = [] := by rw [inputsOf_of_get? hk, hi]
  -- nothing waits for `c`, so it is given what it counts
  have hgiven : given c = k.count := by
    have hdue := hl.due c k hk
    rw [if_pos hi, owed_of_not_mem hfresh, countAt_of_get? hk, Int.add_zero] at hdue
    exact hdue.symm
  have haimed := hl.aim hin (countOf value)
  have hwrap : k.wrap (countOf value - k.count) = countOf value - k.count := by
    apply Component.wrap_of_fits
    · change (-2147483648 : Int) ≤ _
      cases value <;> simp only [countOf] <;> grind
    · change _ ≤ (2147483647 : Int)
      cases value <;> simp only [countOf] <;> grind
  unfold Levels.set
  refine .bind_ok (get_of_get? hk) ?_
  dsimp only
  rw [hwrap]
  split
  · next h0 =>
    refine .pure ⟨fun x hx => h.rest_ok x (mem_cons_of_mem _ hx), hdist.2, fun f hf hm => ?_,
      h.orderly, _, haimed.congr fun d => ?_, haim⟩
    · exact h.apart f hf (by rw [map_cons]; exact mem_cons_of_mem _ hm)
    · rw [hgiven]
      split <;> omega
  next hne =>
  have hin0 : InStep lv.pending 0 0 := Nat.zero_le _
  obtain ⟨hperm, -⟩ := waiting_queue lv c (countOf value - k.count) (Nat.zero_le k.level) hin0
  have hstep : IsStep (countOf value - k.count) := by
    cases value <;> simp only [countOf, IsStep] at hne ⊢ <;> grind
  have htoggle : Toggles net (c, countOf value - k.count) :=
    ⟨k, hk, hg, h01, by cases value <;> simp only [countOf] <;> grind⟩
  have hord := h.orderly.cons hstep (contains_of_get? hk) htoggle hfresh
  refine .pure ⟨fun x hx => h.rest_ok x (mem_cons_of_mem _ hx), hdist.2, fun f hf hm => ?_,
    hord.perm hperm.symm, _, haimed.congr fun d => ?_, haim⟩
  · rcases mem_cons.mp (hperm.mem_iff.mp hf) with rfl | hf
    · exact hdist.1 hm
    · exact h.apart f hf (by rw [map_cons]; exact mem_cons_of_mem _ hm)
  rw [owed_perm hperm, owed_cons, hgiven, Int.add_comm]

/-- Setting different components without inputs and running: all counts are right again, and the
components without inputs have the values that were set. -/
theorem set_run_yields {values : List (CompId × Bool)} (hb : net.Balanced) (ha : net.Acyclic)
    (hs : net.Standard) (h : net.Tallied) (hidle : lv.Idle)
    (hv : ∀ x ∈ values, net.Settable x.1) (hd : (values.map (·.1)).Nodup) :
    (do
      let lv ← values.foldlM (fun lv (c, value) => Levels.set lv net c value) lv
      lv.run net : Checked (Network × Levels)).Yields fun r => Recounts net r.1 ∧ r.1.Tallied ∧
        r.2.Idle ∧ ∀ d, net.inputsOf d = [] → net.contains d →
          r.1.countAt d = aimed values net.countAt d := by
  have hstart : Setting net values values lv := by
    refine ⟨hv, hd, fun f hf => ?_, ⟨fun f hf => ?_, fun f hf => ?_, fun c _ => ?_⟩, net.countAt, ?_, rfl⟩
    · rw [hidle.waiting_eq] at hf
      cases hf
    · rw [hidle.waiting_eq] at hf
      cases hf
    · rw [hidle.waiting_eq] at hf
      cases hf
    · rw [hidle.waiting_eq]
      exact Nat.zero_le 1
    · rw [hidle.waiting_eq]
      exact h.ledger hb hs
  refine .bind (Checked.total.foldlM (Setting net values)
    (fun x rest lv' h' => h'.step) values lv hstart) fun lv' h' => ?_
  obtain ⟨given, hl, haim⟩ := h'.ledger
  have hgiven : given = aimed values net.countAt := haim
  refine (run_yields hb ha hs h'.orderly hl).mono fun r hr => ?_
  obtain ⟨hrec, ⟨n, hl'⟩, hidle'⟩ := hr
  refine ⟨hrec, hl'.tallied (hrec.balanced hb) (hrec.acyclic ha) (hrec.standard hs), hidle',
    fun d hnil hlive => ?_⟩
  rw [← hgiven]
  exact hl'.countAt_of_source ((hrec.contains d).trans hlive) ((hrec.inputsOf d).trans hnil)

end Set

end GameNet.Levels
