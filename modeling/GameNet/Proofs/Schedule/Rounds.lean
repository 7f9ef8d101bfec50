import GameNet.Proofs.InPlace
import GameNet.Proofs.Layout.Levels

/-!
Rounds of scheduling: what one round sorts out, and that there are not too many of them.

Every round puts a component into a level that was in none before, so scheduling ends on any network, with
cycles or without.
-/

namespace GameNet

open List

namespace Network

def IsLate (net : Network) (c : CompId) : Prop := c ∈ net.legals ∨ c ∈ net.transitions

instance (net : Network) (c : CompId) : Decidable (net.IsLate c) := inferInstanceAs (Decidable (_ ∨ _))

structure Whole (net : Network) : Prop where
  outputs : ∀ c, ∀ o ∈ net.outputsOf c, net.contains o = true
  source : ∀ c, net.IsSource c → net.contains c = true
  late : ∀ c, net.IsLate c → net.contains c = true

end Network

namespace Schedule

open Network

variable {net : Network} {late seen cs : List CompId} {s : State}

theorem mem_late {c : CompId} : c ∈ CompId.sortedSet net.legals ++ net.transitions ↔ net.IsLate c := by
  rw [mem_append, CompId.mem_sortedSet, IsLate]

/-! ## One round -/

def Ready (net : Network) (late seen : List CompId) (c : CompId) : Prop :=
  c ∉ seen ∧ c ∉ late ∧ ∀ i ∈ net.inputsOf c, i ∈ seen

def Waits (net : Network) (late seen : List CompId) (c : CompId) : Prop :=
  c ∉ seen ∧ c ∉ late ∧ ¬ ∀ i ∈ net.inputsOf c, i ∈ seen

structure Sorting (net : Network) (late seen cs rest : List CompId) (r : Round) : Prop where
  coming : ∀ c ∈ rest, c ∈ cs
  ready : ∀ c ∈ r.ready, c ∈ cs ∧ Ready net late seen c
  found : ∀ c ∈ cs, Ready net late seen c → c ∈ r.ready ∨ c ∈ rest
  fed : ∀ c ∈ r.ready, ∀ o ∈ net.outputsOf c, o ∈ r.candidates
  candidates : ∀ c ∈ r.candidates,
    (∃ d ∈ r.ready, c ∈ net.outputsOf d) ∨ c ∈ cs ∧ Waits net late seen c

theorem Sorting.start (net : Network) (late seen cs : List CompId) : Sorting net late seen cs cs {} where
  coming _ hc := hc
  ready _ hc := absurd hc not_mem_nil
  found _ hc _ := .inr hc
  fed _ hc := absurd hc not_mem_nil
  candidates _ hc := absurd hc not_mem_nil

theorem Sorting.consider_yields {rest : List CompId} {r : Round} {c : CompId}
    (h : Sorting net late seen cs (c :: rest) r) (hc : net.contains c) :
    (consider net late seen r c).Yields (Sorting net late seen cs rest) := by
  have hcoming : ∀ d ∈ rest, d ∈ cs := (forall_mem_cons.mp h.coming).2
  -- no candidate that is ready gets lost, if `c` does not
  have hfound : ∀ r' : Round, (∀ d ∈ r.ready, d ∈ r'.ready) → (Ready net late seen c → c ∈ r'.ready) →
      ∀ d ∈ cs, Ready net late seen d → d ∈ r'.ready ∨ d ∈ rest := by
    intro r' hsub hnew d hd hready
    rcases h.found d hd hready with hd' | hd'
    · exact .inl (hsub d hd')
    rcases mem_cons.mp hd' with rfl | hd'
    · exact .inl (hnew hready)
    · exact .inr hd'
  obtain ⟨k, hk⟩ := contains_iff.mp hc
  unfold consider
  split
  · -- it is scheduled, late, or was found before
    next hskip =>
    rw [Bool.or_eq_true, Bool.or_eq_true, contains_iff_mem, contains_iff_mem, contains_iff_mem] at hskip
    refine .pure ⟨hcoming, h.ready, hfound r (fun _ hd => hd) fun hready => ?_, h.fed, h.candidates⟩
    rcases hskip with (hseen | hlate) | hdone
    · exact absurd hseen hready.1
    · exact absurd hlate hready.2.1
    · exact hdone
  next hskip =>
  simp only [Bool.or_eq_true, contains_iff_mem, not_or] at hskip
  obtain ⟨⟨hseen, hlate⟩, -⟩ := hskip
  refine .bind_ok (get_of_get? hk) ?_
  have hin := inputsOf_of_get? hk
  have hout := outputsOf_of_get? hk
  split
  · next hall =>
    have hready : Ready net late seen c := ⟨hseen, hlate, fun i hi => by
      rw [hin] at hi
      exact contains_iff_mem.mp (all_eq_true.mp hall i hi)⟩
    refine .pure ⟨hcoming, fun d hd => ?_, hfound _ (fun d hd => mem_append_left _ hd)
      fun _ => mem_append_right _ (mem_singleton_self c), fun d hd o ho => ?_, fun d hd => ?_⟩
    · rcases mem_append.mp hd with hd | hd
      · exact h.ready d hd
      · rw [mem_singleton.mp hd]
        exact ⟨h.coming c mem_cons_self, hready⟩
    · rcases mem_append.mp hd with hd | hd
      · exact mem_append_left _ (h.fed d hd o ho)
      · rw [mem_singleton.mp hd, hout] at ho
        exact mem_append_right _ ho
    · rcases mem_append.mp hd with hd | hd
      · rcases h.candidates d hd with ⟨e, he, hde⟩ | hwait
        · exact .inl ⟨e, mem_append_left _ he, hde⟩
        · exact .inr hwait
      · exact .inl ⟨c, mem_append_right _ (mem_singleton_self c), by rwa [hout]⟩
  · next hall =>
    have hnot : ¬ ∀ i ∈ net.inputsOf c, i ∈ seen := fun hin' => hall (all_eq_true.mpr
      fun i hi => contains_iff_mem.mpr (hin' i (by rwa [hin])))
    have hnever : Ready net late seen c → c ∈ r.ready := fun hready => absurd hready.2.2 hnot
    split
    · exact .pure ⟨hcoming, h.ready, hfound r (fun _ hd => hd) hnever, h.fed, h.candidates⟩
    refine .pure ⟨hcoming, h.ready, hfound _ (fun _ hd => hd) hnever,
      fun d hd o ho => mem_append_left _ (h.fed d hd o ho), fun d hd => ?_⟩
    rcases mem_append.mp hd with hd | hd
    · exact h.candidates d hd
    · rw [mem_singleton.mp hd]
      exact .inr ⟨h.coming c mem_cons_self, hseen, hlate, hnot⟩

theorem round_yields (hlive : ∀ c ∈ cs, net.contains c) :
    (cs.foldlM (consider net late seen) {} : Checked Round).Yields (Sorting net late seen cs []) :=
  Checked.total.foldlM (Sorting net late seen cs)
    (fun c _ _ h => h.consider_yields (hlive c (h.coming c mem_cons_self))) cs {}
    (.start net late seen cs)

theorem force_yields (hlive : ∀ c ∈ cs, net.contains c) : (force net seen cs).Yields fun x =>
      (∀ c ∈ x.1, c ∈ cs) ∧ ∀ o ∈ x.2, ∃ c ∈ x.1, o ∈ net.outputsOf c := by
  have hget : ∀ c ∈ cs, ∃ k, net.get? c = some k := fun c hc => contains_iff.mp (hlive c hc)
  have hgate : ∀ c ∈ cs, (do return (← net.get c).isGate : Checked Bool) =
      .ok ((net.get? c).elim false Component.isGate) := by
    intro c hc
    obtain ⟨k, hk⟩ := hget c hc
    rw [get_of_get? hk, hk]
    rfl
  have hsub : ∀ c ∈ CompId.sortedSet (cs.filter fun c => (net.get? c).elim false Component.isGate),
      c ∈ cs := fun c hc => mem_of_mem_filter (CompId.mem_sortedSet.mp hc)
  have hfed : ∀ c ∈ CompId.sortedSet (cs.filter fun c => (net.get? c).elim false Component.isGate),
      (do return (← net.get c).outputs.filter fun o => !seen.contains o : Checked (List CompId)) =
        .ok ((net.outputsOf c).filter fun o => !seen.contains o) := by
    intro c hc
    obtain ⟨k, hk⟩ := hget c (hsub c hc)
    rw [get_of_get? hk, outputsOf_of_get? hk]
    rfl
  unfold force
  refine .bind_ok (Checked.filterM_yields cs hgate) (.bind_ok (Checked.mapM_yields _ hfed)
    (.pure ⟨hsub, fun o ho => ?_⟩))
  obtain ⟨os, hos, ho⟩ := mem_flatten.mp ho
  obtain ⟨c, hc, rfl⟩ := mem_map.mp hos
  exact ⟨c, hc, mem_of_mem_filter ho⟩

/-! ## All rounds -/

def unseen (net : Network) (seen : List CompId) : Nat :=
  (net.ids.filter fun c => !seen.contains c).length

theorem unseen_lt {level : List CompId} {c : CompId} (hc : c ∈ level) (hlive : net.contains c)
    (hnew : c ∉ seen) : unseen net (level ++ seen) < unseen net seen := by
  have hfilter : (net.ids.filter fun d => !(level ++ seen).contains d) =
      (net.ids.filter fun d => !seen.contains d).filter fun d => !level.contains d := by
    rw [filter_filter]
    refine filter_congr fun d _ => ?_
    simp [Bool.and_comm]
  rw [unseen, unseen, hfilter, length_filter_lt_length_iff_exists]
  refine ⟨c, mem_filter.mpr ⟨mem_ids.mpr hlive, ?_⟩, ?_⟩
  · simpa using hnew
  · simpa using hc

theorem unseen_lt_allowance (net : Network) (seen : List CompId) :
    unseen net seen < Loop.allowance (net.extent + 1 + Loop.patience) := by
  have hle : unseen net seen ≤ net.capacity := by
    refine Nat.le_trans (length_filter_le _ _) ?_
    rw [ids, length_map]
    exact net.length_components_le
  have hcap := net.capacity_le_extent
  have hmono := Loop.allowance_mono (Nat.le_add_right (net.extent + 1) Loop.patience)
  have hlt := Loop.lt_allowance (net.extent + 1)
  omega

structure Sane (net : Network) (s : State) : Prop where
  levels : ∀ level ∈ s.levels, ∀ c ∈ level, net.contains c = true
  candidates : ∀ c ∈ s.candidates, net.contains c = true

/-- A round ends the scheduling or places a component. -/
theorem Sane.turn_decides (hw : net.Whole) (h : Sane net s) :
    Observed.decides.holds (turn net late s) (Guarantee.Reaches
      (fun s' => Sane net s' ∧ unseen net s'.seen < unseen net s.seen) (Sane net)) := by
  -- what a new level needs in order to be one
  have hplace : ∀ (level candidates : List CompId), level ≠ [] →
      (∀ c ∈ level, net.contains c ∧ c ∉ s.seen) →
      (∀ c ∈ candidates, net.contains c) →
      Sane net ⟨level :: s.levels, level ++ s.seen, candidates⟩ ∧
        unseen net (level ++ s.seen) < unseen net s.seen := by
    intro level candidates hne hlevel hcandidates
    obtain ⟨c, hc⟩ := exists_mem_of_ne_nil level hne
    exact ⟨⟨forall_mem_cons.mpr ⟨fun d hd => (hlevel d hd).1, h.levels⟩, hcandidates⟩,
      unseen_lt hc (hlevel c hc).1 (hlevel c hc).2⟩
  unfold turn
  split
  · exact Observed.decides.pure h
  refine Observed.decides.bind (Observed.decides_lift (.inl (round_yields h.candidates))) fun r hr => ?_
  have hnext : ∀ c ∈ r.candidates, net.contains c := by
    intro c hc
    rcases hr.candidates c hc with ⟨d, -, hcd⟩ | ⟨hcs, -⟩
    · exact hw.outputs d c hcd
    · exact h.candidates c hcs
  split
  · next hnone =>
    refine Observed.decides.bind (Observed.decides_lift (.inl (force_yields hnext))) fun x hx => ?_
    obtain ⟨gates, fed⟩ := x
    dsimp only at hx ⊢
    split
    · exact Observed.decides.pure h
    next hsome =>
    refine Observed.decides.bind (P := fun _ => True) (fun told => .inl ⟨(), rfl, trivial⟩) fun _ _ =>
      Observed.decides.pure (hplace gates _ (fun hnil => hsome (List.isEmpty_iff.mpr hnil))
        (fun c hc => ⟨hnext c (hx.1 c hc), ?_⟩) fun c hc => ?_)
    · -- nothing is ready, so a candidate of the next round is one that waits
      rcases hr.candidates c (hx.1 c hc) with ⟨d, hd, -⟩ | ⟨-, hwait⟩
      · rw [List.isEmpty_iff.mp hnone] at hd
        cases hd
      · exact hwait.1
    · rcases mem_append.mp hc with hc | hc
      · exact hnext c hc
      · obtain ⟨d, -, hcd⟩ := hx.2 c hc
        exact hw.outputs d c hcd
  · next hsome =>
    refine Observed.decides.pure (hplace _ _ (fun hnil => hsome ?_) (fun c hc => ?_) hnext)
    · rw [List.isEmpty_iff, eq_nil_iff_forall_not_mem]
      intro c hc
      have hmem := CompId.mem_sorted.mpr hc
      rw [hnil] at hmem
      cases hmem
    · obtain ⟨hcs, hready⟩ := hr.ready c (CompId.mem_sorted.mp hc)
      exact ⟨h.candidates c hcs, hready.1⟩

theorem start_decides (hw : net.Whole) : Checked.decides.holds (start net) (Sane net) := by
  have hsource : ∀ c ∈ sources net, net.contains c := fun c hc =>
    hw.source c (mem_sources.mp hc)
  refine Checked.decides.bind (Checked.decides.mapM (R := fun c os => os = net.outputsOf c) _
    fun c hc => ?_) fun fed hfed => Checked.decides.pure ⟨?_, fun o ho => ?_⟩
  · obtain ⟨k, hk⟩ := contains_iff.mp (hsource c hc)
    refine Checked.decides.bind (P := (· = k)) (.inl ⟨k, get_of_get? hk, rfl⟩) fun k' hk' => ?_
    subst hk'
    split
    · exact .inr ⟨_, rfl⟩
    · exact Checked.decides.pure (outputsOf_of_get? hk).symm
  · rw [forall_mem_singleton]
    exact hsource
  · obtain ⟨os, hos, ho⟩ := mem_flatten.mp ho
    obtain ⟨c, -, rfl⟩ := exists_of_mem_right hfed hos
    exact hw.outputs c o ho

def Complete (net : Network) (s : State) (levels : List (List CompId)) : Prop :=
  ∃ goals, levels = s.levels.reverse ++
      [CompId.sorted net.transitions, CompId.sortedSet net.legals] ++
      (if goals.isEmpty then [] else [goals]) ∧
    ∀ c ∈ goals, net.contains c = true ∧ c ∉ s.seen ∧ ¬ net.IsLate c

theorem finish_holds (g : Guarantee Checked)
    (h : ∀ c k, net.get? c = some k → c ∉ s.seen → ¬ net.IsLate c → k.inputs ≠ [] →
      ∀ (α : Type) (P : α → Prop), g.holds (throw (.compile (.schedule (net.site c)))) P) :
    g.holds (finish net (CompId.sortedSet net.legals) s) (Complete net s) := by
  have hleft : ∀ c, c ∈ (net.ids.filter fun c => !(s.seen.contains c ||
      (CompId.sorted net.transitions).contains c || (CompId.sortedSet net.legals).contains c)) →
      net.contains c ∧ c ∉ s.seen ∧ ¬ net.IsLate c := by
    intro c hc
    obtain ⟨hid, hc⟩ := mem_filter.mp hc
    simp only [Bool.not_eq_true', Bool.or_eq_false_iff, contains_eq_mem, decide_eq_false_iff_not,
      CompId.mem_sorted, CompId.mem_sortedSet] at hc
    obtain ⟨⟨hseen, htrans⟩, hlegal⟩ := hc
    exact ⟨mem_ids.mp hid, hseen, not_or.mpr ⟨hlegal, htrans⟩⟩
  unfold finish
  dsimp only
  rw [partition_eq_filter_filter]
  refine g.bind (g.forIn (p := fun _ => True) _ fun c hc => ?_) fun _ _ => g.pure ⟨_, rfl, fun c hc => ?_⟩
  · obtain ⟨hlive, hseen, hlate⟩ := hleft c (mem_of_mem_filter hc)
    obtain ⟨k, hk⟩ := contains_iff.mp hlive
    rw [get_of_get? hk]
    change g.holds (if (!k.inputs.isEmpty) = true then _ else _) _
    split
    · next hi =>
      exact g.bind (h c k hk hseen hlate (by simpa using hi) _ fun _ => False) fun _ hf => hf.elim
    · exact g.pure ⟨rfl, trivial⟩
  · exact hleft c (mem_of_mem_filter hc)

theorem Complete.live {levels : List (List CompId)} (hf : Complete net s levels)
    (hlevels : ∀ level ∈ s.levels, ∀ c ∈ level, net.contains c)
    (hlate : ∀ c, net.IsLate c → net.contains c) : ∀ level ∈ levels, ∀ c ∈ level, net.contains c := by
  obtain ⟨goals, rfl, hgoals⟩ := hf
  intro level hlevel c hc
  rw [mem_append, mem_append, mem_reverse] at hlevel
  rcases hlevel with (hlevel | hlevel) | hlevel
  · exact hlevels level hlevel c hc
  · rcases mem_pair.mp hlevel with rfl | rfl
    · exact hlate c (.inr (CompId.mem_sorted.mp hc))
    · exact hlate c (.inl (CompId.mem_sortedSet.mp hc))
  · split at hlevel
    · cases hlevel
    · rw [mem_singleton.mp hlevel] at hc
      exact (hgoals c hc).1

def plan (net : Network) : Observed (List (List CompId)) := do
  let legals := CompId.sortedSet net.legals
  let s ← start net
  let s ← Loop.run (net.extent + 1) (turn net (legals ++ net.transitions)) s
  finish net legals s

theorem schedule_eq (net : Network) : net.schedule = (do net.setLevels (← plan net)) := by
  rw [schedule, plan]
  simp only [bind_assoc]

theorem plan_decides (hw : net.Whole) : Observed.decides.holds (plan net) fun levels =>
    ∀ level ∈ levels, ∀ c ∈ level, net.contains c := by
  refine Observed.decides.bind (Observed.decides_lift (start_decides hw)) fun s hs => ?_
  refine Observed.decides.bind (Observed.decides.run (Sane net) (fun s => unseen net s.seen) (Sane net)
    (fun s hs => hs.turn_decides hw) hs (unseen_lt_allowance net _)) fun s hs => ?_
  refine Observed.decides_lift (Checked.decides.mono (finish_holds Checked.decides ?_) fun levels hf =>
    hf.live hs.levels hw.late)
  exact fun _ _ _ _ _ _ _ _ => .inr ⟨_, rfl⟩

end Schedule

/-! ## Writing the levels -/

namespace Network

variable {levels : List (List CompId)} {level : List CompId}

open Schedule

def levelAt (net : Network) (c : CompId) : Nat := (net.get? c).elim 0 Component.level

def InLevel (levels : List (List CompId)) (n : Nat) (c : CompId) : Prop :=
  ∃ level, levels[n]? = some level ∧ c ∈ level

theorem inLevel_cons_zero {c : CompId} : InLevel (level :: levels) 0 c ↔ c ∈ level := by
  simp [InLevel]

theorem inLevel_cons_succ {n : Nat} {c : CompId} :
    InLevel (level :: levels) (n + 1) c ↔ InLevel levels n c := Iff.rfl

def StandsAt (levels : List (List CompId)) (c : CompId) (first old now : Nat) : Prop :=
  (∃ n, InLevel levels n c ∧ (∀ m, InLevel levels m c → m ≤ n) ∧ now = first + n) ∨
    (∀ n, ¬ InLevel levels n c) ∧ now = old

theorem StandsAt.cons {c : CompId} {n old now : Nat}
    (h : StandsAt levels c (n + 1) (if c ∈ level then n else old) now) :
    StandsAt (level :: levels) c n old now := by
  rcases h with ⟨m, hm, hlast, hnow⟩ | ⟨hno, hnow⟩
  · refine .inl ⟨m + 1, inLevel_cons_succ.mpr hm, fun j hj => ?_, by omega⟩
    cases j with
    | zero => exact Nat.zero_le _
    | succ j => exact Nat.succ_le_succ (hlast j (inLevel_cons_succ.mp hj))
  by_cases hc : c ∈ level
  · rw [if_pos hc] at hnow
    refine .inl ⟨0, inLevel_cons_zero.mpr hc, fun j hj => ?_, hnow⟩
    cases j with
    | zero => exact Nat.le_refl _
    | succ j => exact absurd (inLevel_cons_succ.mp hj) (hno j)
  · rw [if_neg hc] at hnow
    refine .inr ⟨fun j hj => ?_, hnow⟩
    cases j with
    | zero => exact hc (inLevel_cons_zero.mp hj)
    | succ j => exact hno j (inLevel_cons_succ.mp hj)

variable {net : Network}

theorem levelAt_modify (net : Network) (c d : CompId) (n : Nat) (hd : net.contains d) :
    (net.modify c fun k => { k with level := n }).levelAt d = if d = c then n else net.levelAt d := by
  obtain ⟨k, hk⟩ := contains_iff.mp hd
  rw [levelAt, get?_modify, levelAt, hk]
  split <;> rfl

theorem setLevel_yields (n : Nat) (level : List CompId) (cur : Network)
    (hlive : ∀ c ∈ level, cur.contains c) :
    (level.foldlM (fun net c => net.update c fun k => { k with level := n }) cur :
      Checked Network).Yields fun net' => ∀ c, net'.contains c = cur.contains c ∧
        (cur.contains c → net'.levelAt c = if c ∈ level then n else cur.levelAt c) := by
  induction level generalizing cur with
  | nil => exact .pure fun c => ⟨rfl, fun _ => rfl⟩
  | cons d level ih =>
    have hd := hlive d mem_cons_self
    have hcontains : ∀ c, (cur.modify d fun k => { k with level := n }).contains c = cur.contains c := by
      intro c
      rw [contains, contains, get?_modify]
      split
      · exact Option.isSome_map
      · rfl
    rw [foldlM_cons]
    refine .bind_ok (a := cur.modify d fun k => { k with level := n }) (if_pos hd) ?_
    refine (ih _ fun c hc => ?_).mono fun net' h c => ⟨(h c).1.trans (hcontains c), fun hc => ?_⟩
    · rw [hcontains]
      exact hlive c (mem_cons_of_mem _ hc)
    rw [(h c).2 ((hcontains c).trans hc), levelAt_modify cur d c n hc]
    by_cases hmem : c ∈ level
    · rw [if_pos hmem, if_pos (mem_cons_of_mem _ hmem)]
    · rw [if_neg hmem]
      exact if_congr (by simp [hmem]) rfl rfl

theorem setLevelsFrom_yields (levels : List (List CompId)) (first : Nat) (cur : Network)
    (hlive : ∀ level ∈ levels, ∀ c ∈ level, cur.contains c) : ((levels.zipIdx first).foldlM (fun net x =>
      x.1.foldlM (fun net c => net.update c fun k => { k with level := x.2 }) net) cur :
        Checked Network).Yields fun net' => ∀ c, cur.contains c →
          StandsAt levels c first (cur.levelAt c) (net'.levelAt c) := by
  induction levels generalizing first cur with
  | nil => exact .pure fun c _ => .inr ⟨fun n hn => by simp [InLevel] at hn, rfl⟩
  | cons level levels ih =>
    rw [zipIdx_cons, foldlM_cons]
    refine .bind (setLevel_yields first level cur (hlive level mem_cons_self)) fun mid hmid => ?_
    refine (ih (first + 1) mid fun l hl c hc => ?_).mono fun net' h c hc => .cons ?_
    · rw [(hmid c).1]
      exact hlive l (mem_cons_of_mem _ hl) c hc
    · have hplaced := h c ((hmid c).1.trans hc)
      rwa [(hmid c).2 hc] at hplaced

theorem setLevels_yields (hlive : ∀ level ∈ levels, ∀ c ∈ level, net.contains c) :
    (net.setLevels levels).Yields fun net' => Relevels net net' ∧ net'.levels = levels ∧
      ∀ c, net.contains c → StandsAt levels c 0 0 (net'.levelAt c) := by
  have hcontains : ∀ c, (net.mapComponents fun k => { k with level := 0 }).contains c =
      net.contains c := fun c => by rw [contains, get?_mapComponents, Option.isSome_map, contains]
  have hzero : ∀ c, (net.mapComponents fun k => { k with level := 0 }).levelAt c = 0 := by
    intro c
    rw [levelAt, get?_mapComponents]
    cases net.get? c <;> rfl
  obtain ⟨cur, hcur, hplaced⟩ := setLevelsFrom_yields levels 0
    (net.mapComponents fun k => { k with level := 0 }) fun level hlevel c hc => by
      rw [hcontains]
      exact hlive level hlevel c hc
  have hset : net.setLevels levels = .ok { cur with levels } :=
    congrArg (fun x : Checked Network => do return { ← x with levels }) hcur
  refine ⟨{ cur with levels }, hset, setLevels_ensures net levels _ hset, rfl, fun c hc => ?_⟩
  have h := hplaced c ((hcontains c).trans hc)
  rwa [hzero] at h

def writeLevels (levels : List (List CompId)) : InPlace Network Unit := do
  InPlace.change (·.mapComponents fun k => { k with level := 0 })
  levels.zipIdx.forM fun x => x.1.forM fun c =>
    InPlace.step (·.update c fun k => { k with level := x.2 })
  InPlace.change ({ · with levels })

theorem writeLevels_follows (net : Network) (levels : List (List CompId)) :
    InPlace.Follows ((writeLevels levels).on net) (net.setLevels levels) (fun _ => ()) id := by
  unfold writeLevels setLevels
  rw [InPlace.on_bind_ok (InPlace.on_change _ net)]
  have hlevel : ∀ (cur : Network) (x : List CompId × Nat), InPlace.Follows
      ((x.1.forM fun c => InPlace.step (·.update c fun k => { k with level := x.2 })).on cur)
      (x.1.foldlM (fun net c => net.update c fun k => { k with level := x.2 }) cur) (fun _ => ()) id :=
    fun cur x => .forM (fun cur c => .step _) x.1 cur
  exact .bind (.forM hlevel levels.zipIdx _) fun cur => .of_ok (a := { cur with levels }) rfl rfl

/-- Scheduling in place: the outcome, the network that is left, and what was told. The levels are all
known before the first is written. -/
def scheduleInPlace (net : Network) (told : Array Event) : Checked Unit × Network × Array Event :=
  match (plan net).outcome told with
  | (.ok levels, told) =>
    let r := (writeLevels levels).on net
    (r.1, r.2, told)
  | (.error e, told) => (.error e, net, told)

/-- Scheduling ends. If it fails it is with a compile error, and nothing is written. -/
theorem schedule_decides (hw : net.Whole) (told : Array Event) :
    (∃ net' told', net.schedule.outcome told = (.ok net', told') ∧
      net.scheduleInPlace told = (.ok (), net', told')) ∨
    ∃ e told', net.schedule.outcome told = (.error (.compile e), told') ∧
      net.scheduleInPlace told = (.error (.compile e), net, told') := by
  have hplan := plan_decides hw told
  rw [schedule_eq, Observed.outcome_bind, scheduleInPlace]
  generalize (plan net).outcome told = r at hplan ⊢
  obtain ⟨r, told'⟩ := r
  rcases hplan with ⟨levels, rfl, hlive⟩ | ⟨e, rfl⟩
  · obtain ⟨net', hset, -⟩ := setLevels_yields hlive
    have hwrite := (writeLevels_follows net levels).ok net' hset
    -- all that the levels list is there, so writing them does not fail
    refine .inl ⟨net', told', ?_, ?_⟩
    · change (net.setLevels levels, told') = _
      rw [hset]
    dsimp only
    rw [hwrite]
    rfl
  · exact .inr ⟨e, told', rfl, rfl⟩

end Network

end GameNet
