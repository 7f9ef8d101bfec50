import GameNet.Proofs.Schedule.Rounds

/-!
Levels are longest paths.

In a network without cycles every component has a height, the number of edges on a longest path that leads
to it.
-/

namespace GameNet

open List

namespace Network

/-! ## Heights -/

def highest (height : CompId → Nat) (cs : List CompId) : Nat :=
  cs.foldr (fun c n => max (height c) n) 0

def heightWithin (net : Network) : (n : Nat) → CompId → Nat
  | 0, _ => 0
  | n + 1, c =>
    if net.inputsOf c = [] then 0 else highest (net.heightWithin n) (net.inputsOf c) + 1

def height (net : Network) (c : CompId) : Nat := net.heightWithin (net.capacity + 1) c

section Heights

variable {net : Network} {c i : CompId} {cs : List CompId}

theorem highest_cons (h : CompId → Nat) (c : CompId) (cs : List CompId) :
    highest h (c :: cs) = max (h c) (highest h cs) := rfl

theorem highest_congr {h h' : CompId → Nat} (heq : ∀ c ∈ cs, h c = h' c) : highest h cs = highest h' cs := by
  induction cs with
  | nil => rfl
  | cons c cs ih =>
    rw [highest_cons, highest_cons, heq c mem_cons_self, ih (forall_mem_cons.mp heq).2]

theorem le_highest {h : CompId → Nat} (hc : c ∈ cs) : h c ≤ highest h cs := by
  induction cs with
  | nil => cases hc
  | cons d cs ih =>
    rw [highest_cons]
    rcases mem_cons.mp hc with rfl | hc
    · exact Nat.le_max_left _ _
    · exact Nat.le_trans (ih hc) (Nat.le_max_right _ _)

theorem exists_eq_highest (h : CompId → Nat) (hne : cs ≠ []) : ∃ c ∈ cs, highest h cs = h c := by
  induction cs with
  | nil => exact absurd rfl hne
  | cons d cs ih =>
    rw [highest_cons]
    rcases Nat.le_total (highest h cs) (h d) with hle | hle
    · exact ⟨d, mem_cons_self, Nat.max_eq_left hle⟩
    by_cases hnil : cs = []
    · subst hnil
      exact ⟨d, mem_cons_self, Nat.max_eq_left (Nat.zero_le _)⟩
    · obtain ⟨c, hc, heq⟩ := ih hnil
      exact ⟨c, mem_cons_of_mem _ hc, by rw [Nat.max_eq_right hle, heq]⟩

theorem height_of_source (hi : net.inputsOf c = []) : net.height c = 0 := if_pos hi

theorem heightWithin_stable {rank : CompId → Nat} (hr : net.Ranked rank) (c : CompId) (n m : Nat)
    (hn : rank c < n) (hm : rank c < m) : net.heightWithin n c = net.heightWithin m c := by
  induction n generalizing c m with
  | zero => omega
  | succ n ih =>
    obtain ⟨m, rfl⟩ : ∃ m', m = m' + 1 := ⟨m - 1, by omega⟩
    rw [heightWithin, heightWithin]
    refine if_congr Iff.rfl rfl (congrArg (· + 1) (highest_congr fun i hi => ?_))
    have hlt := hr i c hi
    exact ih i m (by omega) (by omega)

theorem height_of_fed (hb : net.Balanced) (ha : net.Acyclic) (hi : net.inputsOf c ≠ []) :
    net.height c = highest net.height (net.inputsOf c) + 1 := by
  obtain ⟨rank, hr, hle⟩ := ha.exists_rank hb
  rw [height, heightWithin, if_neg hi]
  refine congrArg (· + 1) (highest_congr fun i hi => ?_)
  have hlt := hr i c hi
  have hcap := hle c
  exact heightWithin_stable hr i _ _ (by omega) (by omega)

theorem height_input (hb : net.Balanced) (ha : net.Acyclic) (hi : i ∈ net.inputsOf c) :
    net.height i < net.height c := by
  rw [height_of_fed hb ha (ne_nil_of_mem hi)]
  exact Nat.lt_succ_of_le (le_highest hi)

theorem exists_height (hb : net.Balanced) (ha : net.Acyclic) (hi : net.inputsOf c ≠ []) :
    ∃ i ∈ net.inputsOf c, net.height c = net.height i + 1 := by
  obtain ⟨i, hmem, heq⟩ := exists_eq_highest net.height hi
  exact ⟨i, hmem, by rw [height_of_fed hb ha hi, heq]⟩

end Heights

/-- Networks that can be put into levels. What has no inputs but is read is a source, and nothing reads
legals and transitions. -/
structure Schedulable (net : Network) : Prop where
  balanced : net.Balanced
  acyclic : net.Acyclic
  source : ∀ c, net.IsSource c → net.contains c = true ∧ net.inputsOf c = []
  late : ∀ c, net.IsLate c → net.contains c = true ∧ net.outputsOf c = []
  supplied : ∀ c, net.inputsOf c = [] → net.outputsOf c ≠ [] → net.IsSource c
  apart : ∀ c, net.IsSource c → ¬ net.IsLate c
  distinct : ∀ c ∈ net.legals, c ∉ net.transitions

def Regular (net : Network) (c : CompId) : Prop :=
  net.IsSource c ∨ net.inputsOf c ≠ [] ∧ ¬ net.IsLate c

section Schedulable

variable {net : Network} {c i : CompId}
variable (h : net.Schedulable)
include h

theorem Schedulable.not_late (hc : net.Regular c) : ¬ net.IsLate c :=
  hc.elim (h.apart c) And.right

theorem Schedulable.contains (hc : net.Regular c) : net.contains c := by
  rcases hc with hc | ⟨hi, -⟩
  · exact (h.source c hc).1
  · exact contains_of_fed hi

theorem Schedulable.regular_input (hi : i ∈ net.inputsOf c) : net.Regular i := by
  have hout : net.outputsOf i ≠ [] := ne_nil_of_mem (h.balanced.mem_iff.mpr hi)
  by_cases hin : net.inputsOf i = []
  · exact .inl (h.supplied i hin hout)
  · exact .inr ⟨hin, fun hlate => hout (h.late i hlate).2⟩

theorem Schedulable.height_eq_zero_iff (hc : net.Regular c) : net.height c = 0 ↔ net.IsSource c := by
  constructor
  · intro hzero
    rcases hc with hc | ⟨hi, -⟩
    · exact hc
    · rw [height_of_fed h.balanced h.acyclic hi] at hzero
      cases hzero
  · exact fun hs => height_of_source (h.source c hs).2

theorem Schedulable.exists_of_le_height {n : Nat} (hn : 0 < n)
    (hc : net.Regular c) (hle : n ≤ net.height c) : ∃ d, net.Regular d ∧ net.height d = n := by
  -- going down along the highest inputs, the height falls by one each time
  induction hm : net.height c using Nat.strong_induction_on generalizing c with
  | _ m ih =>
    subst hm
    by_cases heq : net.height c = n
    · exact ⟨c, hc, heq⟩
    have hi : net.inputsOf c ≠ [] := fun hi => by
      rw [height_of_source hi] at hle
      omega
    obtain ⟨i, hmem, hheight⟩ := exists_height h.balanced h.acyclic hi
    exact ih (net.height i) (by omega) (h.regular_input hmem) (by omega) rfl

end Schedulable

theorem inLevel_append {levels levels' : List (List CompId)} {n : Nat} {c : CompId} :
    InLevel (levels ++ levels') n c ↔ n < levels.length ∧ InLevel levels n c ∨
        levels.length ≤ n ∧ InLevel levels' (n - levels.length) c := by
  unfold InLevel
  by_cases hn : n < levels.length
  · rw [getElem?_append_left hn]
    simp only [hn, true_and, Nat.not_le.mpr hn, false_and, or_false]
  · rw [getElem?_append_right (Nat.not_lt.mp hn)]
    simp only [hn, false_and, Nat.not_lt.mp hn, true_and, false_or]

theorem StandsAt.eq {levels : List (List CompId)} {c : CompId} {n now : Nat}
    (h : StandsAt levels c 0 0 now) (hn : ∀ m, InLevel levels m c ↔ m = n) : now = n := by
  rcases h with ⟨m, hm, -, rfl⟩ | ⟨hno, -⟩
  · rw [(hn m).mp hm, Nat.zero_add]
  · exact absurd ((hn n).mpr rfl) (hno n)

end Network

namespace Schedule

open Network

variable {net : Network} {s : State}

/-! ## The rounds -/

/-- The levels so far hold all heights below their number, and what is next is a candidate. -/
structure Rising (net : Network) (s : State) : Prop where
  levels : ∀ n c, InLevel s.levels.reverse n c ↔
    n < s.levels.length ∧ net.Regular c ∧ net.height c = n
  seen : ∀ c, c ∈ s.seen ↔ net.Regular c ∧ net.height c < s.levels.length
  some : 0 < s.levels.length
  fed : ∀ c ∈ s.candidates, net.inputsOf c ≠ []
  next : ∀ c, net.Regular c → net.height c = s.levels.length → c ∈ s.candidates

structure Risen (net : Network) (s : State) : Prop where
  levels : ∀ n c, InLevel s.levels.reverse n c ↔ net.Regular c ∧ net.height c = n
  seen : ∀ c, c ∈ s.seen ↔ net.Regular c
  below : ∀ c, net.Regular c → net.height c < s.levels.length

theorem Rising.risen (h : Rising net s) (hs : net.Schedulable)
    (hno : ∀ c, net.Regular c → net.height c ≠ s.levels.length) : Risen net s := by
  have hbelow : ∀ c, net.Regular c → net.height c < s.levels.length := by
    intro c hc
    by_contra hge
    obtain ⟨d, hd, hheight⟩ := hs.exists_of_le_height h.some hc (Nat.not_lt.mp hge)
    exact hno d hd hheight
  refine ⟨fun n c => (h.levels n c).trans ⟨fun hc => hc.2, fun hc => ⟨?_, hc⟩⟩, fun c =>
    (h.seen c).trans ⟨fun hc => hc.1, fun hc => ⟨hc, hbelow c hc⟩⟩, hbelow⟩
  rw [← hc.2]
  exact hbelow c hc.1

section

variable (h : Rising net s) (hs : net.Schedulable)
include h hs

/-- What a round finds is what has the next height. -/
theorem Rising.mem_ready_iff {r : Round}
    (hr : Sorting net (CompId.sortedSet net.legals ++ net.transitions) s.seen s.candidates [] r)
    (c : CompId) : c ∈ r.ready ↔ net.Regular c ∧ net.height c = s.levels.length := by
  constructor
  · intro hc
    obtain ⟨hcs, hseen, hlate, hin⟩ := hr.ready c hc
    have hfed := h.fed c hcs
    have hreg : net.Regular c := .inr ⟨hfed, fun hl => hlate (mem_late.mpr hl)⟩
    -- its highest input is scheduled, so it cannot be higher than the next level
    obtain ⟨i, hi, hheight⟩ := exists_height hs.balanced hs.acyclic hfed
    have hbelow := ((h.seen i).mp (hin i hi)).2
    have hnot : ¬ net.height c < s.levels.length := fun hlt => hseen ((h.seen c).mpr ⟨hreg, hlt⟩)
    exact ⟨hreg, by omega⟩
  · rintro ⟨hreg, hheight⟩
    refine (hr.found c (h.next c hreg hheight) ⟨fun hseen => ?_, fun hl => ?_, fun i hi => ?_⟩).resolve_right
      not_mem_nil
    · have hlt := ((h.seen c).mp hseen).2
      omega
    · exact hs.not_late hreg (mem_late.mp hl)
    · refine (h.seen i).mpr ⟨hs.regular_input hi, ?_⟩
      rw [← hheight]
      exact height_input hs.balanced hs.acyclic hi

theorem Rising.rise {level candidates : List CompId}
    (hlevel : ∀ c, c ∈ level ↔ net.Regular c ∧ net.height c = s.levels.length)
    (hfed : ∀ c ∈ level, ∀ o ∈ net.outputsOf c, o ∈ candidates)
    (hcand : ∀ c ∈ candidates, net.inputsOf c ≠ []) :
    Rising net ⟨level :: s.levels, level ++ s.seen, candidates⟩ where
  levels n c := by
    have hone : InLevel [level] (n - s.levels.length) c ↔ n - s.levels.length = 0 ∧ c ∈ level := by
      cases n - s.levels.length <;> simp [InLevel]
    rw [reverse_cons, inLevel_append, length_reverse, h.levels, hone, hlevel, length_cons]
    constructor
    · rintro (⟨hn, -, hc⟩ | ⟨hn, hz, hc⟩)
      · exact ⟨by omega, hc⟩
      · exact ⟨by omega, hc.1, by omega⟩
    rintro ⟨hn, hc, hheight⟩
    by_cases hlt : n < s.levels.length
    · exact .inl ⟨hlt, hlt, hc, hheight⟩
    · exact .inr ⟨by omega, by omega, hc, by omega⟩
  seen c := by
    rw [mem_append, hlevel, h.seen, length_cons]
    constructor
    · rintro (⟨hc, hheight⟩ | ⟨hc, hheight⟩)
      · exact ⟨hc, by omega⟩
      · exact ⟨hc, by omega⟩
    rintro ⟨hc, hheight⟩
    by_cases hlt : net.height c < s.levels.length
    · exact .inr ⟨hc, hlt⟩
    · exact .inl ⟨hc, by omega⟩
  some := Nat.succ_pos _
  fed := hcand
  next c hc hheight := by
    -- its highest input is in the new level and has put it among the candidates
    have hin : net.inputsOf c ≠ [] := fun hin => by
      rw [height_of_source hin, length_cons] at hheight
      omega
    obtain ⟨i, hi, hone⟩ := exists_height hs.balanced hs.acyclic hin
    rw [length_cons] at hheight
    exact hfed i ((hlevel i).mpr ⟨hs.regular_input hi, by omega⟩) c (hs.balanced.mem_iff.mpr hi)

theorem Rising.turn_silent :
    Observed.silent.holds (turn net (CompId.sortedSet net.legals ++ net.transitions) s) (Guarantee.Reaches
        (fun s' => Rising net s' ∧ unseen net s'.seen < unseen net s.seen) (Risen net)) := by
  unfold turn
  split
  · next hnil =>
    refine Observed.silent.pure (h.risen hs fun c hc hheight => ?_)
    have hmem := h.next c hc hheight
    rw [List.isEmpty_iff.mp hnil] at hmem
    cases hmem
  refine Observed.silent.bind (Observed.silent_lift
    (round_yields fun c hc => contains_of_fed (h.fed c hc))) fun r hr => ?_
  have hready := h.mem_ready_iff hs hr
  split
  · next hnone =>
    have hrisen : Risen net s := h.risen hs fun c hc hheight => by
      have hmem := (hready c).mpr ⟨hc, hheight⟩
      rw [List.isEmpty_iff.mp hnone] at hmem
      cases hmem
    -- what waits would be regular, and all of that is scheduled
    have hnil : r.candidates = [] := by
      refine eq_nil_iff_forall_not_mem.mpr fun c hc => ?_
      rcases hr.candidates c hc with ⟨d, hd, -⟩ | ⟨hcs, hseen, hlate, -⟩
      · rw [List.isEmpty_iff.mp hnone] at hd
        cases hd
      · exact hseen ((hrisen.seen c).mpr (.inr ⟨h.fed c hcs, fun hl => hlate (mem_late.mpr hl)⟩))
    rw [hnil]
    exact Observed.silent.pure hrisen
  · next hsome =>
    have hlevel : ∀ c, c ∈ CompId.sorted r.ready ↔
        net.Regular c ∧ net.height c = s.levels.length := fun c => CompId.mem_sorted.trans (hready c)
    refine Observed.silent.pure ⟨h.rise hs hlevel (fun c hc o ho => hr.fed c (CompId.mem_sorted.mp hc) o ho)
      fun c hc => ?_, ?_⟩
    · rcases hr.candidates c hc with ⟨d, -, hcd⟩ | ⟨hcs, -⟩
      · exact ne_nil_of_mem (hs.balanced.mem_iff.mp hcd)
      · exact h.fed c hcs
    · obtain ⟨c, hc⟩ := exists_mem_of_ne_nil r.ready fun hnil =>
        hsome (List.isEmpty_iff.mpr hnil)
      exact unseen_lt (CompId.mem_sorted.mpr hc) (hs.contains ((hready c).mp hc).1) (hr.ready c hc).2.1

end

theorem start_yields (hs : net.Schedulable) : (start net).Yields (Rising net) := by
  have hsource : ∀ c, c ∈ sources net ↔ net.IsSource c := fun c => mem_sources
  have hfed : ∀ c ∈ sources net, (do
      let k ← net.get c
      if !k.inputs.isEmpty then throw (net.invariant c .sourceDriven)
      return k.outputs : Checked (List CompId)) = .ok (net.outputsOf c) := by
    intro c hc
    obtain ⟨hlive, hin⟩ := hs.source c ((hsource c).mp hc)
    obtain ⟨k, hk⟩ := contains_iff.mp hlive
    rw [inputsOf_of_get? hk] at hin
    rw [get_of_get? hk, outputsOf_of_get? hk]
    change (do
      if (!k.inputs.isEmpty) = true then throw (net.invariant c .sourceDriven)
      return k.outputs : Checked (List CompId)) = _
    rw [hin]
    rfl
  have hzero : ∀ c, c ∈ sources net ↔ net.Regular c ∧ net.height c = 0 := fun c =>
    ⟨fun hc => ⟨.inl ((hsource c).mp hc), height_of_source (hs.source c ((hsource c).mp hc)).2⟩,
      fun hc => (hsource c).mpr ((hs.height_eq_zero_iff hc.1).mp hc.2)⟩
  have hmem : ∀ o, o ∈ ((sources net).map net.outputsOf).flatten ↔
      ∃ c ∈ sources net, o ∈ net.outputsOf c := by
    intro o
    rw [mem_flatten]
    simp only [mem_map, exists_exists_and_eq_and]
  unfold start
  refine .bind_ok (Checked.mapM_yields _ hfed) (.pure ⟨fun n c => ?_, fun c => ?_, Nat.one_pos,
    fun c hc => ?_, fun c hc hheight => (hmem c).mpr ?_⟩)
  · have hone : InLevel [sources net] n c ↔ n = 0 ∧ c ∈ sources net := by
      cases n <;> simp [InLevel]
    rw [reverse_singleton, hone, hzero, length_singleton]
    constructor
    · rintro ⟨rfl, hc⟩
      exact ⟨Nat.one_pos, hc⟩
    rintro ⟨hn, hc⟩
    obtain rfl : n = 0 := by omega
    exact ⟨rfl, hc⟩
  · rw [hzero, length_singleton, Nat.lt_one_iff]
  · obtain ⟨d, -, hcd⟩ := (hmem c).mp hc
    exact ne_nil_of_mem (hs.balanced.mem_iff.mp hcd)
  · have hin : net.inputsOf c ≠ [] := fun hin => by
      rw [height_of_source hin] at hheight
      cases hheight
    obtain ⟨i, hi, hone⟩ := exists_height hs.balanced hs.acyclic hin
    have hheight' : net.height c = 1 := hheight
    exact ⟨i, (hzero i).mpr ⟨hs.regular_input hi, by omega⟩, hs.balanced.mem_iff.mpr hi⟩

theorem Risen.contains (h : Risen net s) (hs : net.Schedulable) :
    ∀ level ∈ s.levels, ∀ c ∈ level, net.contains c := by
  intro level hlevel c hc
  obtain ⟨n, hn⟩ := mem_iff_getElem?.mp (mem_reverse.mpr hlevel)
  exact hs.contains ((h.levels n c).mp ⟨level, hn, hc⟩).1

/-- The levels in which a component is listed when all rounds are over. -/
theorem Complete.inLevel_iff (h : Risen net s) {levels : List (List CompId)}
    (hf : Complete net s levels) : ∃ goals : List CompId, (∀ c ∈ goals, ¬ net.Regular c ∧ ¬ net.IsLate c) ∧
      ∀ n c, InLevel levels n c ↔ net.Regular c ∧ net.height c = n ∨
        n = s.levels.length ∧ c ∈ net.transitions ∨
        n = s.levels.length + 1 ∧ c ∈ net.legals ∨ n = s.levels.length + 2 ∧ c ∈ goals := by
  obtain ⟨goals, rfl, hgoals⟩ := hf
  refine ⟨goals, fun c hc => ⟨fun hreg => (hgoals c hc).2.1 ((h.seen c).mpr hreg), (hgoals c hc).2.2⟩,
    fun n c => ?_⟩
  -- the number of the level among those that are added at the end
  have hlast : ∀ m, InLevel ([CompId.sorted net.transitions, CompId.sortedSet net.legals] ++
      (if goals.isEmpty then [] else [goals])) m c ↔
      m = 0 ∧ c ∈ net.transitions ∨ m = 1 ∧ c ∈ net.legals ∨ m = 2 ∧ c ∈ goals := by
    intro m
    rcases m with _ | _ | _ | m
    · simp [InLevel, CompId.mem_sorted]
    · simp [InLevel, CompId.mem_sortedSet]
    · cases goals <;> simp [InLevel]
    · cases goals <;> simp [InLevel]
  rw [append_assoc, inLevel_append, length_reverse, h.levels, hlast]
  constructor
  · rintro (⟨-, hc⟩ | ⟨hn, hc⟩)
    · exact .inl hc
    · rcases hc with ⟨hm, ht⟩ | ⟨hm, hl⟩ | ⟨hm, hg⟩
      · exact .inr (.inl ⟨by omega, ht⟩)
      · exact .inr (.inr (.inl ⟨by omega, hl⟩))
      · exact .inr (.inr (.inr ⟨by omega, hg⟩))
  · rintro (hc | ⟨rfl, ht⟩ | ⟨rfl, hl⟩ | ⟨rfl, hg⟩)
    · have hlt := h.below c hc.1
      exact .inl ⟨by omega, hc⟩
    · exact .inr ⟨by omega, .inl ⟨by omega, ht⟩⟩
    · exact .inr ⟨by omega, .inr (.inl ⟨by omega, hl⟩)⟩
    · exact .inr ⟨by omega, .inr (.inr ⟨by omega, hg⟩)⟩

theorem plan_silent (hs : net.Schedulable) : Observed.silent.holds (plan net) fun levels =>
    ∃ s, Risen net s ∧ Complete net s levels := by
  refine Observed.silent.bind (Observed.silent_lift (start_yields hs)) fun s hrise => ?_
  refine Observed.silent.bind (Observed.silent.run (Rising net) (fun s => unseen net s.seen) (Risen net)
    (fun s h => h.turn_silent hs) hrise (unseen_lt_allowance net _)) fun s hrisen => ?_
  refine Observed.silent_lift ((finish_holds Checked.total ?_).mono fun levels hf => ⟨s, hrisen, hf⟩)
  -- what has inputs and is not late has been scheduled, so nothing is left to complain about
  intro c k hk hseen hlate hi
  rw [← inputsOf_of_get? hk] at hi
  exact absurd ((hrisen.seen c).mpr (.inr ⟨hi, hlate⟩)) hseen

end Schedule

namespace Network

open Schedule

/-- Levels are as longest paths ask for: one more than the highest input, and legals and transitions
above everything that they read. -/
structure Leveled (net net' : Network) : Prop where
  relevels : Relevels net net'
  /-- what has inputs is listed once, where its level says -/
  once : ∀ c, net.inputsOf c ≠ [] → ∀ n, InLevel net'.levels n c ↔ n = net'.levelAt c
  longest : ∀ c, net.inputsOf c ≠ [] → ¬ net.IsLate c →
    (∀ i ∈ net.inputsOf c, net'.levelAt i < net'.levelAt c) ∧
      ∃ i ∈ net.inputsOf c, net'.levelAt c = net'.levelAt i + 1
  source : ∀ c, net.IsSource c → net'.levelAt c = 0
  late : ∃ n, (∀ t ∈ net.transitions, net'.levelAt t = n) ∧
    (∀ l ∈ net.legals, net'.levelAt l = n + 1) ∧
    ∀ c, net.IsLate c → ∀ i ∈ net.inputsOf c, net'.levelAt i < n

theorem leveled_of_risen {net net' : Network} {s : State} {levels : List (List CompId)}
    (hs : net.Schedulable) (h : Risen net s) (hf : Complete net s levels) (hr : Relevels net net')
    (hlevels : net'.levels = levels) (hat : ∀ c, net.contains c → StandsAt levels c 0 0 (net'.levelAt c)) :
    Leveled net net' := by
  obtain ⟨goals, hgoals, hlists⟩ := hf.inLevel_iff h
  -- each component that counts here is listed in one level only
  have hregular : ∀ c, net.Regular c → ∀ n, InLevel levels n c ↔ n = net.height c := by
    intro c hc n
    have hlate := hs.not_late hc
    rw [hlists]
    constructor
    · rintro (⟨-, hn⟩ | ⟨-, ht⟩ | ⟨-, hl⟩ | ⟨-, hg⟩)
      · exact hn.symm
      · exact absurd (.inr ht) hlate
      · exact absurd (.inl hl) hlate
      · exact absurd hc (hgoals c hg).1
    · exact fun hn => .inl ⟨hc, hn.symm⟩
  have htransition : ∀ t ∈ net.transitions, ∀ n, InLevel levels n t ↔ n = s.levels.length := by
    intro t ht n
    rw [hlists]
    constructor
    · rintro (⟨hreg, -⟩ | ⟨hn, -⟩ | ⟨-, hl⟩ | ⟨-, hg⟩)
      · exact absurd (.inr ht) (hs.not_late hreg)
      · exact hn
      · exact absurd ht (hs.distinct t hl)
      · exact absurd (.inr ht) (hgoals t hg).2
    · exact fun hn => .inr (.inl ⟨hn, ht⟩)
  have hlegal : ∀ l ∈ net.legals, ∀ n, InLevel levels n l ↔ n = s.levels.length + 1 := by
    intro l hl n
    rw [hlists]
    constructor
    · rintro (⟨hreg, -⟩ | ⟨-, ht⟩ | ⟨hn, -⟩ | ⟨-, hg⟩)
      · exact absurd (.inl hl) (hs.not_late hreg)
      · exact absurd ht (hs.distinct l hl)
      · exact hn
      · exact absurd (.inl hl) (hgoals l hg).2
    · exact fun hn => .inr (.inr (.inl ⟨hn, hl⟩))
  have hheight : ∀ c, net.Regular c → net'.levelAt c = net.height c := fun c hc =>
    (hat c (hs.contains hc)).eq (hregular c hc)
  have htlevel : ∀ t ∈ net.transitions, net'.levelAt t = s.levels.length := fun t ht =>
    (hat t (hs.late t (.inr ht)).1).eq (htransition t ht)
  have hllevel : ∀ l ∈ net.legals, net'.levelAt l = s.levels.length + 1 := fun l hl =>
    (hat l (hs.late l (.inl hl)).1).eq (hlegal l hl)
  refine ⟨hr, fun c hi n => ?_, fun c hi hlate => ⟨fun i hmem => ?_, ?_⟩, fun c hc => ?_,
    s.levels.length, htlevel, hllevel, fun c _ i hmem => ?_⟩
  · rw [hlevels]
    by_cases hlate : net.IsLate c
    · rcases hlate with hl | ht
      · rw [hllevel c hl]
        exact hlegal c hl n
      · rw [htlevel c ht]
        exact htransition c ht n
    · rw [hheight c (.inr ⟨hi, hlate⟩)]
      exact hregular c (.inr ⟨hi, hlate⟩) n
  · rw [hheight i (hs.regular_input hmem), hheight c (.inr ⟨hi, hlate⟩)]
    exact height_input hs.balanced hs.acyclic hmem
  · obtain ⟨i, hmem, hone⟩ := exists_height hs.balanced hs.acyclic hi
    exact ⟨i, hmem, by rw [hheight c (.inr ⟨hi, hlate⟩), hheight i (hs.regular_input hmem), hone]⟩
  · rw [hheight c (.inl hc)]
    exact height_of_source (hs.source c hc).2
  · have hreg := hs.regular_input hmem
    rw [hheight i hreg]
    exact h.below i hreg

/-- Scheduling a network without cycles says nothing and gives the levels of longest paths. Any network
whose references all lead somewhere is scheduled or left as it was. -/
theorem schedule_longest_paths (net : Network) (told : Array Event) :
    (net.Schedulable → ∃ net', net.schedule.outcome told = (.ok net', told) ∧ Leveled net net') ∧
    (net.Whole →
      (∃ net' told', net.schedule.outcome told = (.ok net', told') ∧
        net.scheduleInPlace told = (.ok (), net', told')) ∨
      ∃ e told', net.schedule.outcome told = (.error (.compile e), told') ∧
        net.scheduleInPlace told = (.error (.compile e), net, told')) := by
  refine ⟨fun hs => ?_, fun hw => schedule_decides hw told⟩
  obtain ⟨levels, hplan, s, hrisen, hf⟩ := plan_silent hs told
  obtain ⟨net', hset, hr, hlevels, hat⟩ :=
    setLevels_yields (hf.live (hrisen.contains hs) fun c hc => (hs.late c hc).1)
  refine ⟨net', ?_, leveled_of_risen hs hrisen hf hr hlevels hat⟩
  rw [schedule_eq, Observed.outcome_bind, hplan]
  change (net.setLevels levels, told) = _
  rw [hset]

theorem lamp_schedulable : lamp.Schedulable := by
  have hsource : ∀ c, lamp.IsSource c ↔ c = 0 ∨ c = 2 := by
    have hconst : ∀ c k, lamp.get? c = some k → k.op ≠ .constant := forall_components.mpr (by decide)
    intro c
    constructor
    · rintro (hc | hc | hc | hc)
      · exact .inl (mem_singleton.mp hc)
      · exact .inr (mem_singleton.mp hc)
      · cases hc
      · obtain ⟨k, hk, hop⟩ := Option.map_eq_some_iff.mp hc
        exact absurd hop (hconst c k hk)
    · rintro (rfl | rfl)
      · exact .inl mem_cons_self
      · exact .inr (.inl mem_cons_self)
  have hlate : ∀ c, lamp.IsLate c → c = 3 ∨ c = 1 := fun c hc =>
    hc.imp mem_singleton.mp mem_singleton.mp
  refine ⟨lamp_balanced, lamp_acyclic, fun c hc => ?_, fun c hc => ?_, fun c hi ho => ?_,
    fun c hc hl => ?_, by decide⟩
  · rcases (hsource c).mp hc with rfl | rfl <;> decide
  · rcases hlate c hc with rfl | rfl <;> decide
  · have hsupplied : ∀ c k, lamp.get? c = some k → k.inputs = [] → k.outputs ≠ [] → c = 0 ∨ c = 2 :=
      forall_components.mpr (by decide)
    obtain ⟨o, ho⟩ := exists_mem_of_ne_nil _ ho
    obtain ⟨k, hk⟩ := contains_iff.mp (contains_of_mem_outputsOf ho)
    rw [inputsOf_of_get? hk] at hi
    rw [outputsOf_of_get? hk] at ho
    exact (hsource c).mpr (hsupplied c k hk hi (ne_nil_of_mem ho))
  · rcases (hsource c).mp hc with rfl | rfl <;> rcases hlate _ hl with h | h <;> cases h

/-- The NOT of the lamp is at level 1, and the AND that reads it at level 2. With the OR for another base
the lamp cannot be scheduled and stays as it is. -/
theorem schedule_longest_paths_lamp :
    lamp.Schedulable ∧ (∃ net', lamp.schedule.outcome #[] = (.ok net', #[]) ∧
      net'.levelAt 7 = 1 ∧ net'.levelAt 6 = 2) ∧
    ({ lamp with bases := [0, 5] } : Network).Whole ∧
      ∃ e told, scheduleInPlace { lamp with bases := [0, 5] } #[] =
        (.error (.compile e), { lamp with bases := [0, 5] }, told) := by
  have hs := lamp_schedulable
  have hwhole : ({ lamp with bases := [0, 5] } : Network).Whole := by
    refine ⟨fun c o ho => lamp_balanced.contains_target ho, fun c hc => ?_,
      fun c hc => (hs.late c hc).1⟩
    rcases hc with hc | hc
    · rcases List.mem_pair.mp hc with rfl | rfl <;> decide
    · exact (hs.source c (.inr hc)).1
  refine ⟨hs, ?_, hwhole, ?_⟩
  · obtain ⟨net', hnet', h⟩ := (schedule_longest_paths lamp #[]).1 hs
    have h0 := h.source 0 (.inl List.mem_cons_self)
    have h2 := h.source 2 (.inr (.inl List.mem_cons_self))
    obtain ⟨-, i, hi, h7⟩ := h.longest 7 (by decide) (by decide)
    obtain ⟨hbelow, j, hj, h6⟩ := h.longest 6 (by decide) (by decide)
    have h76 := hbelow 7 (by decide)
    have hi : i = 0 := List.mem_singleton.mp hi
    subst hi
    have hj : j = 2 ∨ j = 7 := List.mem_pair.mp hj
    refine ⟨net', hnet', by omega, ?_⟩
    rcases hj with rfl | rfl <;> omega
  · rcases (schedule_longest_paths { lamp with bases := [0, 5] } #[]).2 hwhole with
      ⟨net', told', hok, -⟩ | ⟨e, told', -, hplace⟩
    · have hundriven := (schedule_ensures _ #[] net' (by rw [hok])).2
      have hfive := hundriven 5 (mem_sources.mpr (.inl (by decide)))
      cases hfive
    · exact ⟨e, told', hplace⟩

end Network

end GameNet
