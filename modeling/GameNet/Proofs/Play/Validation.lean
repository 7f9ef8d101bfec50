import GameNet.Play.Compare
import GameNet.Proofs.Circuit
import Mathlib.Data.List.Induction
import Mathlib.Data.List.Nodup
import Mathlib.Data.List.Perm.Basic

/-!
Validation does not depend on who is first.

Each worker has machines and random numbers of its own, so what it comes to is settled before it starts.
-/

namespace GameNet.Validation

open List

/-- Work for workers that draw from a generator `ρ`. Each may get machines of its own making. -/
structure Job (ρ : Type) where
  make : Nat → Checked (Machine × Machine)
  seed : UInt64
  games : Nat
  maxDepth : Nat

variable {ρ : Type}

def Job.outcome [Dice ρ] (j : Job ρ) (w : Nat) : Checked Nat := worker ρ j.make j.seed j.games j.maxDepth w

def Job.reports [Dice ρ] (j : Job ρ) (workers : Nat) : List Report :=
  (List.range workers).map fun w => (w, j.outcome w)

/-! ## The receiver -/

section Receiver

variable [Dice ρ] {j : Job ρ} {workers : Nat} {reports reports' : List Report}

theorem nodup_reports (j : Job ρ) (workers : Nat) : ((j.reports workers).map (·.1)).Nodup := by
  rw [Job.reports, map_map]
  have hid : ((·.1) ∘ fun w => (w, j.outcome w) : Nat → Nat) = id := rfl
  rw [hid, map_id]
  exact nodup_range

theorem mem_reports {w : Nat} {outcome : Checked Nat} :
    (w, outcome) ∈ j.reports workers ↔ w < workers ∧ outcome = j.outcome w := by
  rw [Job.reports, mem_map]
  constructor
  · rintro ⟨v, hv, heq⟩
    cases heq
    exact ⟨mem_range.mp hv, rfl⟩
  · rintro ⟨hw, rfl⟩
    exact ⟨w, mem_range.mpr hw, rfl⟩

theorem eq_of_ordered (hp : reports.Perm reports') (hd : (reports.map (·.1)).Nodup)
    (h : reports.Pairwise fun a b => decide (a.1 ≤ b.1))
    (h' : reports'.Pairwise fun a b => decide (a.1 ≤ b.1)) : reports = reports' := by
  refine List.Perm.eq_of_pairwise (fun a b ha hb hab hba => ?_) h h' hp
  exact inj_on_of_nodup_map hd ha (hp.mem_iff.mpr hb)
    (Nat.le_antisymm (of_decide_eq_true hab) (of_decide_eq_true hba))

theorem pairwise_ordered (reports : List Report) :
    (sortBy (fun a b => decide (a.1 ≤ b.1)) reports).Pairwise fun a b : Report => decide (a.1 ≤ b.1) :=
  pairwise_sortBy _ (fun a b c hab hbc => by simp only [decide_eq_true_eq] at *; omega)
    (fun a b => by simp only [decide_eq_true_eq]; omega) reports

theorem total_perm (hp : reports.Perm reports') (hd : (reports.map (·.1)).Nodup) :
    total reports = total reports' := by
  have hsort := eq_of_ordered ((sortBy_perm _ reports).trans (hp.trans (sortBy_perm _ reports').symm))
    (((sortBy_perm _ reports).map _).nodup_iff.mpr hd)
    (pairwise_ordered reports) (pairwise_ordered reports')
  rw [total, total, hsort, hp.any_eq]

/-- In the order of the workers, the first error decides. -/
theorem total_reports (j : Job ρ) (workers : Nat)
    (hcrash : ∀ w < workers, isCrash (j.outcome w) = false) : total (j.reports workers) =
      (List.range workers).foldlM (fun n w => do return n + (← j.outcome w)) 0 := by
  have hordered : (j.reports workers).Pairwise fun a b => decide (a.1 ≤ b.1) := by
    rw [Job.reports, pairwise_map]
    exact pairwise_lt_range.imp fun hlt => decide_eq_true (Nat.le_of_lt hlt)
  have hsort : sortBy (fun a b => decide (a.1 ≤ b.1)) (j.reports workers) = j.reports workers :=
    eq_of_ordered (sortBy_perm _ _) (((sortBy_perm _ _).map _).nodup_iff.mpr (nodup_reports j workers))
      (pairwise_ordered _) hordered
  have hnone : ((j.reports workers).any fun r => isCrash r.2) = false := by
    rw [any_eq_false]
    rintro ⟨w, outcome⟩ hw
    obtain ⟨hlt, rfl⟩ := mem_reports.mp hw
    rw [hcrash w hlt]
    exact Bool.false_ne_true
  rw [total, hnone, hsort, Job.reports, foldlM_map]
  rfl

theorem Job.eq_of_outcome {w n : Nat} (h : j.outcome w = .ok n) : n = j.games := by
  unfold Job.outcome worker at h
  cases hm : j.make w with
  | error e =>
    rw [hm] at h
    cases h
  | ok pair =>
    rw [hm] at h
    change ((Duel.compareGames j.maxDepth j.games
      ⟨pair.1, pair.2, Dice.ofSeed (j.seed + w.toUInt64)⟩).1 >>= fun _ => pure j.games) = _ at h
    cases hr : (Duel.compareGames (ρ := ρ) j.maxDepth j.games
      ⟨pair.1, pair.2, Dice.ofSeed (j.seed + w.toUInt64)⟩).1 with
    | error e =>
      rw [hr] at h
      cases h
    | ok u =>
      rw [hr] at h
      cases h
      rfl

theorem foldl_outcomes {ws : List Nat} (h : ∀ w ∈ ws, j.outcome w = .ok j.games) (n : Nat) :
    ws.foldlM (fun n w => do return n + (← j.outcome w)) n =
      (.ok (n + ws.length * j.games) : Checked Nat) := by
  induction ws generalizing n with
  | nil => exact congrArg Except.ok (by simp)
  | cons w ws ih =>
    rw [foldlM_cons, h w mem_cons_self]
    refine (ih (forall_mem_cons.mp h).2 (n + j.games)).trans (congrArg Except.ok ?_)
    rw [length_cons, Nat.succ_mul]
    omega

theorem Job.eq_ok_of_isOk {w : Nat} (h : (j.outcome w).isOk) : j.outcome w = .ok j.games := by
  cases ho : j.outcome w with
  | error e =>
    rw [ho] at h
    cases h
  | ok n => rw [Job.eq_of_outcome ho]

theorem total_of_ok (h : ∀ w < workers, (j.outcome w).isOk) :
    total (j.reports workers) = .ok (workers * j.games) := by
  have hok : ∀ w < workers, j.outcome w = .ok j.games := fun w hw => Job.eq_ok_of_isOk (h w hw)
  rw [total_reports j workers fun w hw => by rw [hok w hw]; rfl,
    foldl_outcomes (fun w hw => hok w (mem_range.mp hw)), length_range, Nat.zero_add]

theorem total_of_error {w : Nat} {e : Fault} (hw : w < workers) (he : j.outcome w = .error e)
    (hfirst : ∀ v < w, (j.outcome v).isOk) (hcrash : ∀ v < workers, isCrash (j.outcome v) = false) :
    total (j.reports workers) = .error e := by
  -- the workers before `w`, worker `w`, and the others, which no longer count
  obtain ⟨k, rfl⟩ : ∃ k, workers = w + (k + 1) := ⟨workers - w - 1, by omega⟩
  have hstop : ∀ (rest : List Nat) (n : Nat),
      (w :: rest).foldlM (fun n w => do return n + (← j.outcome w)) n = (.error e : Checked Nat) := by
    intro rest n
    rw [foldlM_cons, he]
    rfl
  rw [total_reports j _ hcrash, range_add, range_succ_eq_map, map_cons, Nat.add_zero,
    foldlM_append, foldl_outcomes fun v hv => Job.eq_ok_of_isOk (hfirst v (mem_range.mp hv))]
  exact hstop _ _

theorem total_of_crash (h : ∃ w < workers, isCrash (j.outcome w)) :
    total (j.reports workers) = .error (.crash .workerLost) := by
  obtain ⟨w, hw, hcrash⟩ := h
  exact if_pos (any_eq_true.mpr ⟨(w, j.outcome w), mem_reports.mpr ⟨hw, rfl⟩, hcrash⟩)

end Receiver

/-! ## The workers -/

inductive Stage (ρ : Type) where
  | starting
  | playing (duel : Duel ρ) (played : Nat)
  /-- there is an outcome, and nobody knows yet -/
  | ended (outcome : Checked Nat)
  | reported (outcome : Checked Nat)

namespace Stage

/-- What worker `w` does when it is its turn: it makes its machines, plays one more game, or reports. -/
def advance [Dice ρ] (j : Job ρ) (w : Nat) : Stage ρ → Stage ρ
  | .starting =>
    match j.make w with
    | .ok (first, second) => .playing ⟨first, second, Dice.ofSeed (j.seed + w.toUInt64)⟩ 0
    | .error e => .ended (.error e)
  | .playing duel played =>
    if played < j.games then
      match Duel.compare j.maxDepth duel with
      | (.ok _, duel) => .playing duel (played + 1)
      | (.error e, _) => .ended (.error e)
    else .ended (.ok played)
  | .ended outcome => .reported outcome
  | .reported outcome => .reported outcome

def sends (w : Nat) : Stage ρ → List Report
  | .ended outcome => [(w, outcome)]
  | _ => []

def outlook [Dice ρ] (j : Job ρ) (w : Nat) : Stage ρ → Checked Nat
  | .starting => j.outcome w
  | .playing duel played => do
    (Duel.compareGames j.maxDepth (j.games - played) duel).1
    return j.games
  | .ended outcome => outcome
  | .reported outcome => outcome

def work (j : Job ρ) : Stage ρ → Nat
  | .starting => j.games + 3
  | .playing _ played => j.games - played + 2
  | .ended _ => 1
  | .reported _ => 0

def InTime (j : Job ρ) : Stage ρ → Prop
  | .playing _ played => played ≤ j.games
  | _ => True

inductive Moves [Dice ρ] (j : Job ρ) (w : Nat) : Stage ρ → Stage ρ → Prop where
  | made {first second : Machine} (h : j.make w = .ok (first, second)) :
      Moves j w .starting (.playing ⟨first, second, Dice.ofSeed (j.seed + w.toUInt64)⟩ 0)
  | unmade {e : Fault} (h : j.make w = .error e) : Moves j w .starting (.ended (.error e))
  | played {duel duel' : Duel ρ} {played depth : Nat} (hlt : played < j.games)
      (h : Duel.compare j.maxDepth duel = (.ok depth, duel')) :
      Moves j w (.playing duel played) (.playing duel' (played + 1))
  | failed {duel duel' : Duel ρ} {played : Nat} {e : Fault} (hlt : played < j.games)
      (h : Duel.compare j.maxDepth duel = (.error e, duel')) :
      Moves j w (.playing duel played) (.ended (.error e))
  | done {duel : Duel ρ} {played : Nat} (hge : j.games ≤ played) :
      Moves j w (.playing duel played) (.ended (.ok played))
  | report {outcome : Checked Nat} : Moves j w (.ended outcome) (.reported outcome)
  | rest {outcome : Checked Nat} : Moves j w (.reported outcome) (.reported outcome)

variable {j : Job ρ} {w : Nat} {stage stage' : Stage ρ}

theorem eq_reported_of_work (h : stage.work j = 0) : ∃ outcome, stage = .reported outcome := by
  cases stage with
  | starting => cases h
  | playing duel played => cases h
  | ended outcome => cases h
  | reported outcome => exact ⟨outcome, rfl⟩

theorem mem_sends {v : Nat} {outcome : Checked Nat} :
    (v, outcome) ∈ stage.sends w ↔ v = w ∧ stage = .ended outcome := by
  cases stage <;> simp [sends, eq_comm]

variable [Dice ρ]

theorem moves_advance (j : Job ρ) (w : Nat) (stage : Stage ρ) : Moves j w stage (stage.advance j w) := by
  cases stage with
  | starting =>
    rw [advance]
    cases hm : j.make w with
    | ok pair => exact .made hm
    | error e => exact .unmade hm
  | playing duel played =>
    rw [advance]
    split
    · next hlt =>
      rcases hr : Duel.compare j.maxDepth duel with ⟨e | depth, duel'⟩
      · exact .failed hlt hr
      · exact .played hlt hr
    · next hge => exact .done (Nat.not_lt.mp hge)
  | ended outcome => exact .report
  | reported outcome => exact .rest

theorem Moves.work_le (h : Moves j w stage stage') : stage'.work j ≤ stage.work j - 1 := by
  cases h <;> simp only [work] <;> omega

theorem Moves.inTime (h : Moves j w stage stage') : stage.InTime j → stage'.InTime j := by
  cases h with
  | made => exact fun _ => Nat.zero_le _
  | played hlt => exact fun _ => hlt
  | _ => exact fun _ => trivial

theorem compareGames_of_ok {maxDepth games depth : Nat} {duel duel' : Duel ρ}
    (h : Duel.compare maxDepth duel = (.ok depth, duel')) :
    (Duel.compareGames maxDepth (games + 1) duel).1 = (Duel.compareGames maxDepth games duel').1 := by
  simp only [Duel.compareGames, discard, Functor.discard, Functor.mapConst, ExceptT.map, bind,
    ExceptT.bind, ExceptT.mk, StateT.bind, Function.comp, h]
  rfl

theorem compareGames_of_error {maxDepth games : Nat} {duel duel' : Duel ρ} {e : Fault}
    (h : Duel.compare maxDepth duel = (.error e, duel')) :
    (Duel.compareGames maxDepth (games + 1) duel).1 = .error e := by
  simp only [Duel.compareGames, discard, Functor.discard, Functor.mapConst, ExceptT.map, bind,
    ExceptT.bind, ExceptT.mk, StateT.bind, Function.comp, h]
  rfl

/-- A turn does not change what the worker will come to. -/
theorem Moves.outlook_eq (h : Moves j w stage stage') (hin : stage.InTime j) :
    stage'.outlook j w = stage.outlook j w := by
  cases h with
  | made hm =>
    rw [outlook, outlook, Job.outcome, worker, hm, Nat.sub_zero]
    rfl
  | unmade hm =>
    rw [outlook, outlook, Job.outcome, worker, hm]
    rfl
  | @played duel duel' played depth hlt hr =>
    have hleft : j.games - played = j.games - (played + 1) + 1 := by omega
    rw [outlook, outlook, hleft, compareGames_of_ok hr]
  | @failed duel duel' played e hlt hr =>
    have hleft : j.games - played = j.games - (played + 1) + 1 := by omega
    rw [outlook, outlook, hleft, compareGames_of_error hr]
    rfl
  | @done duel played hge =>
    -- the games that were played are those that were asked for
    have hall : played = j.games := Nat.le_antisymm hin hge
    rw [outlook, outlook, hall, Nat.sub_self]
    rfl
  | report => rfl
  | rest => rfl

theorem Moves.eq_reported_iff (h : Moves j w stage stage') {outcome : Checked Nat} :
    stage' = .reported outcome ↔ stage = .ended outcome ∨ stage = .reported outcome := by
  cases h <;> simp

end Stage

/-! ## All workers together -/

structure Pool (ρ : Type) where
  stages : List (Stage ρ)
  arrived : List Report := []

namespace Pool

def start (workers : Nat) : Pool ρ := { stages := List.replicate workers .starting }

def step [Dice ρ] (j : Job ρ) (p : Pool ρ) (w : Nat) : Pool ρ :=
  match p.stages[w]? with
  | none => p
  | some stage => ⟨p.stages.set w (stage.advance j w), p.arrived ++ stage.sends w⟩

def run [Dice ρ] (j : Job ρ) (workers : Nat) (schedule : List Nat) : Pool ρ :=
  schedule.foldl (step j) (start workers)

def Over (p : Pool ρ) : Prop := ∀ stage ∈ p.stages, ∃ outcome, stage = .reported outcome

structure OnTrack [Dice ρ] (j : Job ρ) (workers : Nat) (p : Pool ρ) : Prop where
  size : p.stages.length = workers
  outlook : ∀ w stage, p.stages[w]? = some stage →
    stage.InTime j ∧ stage.outlook j w = j.outcome w
  arrived : ∀ w outcome, (w, outcome) ∈ p.arrived ↔ p.stages[w]? = some (.reported outcome)
  once : (p.arrived.map (·.1)).Nodup

variable {j : Job ρ} {workers : Nat} {p : Pool ρ}

theorem stages_start {w : Nat} {stage : Stage ρ} (h : (start workers).stages[w]? = some stage) :
    stage = .starting := eq_of_mem_replicate (mem_of_getElem? h)

variable [Dice ρ]

theorem onTrack_start (j : Job ρ) (workers : Nat) : OnTrack j workers (start workers) where
  size := length_replicate
  outlook w stage h := by
    rw [stages_start h]
    exact ⟨trivial, rfl⟩
  arrived w outcome := by
    refine ⟨fun h => absurd h not_mem_nil, fun h => ?_⟩
    cases stages_start h
  once := nodup_nil

theorem step_of_some {w : Nat} {stage : Stage ρ} (h : p.stages[w]? = some stage) :
    p.step j w = ⟨p.stages.set w (stage.advance j w), p.arrived ++ stage.sends w⟩ := by
  rw [step, h]

theorem step_of_none {w : Nat} (h : p.stages[w]? = none) : p.step j w = p := by
  rw [step, h]

theorem stages_step {w v : Nat} {stage stage' : Stage ρ} (h : p.stages[w]? = some stage)
    (h' : (p.step j w).stages[v]? = some stage') :
    v = w ∧ stage' = stage.advance j w ∨ v ≠ w ∧ p.stages[v]? = some stage' := by
  rw [step_of_some h] at h'
  by_cases hv : v = w
  · subst hv
    rw [getElem?_set_self (List.getElem?_eq_some_iff.mp h).1] at h'
    exact .inl ⟨rfl, (Option.some.inj h').symm⟩
  · rw [getElem?_set_ne (Ne.symm hv)] at h'
    exact .inr ⟨hv, h'⟩

theorem OnTrack.step (h : OnTrack j workers p) (w : Nat) : OnTrack j workers (p.step j w) := by
  cases hs : p.stages[w]? with
  | none => rwa [step_of_none hs]
  | some stage =>
    have hw := (List.getElem?_eq_some_iff.mp hs).1
    have hmoves := stage.moves_advance j w
    obtain ⟨hin, hout⟩ := h.outlook w stage hs
    refine ⟨?_, fun v stage' hv => ?_, fun v outcome => ?_, ?_⟩
    · rw [step_of_some hs, length_set]
      exact h.size
    · rcases stages_step hs hv with ⟨rfl, rfl⟩ | ⟨-, hv⟩
      · exact ⟨hmoves.inTime hin, (hmoves.outlook_eq hin).trans hout⟩
      · exact h.outlook v stage' hv
    · -- a report arrives in the turn that ends in `reported`
      rw [step_of_some hs, mem_append, h.arrived, Stage.mem_sends]
      by_cases hv : v = w
      · subst hv
        rw [getElem?_set_self hw, Option.some.injEq, hmoves.eq_reported_iff, hs, Option.some.injEq, or_comm]
        exact or_congr_left (and_iff_right rfl)
      · rw [getElem?_set_ne (Ne.symm hv)]
        exact or_iff_left fun hvw => hv hvw.1
    · rw [step_of_some hs, map_append, nodup_append]
      refine ⟨h.once, ?_, fun a ha b hb hab => ?_⟩
      · cases stage <;> simp [Stage.sends]
      -- a worker that is about to report has not reported yet
      obtain ⟨⟨v, outcome⟩, hmem, rfl⟩ := mem_map.mp ha
      obtain ⟨⟨v', outcome'⟩, hmem', rfl⟩ := mem_map.mp hb
      obtain ⟨hv', hended⟩ := Stage.mem_sends.mp hmem'
      have hrep := (h.arrived v outcome).mp hmem
      have hvw : v = w := hab.trans hv'
      rw [hvw, hs, hended] at hrep
      cases hrep

theorem run_append (j : Job ρ) (workers : Nat) (schedule : List Nat) (w : Nat) :
    run j workers (schedule ++ [w]) = (run j workers schedule).step j w := by
  rw [run, foldl_append]
  rfl

theorem onTrack_run (j : Job ρ) (workers : Nat) (schedule : List Nat) :
    OnTrack j workers (run j workers schedule) := by
  induction schedule using List.reverseRecOn with
  | nil => exact onTrack_start j workers
  | append_singleton schedule w ih =>
    rw [run_append]
    exact ih.step w

theorem work_run (j : Job ρ) (workers : Nat) (schedule : List Nat) {w : Nat} {stage : Stage ρ}
    (h : (run j workers schedule).stages[w]? = some stage) :
    stage.work j ≤ j.games + 3 - schedule.count w := by
  induction schedule using List.reverseRecOn generalizing w stage with
  | nil =>
    rw [stages_start h]
    exact Nat.le_refl _
  | append_singleton schedule v ih =>
    rw [run_append] at h
    rw [count_append, count_singleton]
    cases hs : (run j workers schedule).stages[v]? with
    | none =>
      -- there is no such worker, so nobody moves
      rw [step_of_none hs] at h
      have hne : v ≠ w := by
        rintro rfl
        rw [hs] at h
        cases h
      have hwork := ih h
      simpa [hne] using hwork
    | some old =>
      rcases stages_step hs h with ⟨rfl, rfl⟩ | ⟨hne, h⟩
      · have hold := ih hs
        have hmove := (old.moves_advance j w).work_le
        simp only [beq_self_eq_true, if_true]
        omega
      · have hwork := ih h
        simpa [Ne.symm hne] using hwork

theorem over_of_count {schedule : List Nat} (h : ∀ w < workers, j.games + 3 ≤ schedule.count w) :
    (run j workers schedule).Over := by
  intro stage hstage
  obtain ⟨w, hw⟩ := mem_iff_getElem?.mp hstage
  have hlt : w < workers := by
    rw [← (onTrack_run j workers schedule).size]
    exact (List.getElem?_eq_some_iff.mp hw).1
  have hwork := work_run j workers schedule hw
  have hcount := h w hlt
  exact Stage.eq_reported_of_work (j := j) (by omega)

/-- When all is over, the reports of all workers have arrived in some order. -/
theorem OnTrack.arrived_perm (h : OnTrack j workers p) (hover : p.Over) :
    p.arrived.Perm (j.reports workers) := by
  refine (perm_ext_iff_of_nodup h.once.of_map (nodup_reports j workers).of_map).mpr ?_
  rintro ⟨w, outcome⟩
  rw [h.arrived, mem_reports]
  constructor
  · intro hw
    refine ⟨?_, (h.outlook w _ hw).2⟩
    rw [← h.size]
    exact (List.getElem?_eq_some_iff.mp hw).1
  rintro ⟨hlt, rfl⟩
  rw [← h.size] at hlt
  have hw := getElem?_eq_getElem hlt
  obtain ⟨outcome, hrep⟩ := hover _ (getElem_mem hlt)
  rw [hrep] at hw
  have hout := (h.outlook w _ hw).2
  rw [hw, ← hout]
  rfl

end Pool

/-- However the workers of a validation take their turns, the result is the same. It is the number of all
games, or else the error of the first worker that fails, and every worker plays its games one after another
with random numbers from the seed that is advanced by its own number. -/
theorem validate_of_schedule [Dice ρ] (j : Job ρ) (workers : Nat) :
    (∀ schedule, (∀ w < workers, j.games + 3 ≤ schedule.count w) →
      (Pool.run j workers schedule).Over) ∧
    (∀ schedule, (Pool.run j workers schedule).Over →
      total (Pool.run j workers schedule).arrived =
        validateEach ρ j.make j.seed workers j.games j.maxDepth) ∧
    (∀ reports : List Report, reports.Perm (j.reports workers) →
      total reports = validateEach ρ j.make j.seed workers j.games j.maxDepth) ∧
    ((∀ w < workers, (j.outcome w).isOk = true) →
      validateEach ρ j.make j.seed workers j.games j.maxDepth = .ok (workers * j.games)) ∧
    (∀ w < workers, ∀ e, j.outcome w = .error e → (∀ v < w, (j.outcome v).isOk = true) →
      (∀ v < workers, isCrash (j.outcome v) = false) →
      validateEach ρ j.make j.seed workers j.games j.maxDepth = .error e) ∧
    ((∃ w < workers, isCrash (j.outcome w) = true) →
      validateEach ρ j.make j.seed workers j.games j.maxDepth = .error (.crash .workerLost)) ∧
    ∀ w, j.outcome w = (do
      let (first, second) ← j.make w
      (Duel.compareGames (ρ := ρ) j.maxDepth j.games
        ⟨first, second, Dice.ofSeed (UInt64.ofNat ((j.seed.toNat + w) % UInt64.size))⟩).1
      return j.games) := by
  have hperm : ∀ reports : List Report, reports.Perm (j.reports workers) →
      total reports = total (j.reports workers) := fun reports hp =>
    (total_perm hp.symm (nodup_reports j workers)).symm
  refine ⟨fun _ => Pool.over_of_count, fun schedule hover => ?_, hperm, total_of_ok,
    fun w hw e he hfirst hcrash => total_of_error hw he hfirst hcrash, total_of_crash, fun w => ?_⟩
  · exact hperm _ ((Pool.onTrack_run j workers schedule).arrived_perm hover)
  · have hseed : j.seed + w.toUInt64 = UInt64.ofNat ((j.seed.toNat + w) % UInt64.size) := by
      rw [← UInt64.toNat_inj, UInt64.toNat_add, UInt64.toNat_ofNat']
      simp
    rw [← hseed]
    rfl

def lampJob : Job Generator where
  make _ := do
    let first ← SingleMachine.new Network.lamp .depthFirst
    let second ← SingleMachine.new Network.lamp .byLevel
    return (.single first, .single second)
  seed := 18446744073709551615
  games := 2
  maxDepth := 10

/-- The second worker is done before the first one starts. -/
theorem validate_of_schedule_lamp :
    (Pool.run lampJob 2 [1, 1, 1, 1, 1, 0, 0, 0, 0, 0]).arrived.map (·.1) = [1, 0] ∧
      (∀ w < 2, (lampJob.outcome w).isOk = true) ∧
      total (Pool.run lampJob 2 [1, 1, 1, 1, 1, 0, 0, 0, 0, 0]).arrived = .ok 4 ∧
      validate (lampJob.make 0) lampJob.seed 2 lampJob.games lampJob.maxDepth = .ok 4 := by
  have hok : ∀ w < 2, (lampJob.outcome w).isOk = true := by decide +kernel
  obtain ⟨hover, hsame, -, hall, -⟩ := validate_of_schedule lampJob 2
  refine ⟨by decide +kernel, hok, ?_, hall hok⟩
  rw [hsame _ (hover _ (by decide)), hall hok]
  rfl

end GameNet.Validation
