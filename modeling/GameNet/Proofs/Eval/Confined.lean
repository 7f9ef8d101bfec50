import GameNet.Machine.Single
import GameNet.Proofs.Eval.Levels

/-!
What a change does not reach.
-/

namespace GameNet

open List

namespace Network

def Encloses (net : Network) (reached : CompId → Prop) : Prop :=
  ∀ a, reached a → ∀ b ∈ net.outputsOf a, reached b

structure RecountsIn (net : Network) (reached : CompId → Prop) (net' : Network) : Prop where
  recounts : Recounts net net'
  same : ∀ c, ¬ reached c → net'.countAt c = net.countAt c

section RecountsIn

variable {net net' net'' : Network} {reached : CompId → Prop}

theorem RecountsIn.refl (net : Network) (reached : CompId → Prop) : RecountsIn net reached net :=
  ⟨.refl net, fun _ _ => rfl⟩

theorem RecountsIn.trans (h : RecountsIn net reached net') (h' : RecountsIn net' reached net'') :
    RecountsIn net reached net'' :=
  ⟨h.recounts.trans h'.recounts, fun c hc => (h'.same c hc).trans (h.same c hc)⟩

theorem recountsIn_recount1 {c : CompId} (hc : reached c) (n : Int) :
    RecountsIn net reached (net.recount1 c n) := by
  refine ⟨recounts_recount1 net c n, fun d hd => ?_⟩
  have hne : d ≠ c := by
    rintro rfl
    exact hd hc
  rw [countAt, get?_recount1_of_ne hne]
  rfl

theorem Encloses.recounts (h : net.Encloses reached) (hr : Recounts net net') :
    net'.Encloses reached := fun a ha b hb => h a ha b (by rwa [hr.outputsOf] at hb)

theorem RecountsIn.valueAt_eq (h : RecountsIn net reached net') {c : CompId} (hc : ¬ reached c) :
    net'.valueAt c = net.valueAt c :=
  h.recounts.valueAt_eq (h.same c hc)

end RecountsIn

end Network

/-! ## Depth first -/

namespace Forward

open Network

structure Confined (net₀ : Network) (reached : CompId → Prop) (s : Network × List Flip) : Prop where
  within : RecountsIn net₀ reached s.1
  ahead : ∀ f ∈ s.2, ∀ o ∈ net₀.outputsOf f.1, reached o

section Confined

variable {net₀ : Network} {reached : CompId → Prop}

theorem Confined.touch {s : Network × List Flip} (h : Confined net₀ reached s)
    (hclosed : net₀.Encloses reached) {o : CompId} (ho : reached o) (d : Int) :
    (Forward.touch d s o).Ensures (Confined net₀ reached) := by
  obtain ⟨net, stack⟩ := s
  unfold Forward.touch
  refine .bind (fun k hk => get?_of_get hk) fun k hk => ?_
  have hnet : (net.modify o fun _ => { k with count := k.wrap (k.count + d) }) =
      net.recount1 o (k.wrap (k.count + d)) := modify_eq_recount1 hk rfl
  dsimp only
  rw [hnet]
  have hin := h.within.trans (recountsIn_recount1 ho (k.wrap (k.count + d)))
  split
  · refine .pure ⟨hin, fun f hf => ?_⟩
    rcases mem_cons.mp hf with rfl | hf
    · exact hclosed o ho
    · exact h.ahead f hf
  · exact .pure ⟨hin, h.ahead⟩

end Confined

end Forward

namespace Network

open Forward

section Forward

variable {net : Network} {reached : CompId → Prop} {c : CompId}

theorem forward_ensures {d : Int} (hclosed : net.Encloses reached) (hc : ∀ b ∈ net.outputsOf c, reached b) :
    (net.forward c d).Ensures fun r => RecountsIn net reached r.1 := by
  refine Checked.partly.run_of_exhausted
    (fun s : Forward.State => Confined net reached (s.net, s.stack)) _ (fun s hs => ?_)
    .throw ⟨.refl net reached, fun f hf => ?_⟩
  · obtain ⟨cur, stack, traffic⟩ := s
    cases stack with
    | nil => exact .pure hs.within
    | cons f stack =>
      obtain ⟨a, delta⟩ := f
      unfold Forward.turn
      refine .bind (fun k hk => get?_of_get hk) fun k hk => ?_
      have hout : net.outputsOf a = k.outputs := by
        rw [← hs.within.recounts.outputsOf, outputsOf_of_get? hk]
      refine .bind (Checked.partly.foldlM
        (fun rest s => (∀ o ∈ rest, reached o) ∧ Confined net reached s) (fun o rest s h => ?_)
        k.outputs (cur, stack) ⟨fun o ho => ?_, hs.within, fun f hf => ?_⟩)
        fun r hr => .pure hr.2
      · refine (h.2.touch hclosed (h.1 o mem_cons_self) delta).mono
          fun s' hs' => ⟨fun p hp => h.1 p (mem_cons_of_mem _ hp), hs'⟩
      · exact hs.ahead _ mem_cons_self o (hout ▸ ho)
      · exact hs.ahead f (mem_cons_of_mem _ hf)
  · rw [mem_singleton.mp hf]
    exact hc

theorem propagate_within {value : Bool} (hclosed : net.Encloses reached) (hc : reached c) :
    (net.propagate c value).Ensures fun r => RecountsIn net reached r.1 := by
  unfold propagate
  refine .bind (P := fun _ => True) (fun _ _ => trivial) fun k _ => ?_
  split
  · exact .pure (.refl net reached)
  have hr : RecountsIn net reached (net.recount1 c (countOf value)) := recountsIn_recount1 hc _
  have hclosed' := hclosed.recounts hr.recounts
  exact .bind (forward_ensures hclosed' (hclosed' c hc)) fun r hr' => .pure (hr.trans hr')

theorem propagate_recounts (net : Network) (c : CompId) (value : Bool) :
    (net.propagate c value).Ensures fun r => Recounts net r.1 :=
  (propagate_within (show net.Encloses fun _ => True from fun _ _ _ _ => trivial) trivial).mono
    fun _ hr => hr.recounts

theorem propagate_ensures {value : Bool} (hb : net.Balanced) (ha : net.Acyclic) :
    (net.propagate c value).Ensures fun r => Recounts net r.1 ∧ r.1.countAt c = countOf value ∧
      ∀ d, d ≠ c → net.inputsOf d = [] → r.1.countAt d = net.countAt d := by
  unfold propagate
  refine .bind (fun k hk => get?_of_get hk) fun k hk => ?_
  split
  · next hsame => exact .pure ⟨.refl net, (countAt_of_get? hk).trans hsame, fun _ _ _ => rfl⟩
  have hr : Recounts net (net.recount1 c (countOf value)) := recounts_recount1 net c _
  have hdown : ∀ a b, b ∈ (net.recount1 c (countOf value)).outputsOf a → net.Feeds a b :=
    fun a b ho => hb.mem_iff.mp ((hr.outputsOf a).symm ▸ ho)
  refine .bind (P := fun r =>
      RecountsIn (net.recount1 c (countOf value)) (Relation.TransGen net.Feeds c) r.1)
    (forward_ensures (fun a ha b ho => ha.tail (hdown a b ho)) fun b ho => .single (hdown c b ho))
    fun r hr' => .pure ⟨hr.trans hr'.recounts, ?_, fun d hd hi => ?_⟩
  · rw [hr'.same c (ha c), countAt, get?_recount1_self hk]
    rfl
  have hnot : ¬ Relation.TransGen net.Feeds c d := by
    intro hcd
    obtain ⟨a, -, had⟩ := Relation.TransGen.tail'_iff.mp hcd
    rw [Feeds, hi] at had
    cases had
  rw [hr'.same d hnot, countAt, get?_recount1_of_ne hd]
  rfl

end Forward

end Network

/-! ## Level by level -/

namespace Levels

open Network Forward

def QueuedIn (lv : Levels) (reached : CompId → Prop) : Prop :=
  ∀ queued ∈ lv.pending, ∀ f ∈ queued, reached f.1

section Queued

variable {net : Network} {lv : Levels} {reached : CompId → Prop}

theorem Idle.queuedIn (h : lv.Idle) (reached : CompId → Prop) : lv.QueuedIn reached := by
  intro queued hq f hf
  rw [h queued hq] at hf
  exact absurd hf (Array.not_mem_empty f)

theorem QueuedIn.queue (h : lv.QueuedIn reached) {c : CompId} (hc : reached c) (level : Nat)
    (delta : Int) : (lv.queue level c delta).QueuedIn reached := by
  have hpad : ∀ queued ∈ lv.pending ++ Array.replicate (level + 1 - lv.pending.size) #[],
      ∀ f ∈ queued, reached f.1 := by
    intro queued hq f hf
    rcases Array.mem_append.mp hq with hq | hq
    · exact h queued hq f hf
    · rw [(Array.mem_replicate.mp hq).2] at hf
      exact absurd hf (Array.not_mem_empty f)
  intro queued hq f hf
  obtain ⟨i, hi⟩ := Array.mem_iff_getElem?.mp hq
  rw [Levels.queue, Array.getElem?_modify] at hi
  split at hi
  · obtain ⟨before, hbefore, rfl⟩ := Option.map_eq_some_iff.mp hi
    rcases Array.mem_push.mp hf with hf | rfl
    · exact hpad before (Array.mem_of_getElem? hbefore) f hf
    · exact hc
  · exact hpad queued (Array.mem_of_getElem? hi) f hf

theorem QueuedIn.set (h : lv.QueuedIn reached) {c : CompId} (hc : reached c) (value : Bool) :
    (lv.set net c value).Ensures fun lv' => lv'.QueuedIn reached := by
  unfold Levels.set
  refine .bind (P := fun _ => True) (fun _ _ => trivial) fun k _ => ?_
  dsimp only
  split
  · exact .pure h
  · exact .pure (h.queue hc _ _)

structure Confined (net₀ : Network) (reached : CompId → Prop) (s : State) : Prop where
  within : RecountsIn net₀ reached s.net
  queued : s.levels.QueuedIn reached

theorem Confined.apply {s : State} (h : Confined net reached s) (hclosed : net.Encloses reached)
    {c : CompId} (hc : reached c) (delta : Int) :
    (Levels.apply s c delta).Ensures (Confined net reached) := by
  obtain ⟨cur, levels, level, applied⟩ := s
  unfold Levels.apply
  refine .bind (fun k hk => get?_of_get hk) fun k hk => ?_
  have hnet : (cur.modify c fun _ => { k with count := k.wrap (k.count + delta) }) =
      cur.recount1 c (k.wrap (k.count + delta)) := modify_eq_recount1 hk rfl
  dsimp only
  rw [hnet]
  have hin := h.within.trans (recountsIn_recount1 hc (k.wrap (k.count + delta)))
  have hout : ∀ o ∈ k.outputs, reached o := fun o ho => by
    refine hclosed c hc o ?_
    rwa [← h.within.recounts.outputsOf, outputsOf_of_get? hk]
  split
  · refine .bind (Checked.partly.foldlM
      (fun rest (lv : Levels) => (∀ o ∈ rest, reached o) ∧ lv.QueuedIn reached)
      (fun o rest lv hl => ?_) k.outputs levels ⟨hout, h.queued⟩) fun lv hlv => .pure ⟨hin, hlv.2⟩
    refine .bind (P := fun _ => True) (fun _ _ => trivial) fun _ _ => .pure ?_
    exact ⟨fun p hp => hl.1 p (mem_cons_of_mem _ hp), hl.2.queue (hl.1 o mem_cons_self) _ _⟩
  · exact .pure ⟨hin, h.queued⟩

theorem QueuedIn.run (h : lv.QueuedIn reached) (hclosed : net.Encloses reached) :
    (lv.run net).Ensures fun r => RecountsIn net reached r.1 := by
  refine Checked.partly.run_of_exhausted (Confined net reached) _ (fun s hs => ?_) .throw
    ⟨.refl net reached, h⟩
  unfold Levels.turn
  split
  · exact .pure hs.within
  next queued hq =>
  split
  · next c delta hf =>
    refine .bind (hs.apply hclosed ?_ delta) fun s' hs' => .pure hs'
    exact hs.queued queued (Array.mem_of_getElem? hq) _ (Array.mem_of_getElem? hf)
  refine .pure ⟨hs.within, fun later hl f hf => ?_⟩
  obtain ⟨i, hi⟩ := Array.mem_iff_getElem?.mp hl
  rw [Array.getElem?_modify] at hi
  split at hi
  · obtain ⟨_, -, rfl⟩ := Option.map_eq_some_iff.mp hi
    exact absurd hf (Array.not_mem_empty f)
  · exact hs.queued later (Array.mem_of_getElem? hi) f hf

end Queued

end Levels

/-! ## Machines -/

namespace SingleMachine

open Network

variable {m : SingleMachine} {reached : CompId → Prop}

theorem setDepthFirst_within (hclosed : m.net.Encloses reached) {c : CompId} (hc : reached c)
    (value : Bool) : (m.setDepthFirst c value).Ensures fun m' => RecountsIn m.net reached m'.net := by
  obtain ⟨net, strategy, levels, log⟩ := m
  cases log with
  | none => exact .bind (propagate_within hclosed hc) fun r hr => .pure hr
  | some log =>
    refine .bind (P := fun r => RecountsIn net reached r.1) ?_ fun r hr => .pure hr
    refine .bind (propagate_within hclosed hc) fun r hr => ?_
    obtain ⟨net', _ | traffic⟩ := r
    · exact .pure hr
    · exact .pure hr

theorem setMany_within {values : List (CompId × Bool)} (hclosed : m.net.Encloses reached)
    (hidle : m.levels.Idle) (hv : ∀ x ∈ values, reached x.1) :
    (m.setMany values).Ensures fun m' => RecountsIn m.net reached m'.net := by
  unfold SingleMachine.setMany
  split
  · refine (Checked.partly.foldlM
      (fun rest m' => (∀ x ∈ rest, reached x.1) ∧ RecountsIn m.net reached m'.net)
      (fun x rest m' h => ?_) values m ⟨hv, .refl m.net reached⟩).mono fun _ hr => hr.2
    refine (setDepthFirst_within (hclosed.recounts h.2.recounts) (h.1 x mem_cons_self) x.2).mono
      fun m'' hr => ⟨fun y hy => h.1 y (mem_cons_of_mem _ hy), h.2.trans hr⟩
  obtain ⟨net, strategy, levels, log⟩ := m
  refine .bind (P := fun lv : Levels => lv.QueuedIn reached) ?_ fun lv hlv =>
    .bind (hlv.run hclosed) fun r hr => .pure hr
  refine (Checked.partly.foldlM
    (fun rest lv => (∀ x ∈ rest, reached x.1) ∧ lv.QueuedIn reached) (fun x rest lv h => ?_)
    values levels ⟨hv, hidle.queuedIn reached⟩).mono fun _ hr => hr.2
  exact (h.2.set (h.1 x mem_cons_self) x.2).mono
    fun lv' hr => ⟨fun y hy => h.1 y (mem_cons_of_mem _ hy), hr⟩

end SingleMachine

end GameNet
