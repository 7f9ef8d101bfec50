import GameNet.Proofs.Variants.Basic

/-!
The network without goals, and the one that has nothing else.

A machine over the first plays like one over the network that both were made from, and reads its goals from
the second.
-/

namespace GameNet

open List

namespace Network

/-! ## Other players -/

section Players

variable {keep : CompId → Prop} {net net' : Network}

theorem Sound.withPlayers (h : Sound keep net net') (ps : List Player) :
    Sound keep { net with players := ps } { net' with players := ps } where
  parts := congrArg (fun net : Network => { net with players := ps }) h.parts
  capacity := h.capacity
  face := h.face
  fresh := h.fresh
  leaf := h.leaf
  fed := h.fed
  narrow := h.narrow
  unread := h.unread
  values := h.values
  balanced := h.balanced
  acyclic := h.acyclic
  keeps := h.keeps

theorem Sound.survivors (h : Sound keep net net') : Sound (net'.contains ·) net net' :=
  { h with keeps := fun _ hc _ => hc }

end Players

/-! ## Without goals -/

section Goalless

variable {net : Network}

theorem Formed.removeDeadEnds (h : net.Formed) {kept : List CompId}
    (hkept : ∀ c ∈ kept, ∃ op, net.op? c = some op ∧ op.isGate = false) :
    (net.removeDeadEnds kept).Yields fun r => Sound (· ∈ kept) net r.1 := by
  let keep := net.ids.filter fun c => decide (c ∈ kept) || decide (net.op? c = some .constant)
  have hmem : ∀ c, c ∈ keep ↔ net.contains c ∧ (c ∈ kept ∨ net.op? c = some .constant) := by
    intro c
    simp only [keep, mem_filter, mem_ids, Bool.or_eq_true, decide_eq_true_eq]
  have hanchors : Anchors kept keep net := by
    intro c
    rw [hmem]
    refine and_iff_right_of_imp ?_
    rintro (hc | hop)
    · obtain ⟨op, hop, -⟩ := hkept c hc
      exact contains_of_op? hop
    · exact contains_of_op? hop
  have hsolid : Solid keep net := by
    intro c hc
    rcases ((hmem c).mp hc).2 with hc | hop
    · exact hkept c hc
    · exact ⟨_, hop, rfl⟩
  refine (removeDeadEnds_yields hanchors h.balanced h.acyclic hsolid).mono fun r hr => ?_
  exact hr.1.toSound.weaken fun c hc hlive => (hmem c).mpr ⟨hlive, .inl hc⟩

theorem Cast.plain (h : net.Cast) {c : CompId} (hc : c ∈ net.protectedIds true) :
    ∃ op, net.op? c = some op ∧ op.isGate = false := by
  rcases h.partsPlayed c hc with hop | hop
  · exact ⟨_, hop, rfl⟩
  · exact ⟨_, hop, rfl⟩

def playersIn (net : Network) (contains : CompId → Bool) : List Player :=
  net.players.map fun p => { p with goals := p.goals.filter contains }

theorem flatMap_playersIn (net : Network) (contains : CompId → Bool) :
    (net.playersIn contains).flatMap (·.legals) = net.legals ∧
      (net.playersIn contains).flatMap (·.goals) = net.goals.filter contains := by
  constructor
  · rw [playersIn, flatMap_map]
    rfl
  · rw [playersIn, flatMap_map, Network.goals, filter_flatMap]

theorem Trimming.stripGoals (h : Trimming net) : net.stripGoals.Ensures fun net' =>
    ∃ contains, Trimming net' ∧ Later { net with players := net.playersIn contains } net' ∧ net'.Fitted ∧
      net'.parts = Network.parts { net with players := net.playersIn contains } := by
  have hkept : ∀ c ∈ net.protectedIds false, ∃ op, net.op? c = some op ∧ op.isGate = false := by
    intro c hc
    refine h.formed.plain (mem_protectedIds.mpr ?_)
    rcases mem_protectedIds.mp hc with hb | hi | hi | hl | ⟨hno, -⟩ | ht | ht
    · exact .inl hb
    · exact .inr (.inl hi)
    · exact .inr (.inr (.inl hi))
    · exact .inr (.inr (.inr (.inl hl)))
    · cases hno
    · exact .inr (.inr (.inr (.inr (.inr (.inl ht)))))
    · exact .inr (.inr (.inr (.inr (.inr (.inr ht)))))
  unfold Network.stripGoals
  refine .bind (.lift (h.formed.removeDeadEnds hkept).ensures) fun r hs => ?_
  have hplayers : (r.1.players.map fun p => { p with goals := p.goals.filter r.1.contains }) =
      net.playersIn r.1.contains := by
    rw [field_of_parts Network.players hs.parts]
    rfl
  dsimp only
  rw [hplayers]
  obtain ⟨hlegals, hgoals⟩ := net.flatMap_playersIn r.1.contains
  have hless : Trimming { net with players := net.playersIn r.1.contains } :=
    h.reseat net.fixedBase hlegals fun g hg => mem_of_mem_filter (hgoals ▸ hg)
  -- what is protected was kept, and the goals that are left are there
  have hkeep : ∀ c ∈ Network.protectedIds { net with players := net.playersIn r.1.contains } true,
      r.1.contains c = true := by
    intro c hc
    have hlive : c ∈ net.protectedIds false → r.1.contains c = true := fun hc => by
      obtain ⟨op, hop, -⟩ := hkept c hc
      exact hs.keeps c hc (contains_of_op? hop)
    rcases mem_protectedIds.mp hc with hb | hi | hi | hl | ⟨-, hg⟩ | ht | ht
    · exact hlive (mem_protectedIds.mpr (.inl hb))
    · exact hlive (mem_protectedIds.mpr (.inr (.inl hi)))
    · exact hlive (mem_protectedIds.mpr (.inr (.inr (.inl hi))))
    · exact hlive (mem_protectedIds.mpr (.inr (.inr (.inr (.inl (hlegals ▸ hl))))))
    · have hg' : c ∈ net.goals.filter r.1.contains := hgoals ▸ hg
      exact (mem_filter.mp hg').2
    · exact hlive (mem_protectedIds.mpr (.inr (.inr (.inr (.inr (.inr (.inl ht)))))))
    · exact hlive (mem_protectedIds.mpr (.inr (.inr (.inr (.inr (.inr (.inr ht)))))))
  obtain ⟨htrim, hlater⟩ := hless.sound (hs.withPlayers _).survivors hkeep
  refine .bind (htrim.formed.optimizeKeeping _).ensures fun r' hr' => .pure ⟨r.1.contains, ?_⟩
  obtain ⟨htrim', hlater'⟩ := htrim.sound hr'.1 fun _ hc => hc
  refine ⟨htrim', hlater.trans hlater', hr'.2.2, hr'.1.parts.trans ?_⟩
  exact congrArg (fun n : Network => { n with players := net.playersIn r.1.contains }) hs.parts

theorem Finished.goalless_readied (h : net.Finished) (opts : Options) :
    (net.goalless opts).Ensures fun net' => ∃ contains bare,
      Later { net with players := net.playersIn contains } bare ∧
      bare.parts = Network.parts { net with players := net.playersIn contains } ∧ Readied bare net' := by
  refine .bind h.toTrimming.stripGoals fun bare hbare => ?_
  obtain ⟨contains, htrim, hlater, hfit, hparts⟩ := hbare
  refine .bind (settle_ensures htrim.formed hfit htrim.seeded htrim.ended opts) fun net' hr => ?_
  exact .bind .trivial fun _ _ => .pure ⟨contains, bare, hlater, hparts, hr⟩

/-- Without goals, a network plays as before. -/
theorem Finished.goalless (h : net.Finished) (opts : Options) :
    (net.goalless opts).Ensures (PlaysLike (fun _ => True) net) := by
  refine (h.goalless_readied opts).mono fun net' hnet' => ?_
  obtain ⟨contains, bare, hlater, hparts, hr⟩ := hnet'
  have hkeeps : Keeps net bare := ⟨hlater.keeps.capacity, hlater.keeps.old⟩
  have hbases := field_of_parts Network.bases hparts
  have htrans := field_of_parts Network.transitions hparts
  have hstart := field_of_parts Network.initialState hparts
  have hterm := field_of_parts Network.terminal hparts
  refine hr.playsLike h hkeeps.sameKinds hbases htrans hstart hterm (fun role => ?_) ?_
  · rw [field_of_parts Network.players hparts]
    dsimp only
    rw [playersIn, getElem?_map, Option.map_map]
    rfl
  · refine hlater.answers _ _ (Answers.reseat (h.answers (fun p hp => ?_) fun p hp => hp.1) _ _)
    exact ⟨net.permits_quiet p, hp.2⟩

end Goalless

/-! ## Cutting components off -/

structure Isolates (cut gone : CompId → Prop) (net net' : Network) : Prop where
  parts : net'.parts = net.parts
  capacity : net'.capacity = net.capacity
  missing : ∀ c, gone c → net'.contains c = false
  bare : ∀ c, ¬ gone c → net'.bare? c = net.bare? c
  inside : ∀ a b, cut a ∨ cut b → net'.edgesIn a b = 0
  outside : ∀ a b, ¬ cut a → ¬ cut b → net'.edgesIn a b = net.edgesIn a b
  balanced : net'.Balanced

section Isolates

variable {cut gone : CompId → Prop} {net cur net' : Network} {c : CompId} {k' : Component}

theorem Isolates.nothing (hb : net.Balanced) : Isolates (fun _ => False) (fun _ => False) net net :=
  ⟨rfl, rfl, fun _ => False.elim, fun _ _ => rfl, fun _ _ h => (or_self False ▸ h).elim,
    fun _ _ _ _ => rfl, hb⟩

theorem Isolates.of_iff {cut' gone' : CompId → Prop} (h : Isolates cut gone net net')
    (hc : ∀ c, cut' c ↔ cut c) (hg : ∀ c, gone' c ↔ gone c) : Isolates cut' gone' net net' := by
  obtain rfl : cut' = cut := funext fun c => propext (hc c)
  obtain rfl : gone' = gone := funext fun c => propext (hg c)
  exact h

theorem Isolates.isolate (h : Isolates cut gone net cur) (c : CompId) :
    (cur.isolate c).Ensures (Isolates (fun d => d = c ∨ cut d) gone net) := by
  intro net' hnet'
  have hc : cur.contains c := by
    obtain ⟨k, hk, -⟩ := exists_of_bind_eq_ok hnet'
    exact contains_of_get? (get?_of_get hk)
  obtain ⟨hr, hw⟩ := (isolate_yields (fun _ => False) h.balanced hc).ensures net' hnet'
  refine ⟨hr.parts.trans h.parts, hr.capacity.trans h.capacity, fun d hd => ?_, fun d hd => ?_,
    fun a b hab => ?_, fun a b ha hb => ?_, hw.balanced⟩
  · rw [hr.contains, h.missing d hd]
  · rw [hr.bare d id, h.bare d hd]
  · rw [hw.ins]
    split
    · rfl
    next hne =>
    obtain ⟨hac, hbc⟩ := not_or.mp hne
    exact h.inside a b (hab.imp (·.resolve_left hac) (·.resolve_left hbc))
  · obtain ⟨hac, ha⟩ := not_or.mp ha
    obtain ⟨hbc, hb⟩ := not_or.mp hb
    rw [hw.ins, if_neg (not_or.mpr ⟨hac, hbc⟩), h.outside a b ha hb]

theorem Isolates.remove (h : Isolates cut gone net cur) (hc : cut c) :
    Isolates cut (fun d => d = c ∨ gone d) net (cur.remove c) := by
  have hw := (Wired.mk (fun _ _ => rfl) (fun a b => h.balanced a b)).remove c
  have hedges : ∀ a b, (cur.remove c).edgesIn a b = cur.edgesIn a b := fun a b => by
    rw [hw.ins]
    split
    · next hb => rw [hb, h.inside a c (.inr hc)]
    · rfl
  refine ⟨h.parts, ?_, fun d hd => ?_, fun d hd => ?_, fun a b hab => ?_, fun a b ha hb => ?_,
    fun a b => ?_⟩
  · rw [← h.capacity]
    simp only [Network.capacity, Network.remove, Array.size_modify]
  · rw [contains, get?_remove]
    split
    · rfl
    · next hne => exact h.missing d (hd.resolve_left hne)
  · obtain ⟨hne, hd⟩ := not_or.mp hd
    rw [bare?, get?_remove, if_neg hne]
    exact h.bare d hd
  · rw [hedges, h.inside a b hab]
  · rw [hedges, h.outside a b ha hb]
  · rw [hw.outs, hedges]
    split
    · next ha => rw [ha, h.inside c b (.inl hc)]
    · rfl

theorem Isolates.isolateAll (cs : List CompId) : ∀ {cut cur}, Isolates cut gone net cur →
    Observed.Ensures (cs.foldlM (fun (net : Network) c => (net.isolate c : Checked Network)) cur)
      (Isolates (fun d => d ∈ cs ∨ cut d) gone net) := by
  induction cs with
  | nil => exact fun h => .pure (h.of_iff (fun c => by simp) fun _ => Iff.rfl)
  | cons c cs ih =>
    intro cut cur h
    rw [foldlM_cons]
    refine .bind (.lift (h.isolate c)) fun cur' h' => (ih h').mono fun net' hnet' => ?_
    exact hnet'.of_iff (fun d => by rw [mem_cons, or_left_comm, or_assoc]) fun _ => Iff.rfl

theorem Isolates.dropComponents (cs : List CompId) : ∀ {cut gone cur}, Isolates cut gone net cur →
    (cur.dropComponents cs).Ensures (Isolates (fun d => d ∈ cs ∨ cut d) (fun d => d ∈ cs ∨ gone d) net) := by
  induction cs with
  | nil => exact fun h => .pure (h.of_iff (fun c => by simp) fun c => by simp)
  | cons c cs ih =>
    intro cut gone cur h
    unfold Network.dropComponents
    rw [foldlM_cons]
    refine .bind (.bind (h.isolate c) fun cur' h' => .pure (h'.remove (.inl rfl))) fun cur' h' =>
      (ih h').mono fun net' hnet' => ?_
    exact hnet'.of_iff (fun d => by rw [mem_cons, or_left_comm, or_assoc])
      fun d => by rw [mem_cons, or_left_comm, or_assoc]

/-! ### What is left -/

section

variable (h : Isolates cut gone net net')
include h

theorem Isolates.not_gone (hc : net'.contains c) : ¬ gone c := by
  intro hg
  rw [h.missing c hg] at hc
  cases hc

theorem Isolates.contains (hg : ¬ gone c) : net'.contains c = net.contains c := by
  have hbare := congrArg Option.isSome (h.bare c hg)
  rwa [bare?, bare?, Option.isSome_map, Option.isSome_map] at hbare

theorem Isolates.exists_old (hk' : net'.get? c = some k') : ∃ k, net.get? c = some k ∧ k'.bare = k.bare := by
  have hbare := h.bare c (h.not_gone (contains_of_get? hk'))
  rw [bare?, bare?, hk', Option.map_some] at hbare
  obtain ⟨k, hk, hkb⟩ := Option.map_eq_some_iff.mp hbare.symm
  exact ⟨k, hk, hkb.symm⟩

theorem Isolates.edges_le (a b : CompId) : net'.edgesIn a b ≤ net.edgesIn a b := by
  by_cases hab : cut a ∨ cut b
  · rw [h.inside a b hab]
    exact Nat.zero_le _
  · obtain ⟨ha, hb⟩ := not_or.mp hab
    exact Nat.le_of_eq (h.outside a b ha hb)

theorem Isolates.mem_of_mem {a b : CompId} (hab : a ∈ net'.inputsOf b) : a ∈ net.inputsOf b :=
  edgesIn_pos.mp (Nat.lt_of_lt_of_le (edgesIn_pos.mpr hab) (h.edges_le a b))

theorem Isolates.acyclic (ha : net.Acyclic) : net'.Acyclic := by
  have hfeeds : net'.Feeds ≤ net.Feeds := fun _ _ => h.mem_of_mem
  exact fun c hc => ha c (Relation.TransGen.mono hfeeds _ _ hc)

theorem Isolates.inputsOf_of_cut (hc : cut c) : net'.inputsOf c = [] := by
  rw [eq_nil_iff_forall_not_mem]
  intro a ha
  exact Nat.lt_irrefl 0 (h.inside a c (.inr hc) ▸ edgesIn_pos.mpr ha)

theorem Isolates.keepsAll (hb : net.Balanced) : Keeps net net' := by
  refine ⟨Nat.le_of_eq h.capacity.symm, fun c k' hk' => .inl ?_⟩
  obtain ⟨k, hk, hbare⟩ := h.exists_old hk'
  refine ⟨k, hk, (congrArg Component.kind hbare :), fun hi => ?_, fun _ => Component.count_of_bare hbare,
    fun _ ho => ?_⟩
  · rw [eq_nil_iff_forall_not_mem]
    intro a ha
    rw [← inputsOf_of_get? hk'] at ha
    have := h.mem_of_mem ha
    rw [inputsOf_of_get? hk, hi] at this
    cases this
  · rw [eq_nil_iff_forall_not_mem]
    intro b hmem
    rw [← outputsOf_of_get? hk', h.balanced.mem_iff] at hmem
    have := hb.mem_iff.mpr (h.mem_of_mem hmem)
    rw [outputsOf_of_get? hk, ho] at this
    cases this

theorem Isolates.perm (hb : net.Balanced) (hmute : ∀ c, cut c → net.outputsOf c = []) (hc : ¬ cut c) :
    (net'.inputsOf c).Perm (net.inputsOf c) := by
  refine perm_iff_count.mpr fun a => ?_
  by_cases ha : cut a
  · have hnone : net.edgesIn a c = 0 := by
      rw [← hb a c, edgesOut, hmute a ha, count_nil]
    exact (h.inside a c (.inl ha)).trans hnone.symm
  · exact h.outside a c ha hc

theorem Isolates.valueAt (hc : net'.contains c) : net'.valueAt c = net.valueAt c := by
  obtain ⟨k', hk'⟩ := contains_iff.mp hc
  obtain ⟨k, hk, hbare⟩ := h.exists_old hk'
  rw [valueAt_of_get? hk', valueAt_of_get? hk, Component.value_of_bare hbare]

theorem Isolates.kind? (hc : net'.contains c) : net'.kind? c = net.kind? c := by
  obtain ⟨k', hk'⟩ := contains_iff.mp hc
  obtain ⟨k, hk, hbare⟩ := h.exists_old hk'
  rw [Network.kind?, Network.kind?, hk', hk, Option.map_some, Option.map_some]
  exact congrArg some (congrArg Component.kind hbare :)

theorem Isolates.not_cut (ho : net'.outputsOf c ≠ []) : ¬ cut c := by
  intro hc
  obtain ⟨b, hb⟩ := exists_mem_of_ne_nil _ ho
  rw [h.balanced.mem_iff, ← edgesIn_pos, h.inside c b (.inl hc)] at hb
  exact Nat.lt_irrefl 0 hb

theorem Isolates.outputsOf_ne (hb : net.Balanced) (ho : net'.outputsOf c ≠ []) : net.outputsOf c ≠ [] := by
  obtain ⟨b, hmem⟩ := exists_mem_of_ne_nil _ ho
  exact ne_nil_of_mem (hb.mem_iff.mpr (h.mem_of_mem (h.balanced.mem_iff.mp hmem)))

theorem Isolates.narrow (hb : net.Balanced)
    (hmute : ∀ c, cut c → net.outputsOf c = []) (hn : net.Narrow) : net'.Narrow := by
  intro c k' hk'
  obtain ⟨k, hk, hbare⟩ := h.exists_old hk'
  have hop : k'.op = k.op := (congrArg Component.op hbare :)
  rw [hop, ← inputsOf_of_get? hk']
  by_cases hc : cut c
  · rw [h.inputsOf_of_cut hc]
    exact ⟨fun _ _ => Nat.zero_le 1, fun _ => rfl⟩
  have hperm := h.perm hb hmute hc
  rw [inputsOf_of_get? hk] at hperm
  rw [hperm.length_eq]
  refine ⟨(hn c k hk).1, fun hconst => ?_⟩
  rw [(hn c k hk).2 hconst] at hperm
  exact hperm.eq_nil

end

end Isolates

/-! ## Goals only -/

section GoalsOnly

variable {net cur net' : Network} {c : CompId} {P : Position → Prop} {ref : Position → CompId → Bool}

structure Silenced (net : Network) (done : List CompId) (cur : Network) : Prop where
  trimming : Trimming cur
  parts : cur.parts = net.parts
  keeps : Keeps net cur
  mute : ∀ i ∈ done, cur.outputsOf i = []
  answers : ∀ P ref, net.Answers P ref → (∀ p, P p → ∀ i, p.does i = false) → cur.Answers P ref

theorem Silenced.fold {done : List CompId} {i : CompId} (h : Silenced net done cur) (hi : i ∈ net.inputs) :
    (cur.foldConstant i false).Ensures fun r => Silenced net (i :: done) r.1 := by
  have hrole := h.trimming.formed.inputs i ((field_of_parts Network.inputs h.parts).symm ▸ hi)
  obtain ⟨k, hk⟩ := contains_iff.mp (contains_of_isRole hrole)
  have hnil : k.inputs = [] := (inputsOf_of_get? hk).symm.trans (h.trimming.formed.input i hrole)
  have hop : k.op = .proposition := op_of_get? hk (op?_of_isRole hrole)
  have hg : k.isGate = false := by rw [Component.isGate, hop]; rfl
  have hcount : k.count = countOf false := (countAt_of_get? hk).symm.trans (h.trimming.seeded.input i hrole)
  refine (foldConstant_trimmed h.trimming.trimmable hk hnil (by rw [hop]; decide) (.inr ⟨hg, hcount⟩)
    fun _ => rfl).ensures.mono fun r ht => ?_
  have hb := h.trimming.formed.balanced
  obtain ⟨htrim, hanswers⟩ := h.trimming.trimmed_at hk hnil ht (h.trimming.value_of_count hk hg hcount)
  refine ⟨htrim, ht.parts.trans h.parts, h.keeps.trans (ht.keepsAll hb), fun d hd => ?_,
    fun P ref ha hq => ?_⟩
  · rcases mem_cons.mp hd with rfl | hd
    · exact ht.quiet
    · exact ht.outputsOf hb (h.mute d hd)
  · refine hanswers P ref (h.answers P ref ha hq) fun p hp => ?_
    rw [source_of_input p (not_base_of_input h.trimming.formed hrole) hrole]
    exact hq p hp i

theorem Trimming.foldInputs (h : Trimming net) :
    (net.foldConstants net.inputs false).Ensures (Silenced net net.inputs) := by
  refine (Observed.partly.foldlM (fun rest cur => ∃ done, Silenced net done cur ∧
    (∀ i ∈ rest, i ∈ net.inputs) ∧ ∀ i ∈ net.inputs, i ∈ done ∨ i ∈ rest) (fun i rest cur hcur => ?_)
    net.inputs net ⟨[], ⟨h, rfl, .refl net, fun _ hd => (not_mem_nil hd).elim, fun _ _ ha _ => ha⟩,
      fun _ hi => hi, fun _ hi => .inr hi⟩).mono fun cur hcur => ?_
  · obtain ⟨done, hs, hrest, hall⟩ := hcur
    refine .bind (hs.fold (hrest i mem_cons_self)) fun r hr => .pure ⟨i :: done, hr,
      (forall_mem_cons.mp hrest).2, fun j hj => ?_⟩
    rcases hall j hj with hd | hd
    · exact .inl (mem_cons_of_mem i hd)
    rcases mem_cons.mp hd with rfl | hd
    · exact .inl mem_cons_self
    · exact .inr hd
  · obtain ⟨done, hs, -, hall⟩ := hcur
    exact { hs with mute := fun i hi => hs.mute i ((hall i hi).resolve_right not_mem_nil) }

abbrev Unmoved (net net' : Network) : Prop :=
  Isolates (fun c => c ∈ net.inputs ∨ c ∈ net.legals ∨ c ∈ net.transitions)
    (fun c => c ∈ net.inputs ∨ c ∈ net.legals) net net'

theorem Trimming.mute (h : Trimming net) (hmute : ∀ i ∈ net.inputs, net.outputsOf i = []) (c : CompId)
    (hc : c ∈ net.inputs ∨ c ∈ net.legals ∨ c ∈ net.transitions) : net.outputsOf c = [] := by
  rcases hc with hi | hl | ht
  · exact hmute c hi
  · exact h.ended c hl
  · exact h.formed.transition c (h.formed.op?_of_transition ht)

theorem Unmoved.contains_of_role (h : Unmoved net net') (hf : net.Formed) {role : PropRole}
    (hr : net.isRole c role) (hne : role ≠ .input ∧ role ≠ .legal) : net'.contains c := by
  rw [Isolates.contains h]
  · exact contains_of_isRole hr
  rintro (hi | hl)
  · exact hne.1 (isRole_unique hr (hf.inputs c hi))
  · exact hne.2 (isRole_unique hr (hf.legal c hl).1)

theorem Unmoved.contains_of_transition (h : Unmoved net net') (hf : net.Formed)
    (hop : net.op? c = some .transition) : net'.contains c := by
  have hnot : ∀ {role}, ¬ net.isRole c role := fun hr => by
    have := op?_of_isRole hr
    rw [hop] at this
    cases this
  rw [Isolates.contains h]
  · exact contains_of_op? hop
  rintro (hi | hl)
  · exact hnot (hf.inputs c hi)
  · exact hnot (hf.legal c hl).1

def unlisted (net : Network) : Network :=
  { net with inputs := [], players := net.players.map fun p => { p with legals := [], inputs := [] } }

theorem legals_unlisted (net : Network) : net.unlisted.legals = [] := by
  rw [Network.legals, unlisted, flatMap_map]
  exact flatMap_eq_nil_iff.mpr fun _ _ => rfl

theorem goals_unlisted (net : Network) : net.unlisted.goals = net.goals := by
  rw [Network.goals, unlisted, flatMap_map]
  rfl

theorem Unmoved.cast (h : Unmoved net net') (hf : net.Formed) : net'.unlisted.Cast := by
  have hkeeps : Keeps net net' := Isolates.keepsAll h hf.balanced
  have hrole : ∀ {c role}, net.isRole c role → role ≠ .input ∧ role ≠ .legal →
      net'.isRole c role := fun hr hne =>
    hkeeps.isRole hr (Unmoved.contains_of_role h hf hr hne)
  have hinit := field_of_parts Network.init h.parts
  have hbases := field_of_parts Network.bases h.parts
  have htrans := field_of_parts Network.transitions h.parts
  refine
    { base := fun b hb => ?_
      bases_nodup := hbases ▸ hf.bases_nodup
      driven := ?_
      transition := fun t hop => ?_
      input := fun i hi => ?_
      inputs := fun i hi => (not_mem_nil hi).elim
      terminal := ?_
      init := fun i hi => hrole (hf.init i (hinit ▸ hi)) (by decide)
      legal := fun l hl => (not_mem_nil (net'.legals_unlisted ▸ hl)).elim
      goal := fun g hg => ?_
      paired := fun l i hl => ?_ }
  · have hb := hf.base b (hbases ▸ hb)
    exact ⟨hrole hb.1 (by decide), hkeeps.inputsOf hb.2 (contains_of_isRole hb.1)⟩
  · change List.Forall₂ _ net'.bases net'.transitions
    rw [hbases, htrans]
    refine hf.driven.imp fun b t ht => ?_
    have hop := op?_of_kind? ht
    exact (hkeeps.kind? (contains_of_op? hop) (Unmoved.contains_of_transition h hf hop)).trans ht
  · exact hkeeps.outputsOf_of_transition hf.transition hop
  · have hi₀ := hkeeps.isRole_of hi
    exact hkeeps.inputsOf (hf.input i hi₀) (contains_of_isRole hi₀)
  · change net'.isRole net'.terminal .terminal = true
    rw [field_of_parts Network.terminal h.parts]
    exact hrole hf.terminal (by decide)
  · rw [goals_unlisted, field_of_parts Network.goals h.parts] at hg
    exact hrole (hf.goal g hg) (by decide)
  · -- a legal with an input would be on the list, and so it is gone
    have hl₀ := (hf.paired l i (hkeeps.pairedInput? hl)).1
    have hlive : net'.contains l := by
      obtain ⟨k, hk, -⟩ := Option.bind_eq_some_iff.mp hl
      exact contains_of_get? hk
    exact absurd (Or.inr hl₀) (Isolates.not_gone h hlive)

theorem Unmoved.trimming (h : Unmoved net net') (ht : Trimming net)
    (hmute : ∀ i ∈ net.inputs, net.outputsOf i = []) : Trimming net'.unlisted := by
  have hcast := Unmoved.cast h ht.formed
  have hb := ht.formed.balanced
  have hkeeps : Keeps net net'.unlisted := by
    have hk : Keeps net net' := Isolates.keepsAll h hb
    exact ⟨hk.capacity, hk.old⟩
  have hnarrow : net'.Narrow := Isolates.narrow h hb (ht.mute hmute) ht.narrow
  have hacyclic : net'.Acyclic := Isolates.acyclic h ht.formed.acyclic
  refine
    { formed :=
        { toCast := hcast
          balanced := h.balanced
          acyclic := hacyclic
          shaped := fun c k' hk' => ?_ }
      seeded := hkeeps.seeded ht.seeded ht.formed ht.narrow fun b hb => ?_
      ended := fun l hl => (not_mem_nil (net'.legals_unlisted ▸ hl)).elim
      narrow := hnarrow }
  · obtain ⟨k, hk, hbare⟩ := Isolates.exists_old h hk'
    exact (ht.formed.shaped c k hk).of_face (Component.face_of_bare hbare)
  · refine ⟨?_, contains_of_isRole (hcast.base b hb).1⟩
    rw [← field_of_parts Network.bases h.parts]
    exact hb

/-! ### Answers where no move is made -/

section

variable (h : Unmoved net net') (ht : Trimming net) (hmute : ∀ i ∈ net.inputs, net.outputsOf i = [])
include h ht hmute

theorem Unmoved.obeys {v w : CompId → Bool} (hv : net.Obeys v)
    (hw : ∀ c, c ∉ net.transitions → w c = v c) : net'.Obeys w := by
  intro c op hop hi
  have hcut := fun hc => hi (Isolates.inputsOf_of_cut h hc)
  have hperm := Isolates.perm h ht.formed.balanced (ht.mute hmute) hcut
  have hop₀ : net.op? c = some op := (op?_of_kind?_eq (Isolates.kind? h (contains_of_op? hop))).symm.trans hop
  rw [hw c fun htr => hcut (.inr (.inr htr)), hv c op hop₀ fun hnil => hi (perm_nil.mp (hnil ▸ hperm)),
    op.read_of_mem_iff v fun a => (hperm.mem_iff (a := a)).symm]
  refine op.read_of_forall_eq fun a ha => (hw a fun htr => ?_).symm
  -- nothing reads a transition
  have hout := ht.formed.balanced.mem_iff.mpr (hperm.subset ha)
  rw [ht.mute hmute a (.inr (.inr htr))] at hout
  cases hout

theorem Unmoved.inputsOf (hc : net'.contains c)
    (htr : c ∉ net.transitions) (hi : net'.inputsOf c = []) : net.inputsOf c = [] := by
  have hgone := Isolates.not_gone h hc
  have hperm := Isolates.perm h ht.formed.balanced (ht.mute hmute) (c := c) fun hcut =>
    hgone (hcut.imp_right (·.resolve_right htr))
  rw [hi] at hperm
  exact nil_perm.mp hperm

theorem Unmoved.telling (hc : net'.Telling c) : net.Telling c := by
  rcases hc with ⟨op, hop, hg⟩ | ⟨hlive, hi, ho⟩
  · exact .inl ⟨op, (op?_of_kind?_eq (Isolates.kind? h (contains_of_op? hop))).symm.trans hop, hg⟩
  have hcut := Isolates.not_cut h ho
  refine .inr ⟨contains_of_kind? (Isolates.kind? h hlive).symm hlive, ?_,
    Isolates.outputsOf_ne h ht.formed.balanced ho⟩
  exact Unmoved.inputsOf h ht hmute hlive (fun htr => hcut (.inr (.inr htr))) hi

theorem Unmoved.answers (ha : net.Answers P ref) (hq : ∀ p, P p → ∀ i, p.does i = false) :
    net'.unlisted.Answers P fun p c => if c ∈ net.transitions then net'.valueAt c else ref p c where
  coherent := by
    obtain ⟨v, hv, hval⟩ := ha.coherent
    refine ⟨v, Unmoved.obeys h ht hmute hv fun _ _ => rfl, fun c hc => ?_⟩
    have hlive : net'.contains c := hc.contains
    exact (hval c (Unmoved.telling h ht hmute hc)).trans (Isolates.valueAt h hlive).symm
  rested c k' hk' hop hi ho := by
    have hk'' : net'.get? c = some k' := hk'
    obtain ⟨k, hk, hbare⟩ := Isolates.exists_old h hk''
    have ho' : net'.outputsOf c ≠ [] := by rwa [outputsOf_of_get? hk'']
    have hnil := Unmoved.inputsOf h ht hmute (contains_of_get? hk'')
      (fun htr => Isolates.not_cut h ho' (.inr (.inr htr))) ((inputsOf_of_get? hk'').trans hi)
    have hout := Isolates.outputsOf_ne h ht.formed.balanced ho'
    have hop₀ : k'.op = k.op := (congrArg Component.op hbare :)
    rw [inputsOf_of_get? hk] at hnil
    rw [outputsOf_of_get? hk] at hout
    rw [hop₀] at hop ⊢
    obtain ⟨hcount, hreq⟩ := ha.rested c k hk hop hnil hout
    have hreq₀ : k'.reqTrue = k.reqTrue := (congrArg Component.reqTrue hbare :)
    exact ⟨(Component.count_of_bare hbare).trans hcount, fun hand => hreq₀.trans (hreq hand)⟩
  lawful := ⟨ha.lawful.quiet, fun p hp i _ hdoes => by rw [hq p hp i] at hdoes; cases hdoes⟩
  fits p hp := by
    obtain ⟨v, hv, href⟩ := ha.fits p hp
    refine ⟨fun c => if c ∈ net.transitions then net'.valueAt c else v c,
      ⟨Unmoved.obeys h ht hmute hv.obeys fun c hc => if_neg hc, fun c hc hi => ?_⟩, fun c op hop hg => ?_⟩
    · have hlive : net'.contains c := hc.contains
      have hkind := Isolates.kind? h hlive
      have hbases := field_of_parts Network.bases h.parts
      split
      · next htr =>
        have hop := ht.formed.op?_of_transition htr
        have hnot : ∀ {role}, ¬ net.isRole c role := fun hr => by
          have := op?_of_isRole hr
          rw [hop] at this
          cases this
        refine (source_of_other p (fun hb => hnot (ht.formed.base c (hbases ▸ hb)).1) ?_).symm
        exact fun hr => hnot ((isRole_of_kind? hkind .input).symm.trans hr)
      · next htr =>
        rw [hv.sources c (Unmoved.telling h ht hmute hc) (Unmoved.inputsOf h ht hmute hlive htr hi)]
        exact (source_congr p (by rw [hbases]) (isRole_of_kind? hkind .input) (Isolates.valueAt h hlive)).symm
    · beta_reduce
      split
      · rfl
      · exact href c op ((op?_of_kind?_eq (Isolates.kind? h (contains_of_op? hop))).symm.trans hop) hg

end

theorem Finished.goalsOnly_readied (h : net.Finished) (opts : Options) :
    (net.goalsOnly opts).Ensures fun net' => ∃ last ref, Keeps net last ∧
      last.parts = net.unlisted.parts ∧ last.Answers (fun p => ∀ i, p.does i = false) ref ∧
      (∀ p, ∀ g ∈ net.goals, ref p g = net.truth p g) ∧ Readied last net' := by
  refine .bind h.toTrimming.foldInputs fun net₁ hs => ?_
  have hinputs := field_of_parts Network.inputs hs.parts
  have hmute : ∀ i ∈ net₁.inputs, net₁.outputsOf i = [] := fun i hi => hs.mute i (hinputs ▸ hi)
  refine .bind (Isolates.isolateAll net₁.transitions (.nothing hs.trimming.formed.balanced))
    fun net₂ h₂ => ?_
  refine .bind (.lift (h₂.dropComponents net₂.legals)) fun net₃ h₃ => ?_
  refine .bind (.lift (h₃.dropComponents net₃.inputs)) fun net₄ h₄ => ?_
  have hun : Unmoved net₁ net₄ := by
    rw [field_of_parts Network.legals h₂.parts, field_of_parts Network.inputs h₃.parts] at h₄
    exact h₄.of_iff (fun c => by rw [or_false]) fun c => by rw [or_false]
  have htrim := Unmoved.trimming hun hs.trimming hmute
  have hkeep : ∀ c, c ∈ net₄.unlisted.protectedIds true ↔ c ∈ net₄.unlisted.inbound ++
      net₄.unlisted.goals ++ net₄.unlisted.transitions ++ [net₄.unlisted.terminal] := by
    intro c
    simp only [protectedIds, outbound, CompId.mem_sortedSet, legals_unlisted, if_true, nil_append,
      mem_append, or_assoc]
  refine .bind (.lift (htrim.formed.removeDeadEnds fun c hc =>
    htrim.formed.plain ((hkeep c).mpr hc)).ensures) fun r₅ h₅ => ?_
  obtain ⟨htrim₅, hlater₅⟩ := htrim.sound h₅ fun c hc => (hkeep c).mp hc
  refine .bind (htrim₅.formed.optimizeKeeping _).ensures fun r₆ h₆ => ?_
  obtain ⟨htrim₆, hlater₆⟩ := htrim₅.sound h₆.1 fun _ hc => hc
  refine .bind (settle_ensures htrim₆.formed h₆.2.2 htrim₆.seeded htrim₆.ended opts) fun net' hr => ?_
  refine .bind .trivial fun _ _ => .pure ?_
  have hlater := hlater₅.trans hlater₆
  have hkeeps₁ : Keeps net₁ net₄.unlisted := by
    have hk := Isolates.keepsAll hun hs.trimming.formed.balanced
    exact ⟨hk.capacity, hk.old⟩
  have hparts : net₄.unlisted.parts = net.unlisted.parts :=
    congrArg Network.unlisted (hun.parts.trans hs.parts)
  have hquiet : ∀ p : Position, (∀ i, p.does i = false) → net.Permits p := fun p hp i _ hdoes => by
    rw [hp i] at hdoes
    cases hdoes
  have ha := h.answers (P := fun p => ∀ i, p.does i = false) (fun _ _ _ => rfl) hquiet
  have hq : ∀ p : Position, (∀ i, p.does i = false) → ∀ i, p.does i = false := fun _ hp => hp
  refine ⟨r₆.1, _, (hs.keeps.trans hkeeps₁).trans hlater.keeps, (h₆.1.parts.trans h₅.parts).trans hparts,
    hlater.answers _ _ (Unmoved.answers hun hs.trimming hmute (hs.answers _ _ ha hq) hq),
    fun p g hg => if_neg fun htr => ?_, hr⟩
  have hop := hs.trimming.formed.op?_of_transition htr
  rw [op?_of_isRole (hs.trimming.formed.goal g (field_of_parts Network.goals hs.parts ▸ hg))] at hop
  cases hop

theorem Finished.goalsOnly (h : net.Finished) (opts : Options) :
    (net.goalsOnly opts).Ensures (ScoresLike (fun _ => True) net) := by
  refine (h.goalsOnly_readied opts).mono fun net' hnet' => ?_
  obtain ⟨last, ref, hkeeps, hparts, ha, href, hr⟩ := hnet'
  have hbases := field_of_parts Network.bases hparts
  refine hr.scoresLike h hkeeps.sameKinds hbases (fun role => ?_) ha (fun _ _ _ => rfl) href
  rw [field_of_parts Network.players hparts, unlisted, getElem?_map, Option.map_map]
  rfl

end GoalsOnly

end Network

/-! ## Machines -/

theorem Call.answer_goalless (c : Call) (m : GoallessMachine) : c.answer (.goalless m) =
      (c.answer (.single m.play)).map fun x => (x.1, .goalless { m with play := x.2.player }) := by
  cases c with
  | update s =>
    dsimp only [answer, Machine.update]
    cases m.play.update s <;> rfl
  | reset =>
    dsimp only [answer, Machine.reset, Machine.update, Machine.initialState, Machine.net, Machine.player]
    cases m.play.update (.ofBools m.play.net.initialState) <;> rfl
  | next legals =>
    dsimp only [answer, Machine.nextState]
    cases m.play.nextState legals <;> rfl

theorem Call.after_goalless (c : Call) (m : GoallessMachine) :
    c.after (.goalless m) = .goalless { m with play := (c.after (.single m.play)).player } := by
  rw [after, after, answer_goalless]
  cases c.answer (.single m.play) <;> rfl

namespace GoallessMachine

open Network

structure Showing (playNet goalNet : Network) (bits : List Bool) (m : GoallessMachine) : Prop where
  play : SingleMachine.Showing playNet bits [] m.play
  goals : ∃ bits', SingleMachine.Showing goalNet bits' [] m.goals

section Showing

variable {net playNet goalNet : Network} {bits : List Bool} {m : GoallessMachine}

theorem Showing.goalValue (h : Showing playNet goalNet bits m) (hp : playNet.Finished)
    (hg : goalNet.Finished) (hlen : bits.length = playNet.bases.length)
    (hlen' : bits.length = goalNet.bases.length) (role : Nat) :
    (m.goalValue role).Yields fun r => r.1 = goalNet.goalIn bits role ∧ Showing playNet goalNet bits r.2 := by
  obtain ⟨bits', hshow⟩ := h.goals
  obtain ⟨goals, hgoals, hshow', -⟩ := hshow.setState hg.primed (.ofBools bits)
  rw [bitsOf_ofBools hlen'] at hshow'
  refine ⟨(goalNet.goalIn bits role, { m with goals }), ?_, rfl, h.play, bits, hshow'⟩
  unfold GoallessMachine.goalValue
  rw [h.play.currentState hp.primed hlen]
  dsimp only [bind, Except.bind]
  rw [hgoals]
  dsimp only
  rw [hshow'.goalValue hg.primed hg.formed.toCast]
  rfl

def At (net playNet goalNet : Network) (bits : List Bool) (m : Machine) : Prop :=
  bits.length = net.bases.length ∧ ∃ parted, m = .goalless parted ∧ Showing playNet goalNet bits parted

section

variable (hfin : net.Finished) (hp : PlaysLike (fun _ => True) net playNet)
  (hg : ScoresLike (fun _ => True) net goalNet)
include hfin hp hg

theorem At.tracks {m : Machine} (h : At net playNet goalNet bits m) {r : Request} (hd : r.Distinct)
    (hn : r.Names net) : m.Tracks net (At net playNet goalNet) bits r := by
  have hstay := h
  obtain ⟨hlen, m, rfl, h⟩ := h
  have hprimed := hp.finished.primed
  have hcast := hp.finished.formed.toCast
  cases r with
  | call c =>
    obtain ⟨hanswer, m', hafter, -, hshow⟩ := c.tracked hprimed h.play (hd.apart hcast _)
    rw [c.told_of_playsLike hp hfin trivial hn] at hanswer hshow
    refine .of_call ?_ ⟨c.length_told net hlen, { m with play := m' }, ?_, hshow, h.goals⟩
    · rw [c.answer_goalless, ← hanswer]
      cases c.answer (.single m.play) <;> rfl
    · rw [c.after_goalless, hafter]
      rfl
  | legalMoves role =>
    have hask := Machine.ask_legalMoves (m := .goalless m) h.play hprimed hcast role
    rw [hp.legalsIn hfin trivial] at hask
    exact .of_ask hask hstay
  | isTerminal =>
    have hask := Machine.ask_isTerminal (m := .goalless m) h.play hprimed hcast
    rw [hp.isTerminal hfin trivial] at hask
    exact .of_ask hask hstay
  | goalValue role =>
    obtain ⟨⟨value, m'⟩, hvalue, rfl, hshow⟩ := h.goalValue hp.finished hg.finished
      (hp.bases ▸ hlen) (hg.bases ▸ hlen) role
    refine .of_goalValue ?_ ⟨hlen, m', rfl, hshow⟩
    rw [Machine.goalValue, hvalue, ← hg.goalIn hfin trivial]
    rfl
  | currentState => exact .of_currentState (h.play.currentState hprimed (hp.bases ▸ hlen)) hstay

theorem replies_eq (rs : List Request) (h : Showing playNet goalNet bits m)
    (hlen : bits.length = net.bases.length) (hrs : ∀ r ∈ rs, r.Distinct ∧ r.Names net) :
    (Machine.goalless m).replies rs = Request.allTold net bits rs :=
  (Machine.replies_eq_allTold (A := At net playNet goalNet) ⟨hlen, m, rfl, h⟩ fun r hr _ _ hat =>
    hat.tracks hfin hp hg (hrs r hr).1 (hrs r hr).2).1

end

end Showing

end GoallessMachine

namespace Listing

open Network

/-- A machine that keeps its goals in a network of their own gives the replies of one over the whole network,
to everything that is asked about moves of that network. -/
theorem replies_goalless (l : Listing) (hb : l.Balanced) (ha : l.Acyclic) (opts vopts : Options)
    {net playNet goalNet : Network} (h : (l.compile opts).listen.1 = .ok net)
    (hp : (net.goalless vopts).listen.1 = .ok playNet) (hg : (net.goalsOnly vopts).listen.1 = .ok goalNet)
    (strategy : Strategy) (rs : List Request) (hrs : ∀ r ∈ rs, r.Distinct ∧ r.Names net) :
    ∃ whole parted, SingleMachine.new net strategy = .ok whole ∧
      GoallessMachine.new playNet goalNet strategy = .ok parted ∧
      (Machine.goalless parted).replies rs = (Machine.single whole).replies rs := by
  obtain ⟨cut, last, hc⟩ := compiled_of_ok hb ha h
  have hfin := hc.finished
  have hplay := hfin.goalless vopts #[] playNet (by rwa [← Observed.listen_eq])
  have hscore := hfin.goalsOnly vopts #[] goalNet (by rwa [← Observed.listen_eq])
  obtain ⟨whole, hwhole, hreplies⟩ := Request.replies_of_new hfin.primed hfin.formed.toCast
    (fun r hr => (hrs r hr).1) strategy
  obtain ⟨play, hplayNew, hshow, -⟩ := SingleMachine.new_yields hplay.finished.primed strategy
  obtain ⟨goals, hgoalsNew, hshow', -⟩ := SingleMachine.new_yields hscore.finished.primed strategy
  refine ⟨whole, ⟨play, goals⟩, hwhole, ?_, ?_⟩
  · rw [GoallessMachine.new, hplayNew, hgoalsNew]
    rfl
  · rw [hreplies]
    have hbits : playNet.bitsOf (.ofBools playNet.initialState) = net.bitsOf (.ofBools net.initialState) := by
      rw [bitsOf, bitsOf, hplay.bases, hplay.start]
    rw [hbits] at hshow
    refine GoallessMachine.replies_eq hfin hplay hscore rs ⟨hshow, _, hshow'⟩ ?_ hrs
    rw [bitsOf, List.length_map, List.length_range]

theorem replies_goalless_lamp : ∃ net playNet goalNet whole parted,
    (lamp.compile {}).listen.1 = .ok net ∧ (net.goalless {}).listen.1 = .ok playNet ∧
    (net.goalsOnly {}).listen.1 = .ok goalNet ∧ SingleMachine.new net .depthFirst = .ok whole ∧
    GoallessMachine.new playNet goalNet .depthFirst = .ok parted ∧
    (Machine.goalless parted).replies [.call (.next [7]), .call (.update (.ofBools [true])), .goalValue 0] =
      (Machine.single whole).replies
        [.call (.next [7]), .call (.update (.ofBools [true])), .goalValue 0] := by
  have hok : (do
      let net ← (lamp.compile {}).listen.1
      let _ ← (net.goalless {}).listen.1
      let _ ← (net.goalsOnly {}).listen.1
      return net.legals : Checked (List CompId)) = .ok [7] := by decide +kernel
  obtain ⟨net, hnet, hok⟩ := exists_of_bind_eq_ok hok
  obtain ⟨playNet, hplay, hok⟩ := exists_of_bind_eq_ok hok
  obtain ⟨goalNet, hgoal, hok⟩ := exists_of_bind_eq_ok hok
  have hlegals : net.legals = [7] := Except.ok.inj hok
  obtain ⟨whole, parted, h⟩ := replies_goalless lamp lamp_balanced lamp_acyclic {} {} hnet hplay hgoal
    .depthFirst [.call (.next [7]), .call (.update (.ofBools [true])), .goalValue 0] (by
      intro r hr
      refine ⟨(by decide : ∀ r ∈ [Request.call (.next [7]), .call (.update (.ofBools [true])), .goalValue 0],
        r.Distinct) r hr, ?_⟩
      simp only [List.mem_cons, List.not_mem_nil, or_false] at hr
      rcases hr with rfl | rfl | rfl
      · intro l hl
        rwa [hlegals]
      · trivial
      · trivial)
  exact ⟨net, playNet, goalNet, whole, parted, hnet, hplay, hgoal, h⟩

end Listing

end GameNet
