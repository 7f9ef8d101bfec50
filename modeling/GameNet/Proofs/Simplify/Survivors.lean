import GameNet.Proofs.Simplify.DeadEnds

/-!
What is left when dead ends are removed, in any network.

So a component stays for one of three reasons: it leads to one to be kept, to a constant, or into a cycle.
-/

namespace GameNet

open List

namespace Network

/-! ## What is needed -/

def Needed (net : Network) (kept : List CompId) (c : CompId) : Prop :=
  ∃ d, Relation.ReflTransGen net.Feeds c d ∧
    (d ∈ kept ∨ net.op? d = some .constant ∨ Relation.TransGen net.Feeds d d)

section Needed

variable {net : Network} {kept : List CompId} {c : CompId}

theorem needed_iff : net.Needed kept c ↔
    c ∈ kept ∨ net.op? c = some .constant ∨ ∃ b, net.Feeds c b ∧ net.Needed kept b := by
  constructor
  · rintro ⟨d, hcd, hd⟩
    rcases hcd.cases_head with rfl | ⟨b, hcb, hbd⟩
    · rcases hd with hkept | hconst | hcycle
      · exact .inl hkept
      · exact .inr (.inl hconst)
      · -- the next component on the cycle leads back to this one
        obtain ⟨b, hcb, hbc⟩ := Relation.TransGen.head'_iff.mp hcycle
        exact .inr (.inr ⟨b, hcb, c, hbc, .inr (.inr hcycle)⟩)
    · exact .inr (.inr ⟨b, hcb, d, hbd, hd⟩)
  · rintro (hkept | hconst | ⟨b, hcb, d, hbd, hd⟩)
    · exact ⟨c, .refl, .inl hkept⟩
    · exact ⟨c, .refl, .inr (.inl hconst)⟩
    · exact ⟨d, .head hcb hbd, hd⟩

/-- What is not needed lies on no cycle, so its paths have a longest one. -/
theorem exists_rank_of_not_needed (hb : net.Balanced) (kept : List CompId) :
    ∃ rank : CompId → Nat, (∀ a b, net.Feeds a b → ¬ net.Needed kept a → rank a < rank b) ∧
      ∀ c, rank c ≤ net.capacity := by
  obtain ⟨rank, hrank, hle⟩ := exists_rank_of_acyclic
    (R := fun a b => net.Feeds a b ∧ ¬ net.Needed kept a) (Finset.range net.capacity)
    (fun a b hab => Finset.mem_range.mpr (lt_capacity_of_contains (hb.contains_source hab.1)))
    fun c hc => by
      obtain ⟨b, ⟨-, hnot⟩, -⟩ := Relation.TransGen.head'_iff.mp hc
      exact hnot ⟨c, .refl, .inr (.inr (Relation.TransGen.mono (fun _ _ h => h.1) _ _ hc))⟩
  exact ⟨rank, fun a b hab hnot => hrank a b ⟨hab, hnot⟩, fun c => (hle c).trans (Finset.card_range _).le⟩

end Needed

/-! ## Pruning -/

structure Prunes (net net' : Network) : Prop where
  parts : net'.parts = net.parts
  old : ∀ c k', net'.get? c = some k' →
    ∃ k, net.get? c = some k ∧ k' = { k with outputs := k'.outputs } ∧ k'.outputs.Sublist k.outputs

section Prunes

variable {net net' net'' : Network} {a b c : CompId}

theorem Prunes.refl (net : Network) : Prunes net net :=
  ⟨rfl, fun _ k hk => ⟨k, hk, rfl, .refl _⟩⟩

theorem Prunes.trans (h : Prunes net net') (h' : Prunes net' net'') : Prunes net net'' where
  parts := h'.parts.trans h.parts
  old c k'' hk'' := by
    obtain ⟨k', hk', he', hs'⟩ := h'.old c k'' hk''
    obtain ⟨k, hk, he, hs⟩ := h.old c k' hk'
    refine ⟨k, hk, ?_, hs'.trans hs⟩
    rw [he] at he'
    exact he'

theorem prunes_remove (net : Network) (c : CompId) : Prunes net (net.remove c) where
  parts := rfl
  old d k hk := by
    rw [get?_remove] at hk
    split at hk
    · cases hk
    · exact ⟨k, hk, rfl, .refl _⟩

theorem prunes_release (net : Network) (suspects : List CompId) (c i : CompId) :
    Prunes net (DeadEnds.release c (net, suspects) i).1 := by
  cases hk : net.get? i with
  | none =>
    rw [DeadEnds.release]
    simp only [hk]
    exact .refl net
  | some k =>
    rw [DeadEnds.release_eq hk]
    refine ⟨rfl, fun d k' hk' => ?_⟩
    rw [get?_modify] at hk'
    split at hk'
    · obtain ⟨k, hk, rfl⟩ := Option.map_eq_some_iff.mp hk'
      exact ⟨k, hk, rfl, erase_sublist⟩
    · exact ⟨k', hk', rfl, .refl _⟩

theorem prunes_release_fold (net : Network) (suspects inputs : List CompId) (c : CompId) :
    Prunes net (inputs.foldl (DeadEnds.release c) (net.remove c, suspects)).1 :=
  foldl_keeps (fun _ (s : Network × List CompId) => Prunes net s.1)
    (fun i _ s h => h.trans (prunes_release s.1 s.2 c i)) inputs _ (prunes_remove net c)

section

variable (h : Prunes net net') (hc : net'.contains c)
include h hc

theorem Prunes.contains : net.contains c := by
  obtain ⟨k', hk'⟩ := contains_iff.mp hc
  obtain ⟨k, hk, -⟩ := h.old c k' hk'
  exact contains_of_get? hk

theorem Prunes.op? : net'.op? c = net.op? c := by
  obtain ⟨k', hk'⟩ := contains_iff.mp hc
  obtain ⟨k, hk, he, -⟩ := h.old c k' hk'
  rw [op?_of_get? hk', op?_of_get? hk, he]
  rfl

theorem Prunes.inputsOf : net'.inputsOf c = net.inputsOf c := by
  obtain ⟨k', hk'⟩ := contains_iff.mp hc
  obtain ⟨k, hk, he, -⟩ := h.old c k' hk'
  rw [inputsOf_of_get? hk', inputsOf_of_get? hk, he]

end

/-- What is left keeps its edges to what is left, in their order, and no others. -/
theorem Prunes.get? (h : Prunes net net') (hb : net.Balanced) (hb' : net'.Balanced) {k : Component}
    (hk : net.get? c = some k) (hc : net'.contains c) :
    net'.get? c = some { k with outputs := k.outputs.filter net'.contains } := by
  obtain ⟨k', hk'⟩ := contains_iff.mp hc
  obtain ⟨k₀, hk₀, he, hsub⟩ := h.old c k' hk'
  rw [hk, Option.some.injEq] at hk₀
  subst hk₀
  have hcount : ∀ b, k'.outputs.count b = (k.outputs.filter net'.contains).count b := by
    intro b
    have hout : k'.outputs.count b = net'.edgesIn c b := by rw [← hb' c b, edgesOut, outputsOf_of_get? hk']
    have hold : k.outputs.count b = net.edgesIn c b := by rw [← hb c b, edgesOut, outputsOf_of_get? hk]
    rw [hout]
    by_cases hlive : net'.contains b
    · rw [count_filter hlive, hold, edgesIn, edgesIn, h.inputsOf hlive]
    have hnot : b ∉ k.outputs.filter net'.contains := fun hb => hlive (mem_filter.mp hb).2
    rw [count_eq_zero.mpr hnot, edgesIn, count_eq_zero]
    exact fun hin => hlive (contains_of_mem_inputsOf hin)
  have hperm : k'.outputs.Perm (k.outputs.filter net'.contains) := perm_iff_count.mpr hcount
  have hall : k'.outputs.filter net'.contains = k'.outputs :=
    filter_eq_self.mpr fun b hb => (mem_filter.mp (hperm.mem_iff.mp hb)).2
  have heq : k'.outputs = k.outputs.filter net'.contains := by
    refine List.Sublist.eq_of_length ?_ hperm.length_eq
    rw [← hall]
    exact hsub.filter _
  rw [hk', he, heq]

end Prunes

end Network

namespace DeadEnds

open Network

structure Pruning (kept : List CompId) (net : Network) (s : State) : Prop where
  prunes : Prunes net s.net
  balanced : s.net.Balanced
  dead : ∀ c, net.contains c = true → s.net.contains c = false → ¬ net.Needed kept c
  suspected : Suspected kept s.net s.suspects
  number : net.ids.countP (fun c => !s.net.contains c) = s.removed

section Pruning

variable {kept : List CompId} {net : Network}

theorem countP_succ {p q : CompId → Bool} {c : CompId} {ids : List CompId} (hn : ids.Nodup)
    (hc : c ∈ ids) (hp : p c = false) (hq : q c) (h : ∀ d, d ≠ c → q d = p d) :
    ids.countP q = ids.countP p + 1 := by
  obtain ⟨l, r, rfl⟩ := append_of_mem hc
  have hl : c ∉ l := fun hm => (nodup_append.mp hn).2.2 c hm c mem_cons_self rfl
  have hr : c ∉ r := (nodup_cons.mp (nodup_append.mp hn).2.1).1
  have hsame : ∀ m : List CompId, c ∉ m → m.countP q = m.countP p := fun m hm =>
    countP_congr fun d hd => by rw [h d (ne_of_mem_of_not_mem hd hm)]
  rw [countP_append, countP_append, countP_cons_of_pos hq,
    countP_cons_of_neg (by rw [hp]; exact Bool.false_ne_true), hsame l hl, hsame r hr]
  exact (Nat.add_assoc _ _ 1).symm

theorem pruning_start (kept : List CompId) (hb : net.Balanced) : Pruning kept net
      ⟨net, ((net.components.filter fun x => x.2.outputs.isEmpty).map (·.1)).reverse, 0⟩ where
  prunes := .refl net
  balanced := hb
  dead c hc hc' := by
    rw [hc] at hc'
    cases hc'
  suspected := suspected_start kept net
  number := countP_eq_zero.mpr fun c hc => by
    rw [mem_ids.mp hc]
    exact Bool.false_ne_true

theorem Pruning.drop {cur : Network} {c : CompId} {rest : List CompId} {removed : Nat} {k : Component}
    (h : Pruning kept net ⟨cur, c :: rest, removed⟩) (hk : cur.get? c = some k) (ho : k.outputs = [])
    (hkept : c ∉ kept) (hop : k.op ≠ .constant) :
    Pruning kept net ⟨(k.inputs.foldl (release c) (cur.remove c, rest)).1,
      (k.inputs.foldl (release c) (cur.remove c, rest)).2, removed + 1⟩ := by
  obtain ⟨hprunes, hbal, hdead, hsus, hnumber⟩ := h
  dsimp only at hprunes hbal hdead hsus hnumber
  have hlive := contains_of_get? hk
  have hr := release_fold hbal hk ho rest
  have e := hr.edit hbal hk ho
  have hfold := prunes_release_fold cur rest k.inputs c
  generalize k.inputs.foldl (release c) (cur.remove c, rest) = s at hr e hfold
  have hnot : ¬ net.Needed kept c := by
    rw [needed_iff, ← hprunes.op? hlive, op?_of_get? hk]
    rintro (hm | hm | ⟨b, hcb, hb⟩)
    · exact hkept hm
    · exact hop (Option.some.inj hm)
    refine hdead b (contains_of_mem_inputsOf hcb) (Bool.eq_false_iff.mpr fun hblive => ?_) hb
    have hout : b ∈ cur.outputsOf c := by
      rw [hbal.mem_iff, hprunes.inputsOf hblive]
      exact hcb
    rw [outputsOf_of_get? hk, ho] at hout
    cases hout
  refine ⟨hprunes.trans hfold, e.wired.balanced, fun d hd hd' => ?_, hsus.drop hr hbal hk ho, ?_⟩
  · by_cases hdc : d = c
    · exact hdc ▸ hnot
    · exact hdead d hd ((e.contains hdc).symm.trans hd')
  · rw [countP_succ net.nodup_ids (mem_ids.mpr (hprunes.contains hlive)) (p := fun d => !cur.contains d)
      (by rw [hlive]; rfl) (by rw [e.missing c rfl]; rfl) fun d hdc => by rw [e.contains hdc], hnumber]

theorem Pruning.turn (s : State) (h : Pruning kept net s) : (DeadEnds.turn kept s).Yields (Guarantee.Reaches
      (fun s' => Pruning kept net s' ∧ workLeft s' < workLeft s)
      fun r => Pruning kept net ⟨r.1, [], r.2⟩) := by
  refine (turn_yields kept s).mono fun t ht => ?_
  obtain ⟨cur, suspects, removed⟩ := s
  cases ht with
  | ended hnil =>
    cases hnil
    exact h
  | @clear c rest hcons hc =>
    cases hcons
    exact ⟨{ h with suspected := h.suspected.clear hc }, workLeft_clear cur c rest removed⟩
  | @drop c rest k hcons hk ho hkept hop =>
    cases hcons
    exact ⟨h.drop hk ho hkept hop, (release_fold h.balanced hk ho rest).workLeft_lt hk removed⟩

/-- When no suspect is left, all that is left is needed. -/
theorem Pruning.needed {cur : Network} {removed : Nat} (h : Pruning kept net ⟨cur, [], removed⟩)
    (hb : net.Balanced) {c : CompId} (hc : cur.contains c) : net.Needed kept c := by
  obtain ⟨rank, hrank, hle⟩ := exists_rank_of_not_needed hb kept
  -- what is not needed feeds something of a higher rank, which cannot go on for ever
  induction hn : net.capacity - rank c using Nat.strong_induction_on generalizing c with
  | _ n ih =>
    by_contra hnot
    have hne : cur.outputsOf c ≠ [] := fun ho => by
      rcases h.suspected c hc ho with hm | hm | hm
      · exact hnot (needed_iff.mpr (.inl hm))
      · exact hnot (needed_iff.mpr (.inr (.inl ((h.prunes.op? hc).symm.trans hm))))
      · cases hm
    obtain ⟨b, hcb⟩ := exists_mem_of_ne_nil _ hne
    have hblive := h.balanced.contains_target hcb
    have hfeeds : net.Feeds c b := by
      rw [Feeds, ← h.prunes.inputsOf hblive, ← h.balanced.mem_iff]
      exact hcb
    have hlt := hrank c b hfeeds hnot
    have hmax := hle b
    have hneed : net.Needed kept b := ih (net.capacity - rank b) (by omega) hblive rfl
    exact hnot (needed_iff.mpr (.inr (.inr ⟨b, hfeeds, hneed⟩)))

end Pruning

end DeadEnds

namespace Network

theorem removeDeadEnds_pruning {net : Network} (hb : net.Balanced) (kept : List CompId) :
    (net.removeDeadEnds kept).Yields fun r => DeadEnds.Pruning kept net ⟨r.1, [], r.2⟩ :=
  Checked.total.run (DeadEnds.Pruning kept net) DeadEnds.workLeft _ DeadEnds.Pruning.turn
    (DeadEnds.pruning_start kept hb) (DeadEnds.workLeft_start net)

/-- Removing dead ends comes to an end in every network, with cycles or without. What it leaves is just
what is needed, and there everything is as it was but for the edges to what is gone. -/
theorem removeDeadEnds_leaves_needed (net : Network) (kept : List CompId) (hb : net.Balanced) :
    ∃ net' n, net.removeDeadEnds kept = .ok (net', n) ∧
      (∀ c, net'.contains c = true ↔ net.contains c = true ∧ net.Needed kept c) ∧
      (∀ c k, net.get? c = some k → net'.contains c = true →
        net'.get? c = some { k with outputs := k.outputs.filter net'.contains }) ∧
      net'.Balanced ∧ net'.parts = net.parts ∧
      n = (net.ids.filter fun c => !net'.contains c).length := by
  obtain ⟨⟨net', n⟩, hrun, h⟩ := removeDeadEnds_pruning hb kept
  refine ⟨net', n, hrun, fun c => ⟨fun hc => ⟨h.prunes.contains hc, h.needed hb hc⟩, fun hc => ?_⟩,
    fun c k hk hc => h.prunes.get? hb h.balanced hk hc, h.balanced, h.prunes.parts, ?_⟩
  · by_contra hnot
    exact h.dead c hc.1 (Bool.eq_false_iff.mpr hnot) hc.2
  · rw [← List.countP_eq_length_filter]
    exact h.number.symm

/-- A base that leads into a ring of two ORs, which nothing reads, and to an AND that is read by a NOT
without outputs. -/
def eddy : Network :=
  let prop (role : PropRole) (text : String) : Kind := .proposition { role, term := .atom text }
  { roles := []
    slots := #[
      some { kind := prop .base "a", outputs := [3, 1, 3] },
      some { kind := .or, inputs := [0, 2], outputs := [2] },
      some { kind := .or, inputs := [1], outputs := [1] },
      some { kind := .and, inputs := [0, 0, 4], outputs := [5], reqTrue := 3, reqFalse := 2 },
      some { kind := .constant, outputs := [3] },
      some { kind := .not, inputs := [3], sign := -1 },
      some { kind := prop .terminal "terminal" }]
    terminal := 6 }

/-- The NOT goes and then the AND. The ring stays, and so do the base, the constant and the terminal. -/
theorem removeDeadEnds_leaves_needed_eddy :
    eddy.Balanced ∧ Relation.TransGen eddy.Feeds 1 1 ∧
      ∃ net' n, eddy.removeDeadEnds [6] = .ok (net', n) ∧ n = 2 ∧ net'.Balanced ∧
        net'.contains 3 = false ∧ net'.contains 5 = false ∧
        net'.outputsOf 0 = [1] ∧ net'.outputsOf 4 = [] ∧ net'.inputsOf 1 = [0, 2] := by
  have hb : eddy.Balanced := by decide
  have h12 : eddy.Feeds 1 2 := (by decide : 1 ∈ eddy.inputsOf 2)
  have h21 : eddy.Feeds 2 1 := (by decide : 2 ∈ eddy.inputsOf 1)
  have h01 : eddy.Feeds 0 1 := (by decide : 0 ∈ eddy.inputsOf 1)
  have hring : Relation.TransGen eddy.Feeds 1 1 := .tail (.single h12) h21
  obtain ⟨net', n, hrun, hlive, hsame, hb', -, hn⟩ := removeDeadEnds_leaves_needed eddy [6] hb
  have hstays : ∀ c, eddy.contains c = true → eddy.Needed [6] c → net'.contains c = true :=
    fun c hc hneed => (hlive c).mpr ⟨hc, hneed⟩
  have n1 : eddy.Needed [6] 1 := ⟨1, .refl, .inr (.inr hring)⟩
  have n2 : eddy.Needed [6] 2 := needed_iff.mpr (.inr (.inr ⟨1, h21, n1⟩))
  have n0 : eddy.Needed [6] 0 := needed_iff.mpr (.inr (.inr ⟨1, h01, n1⟩))
  have n5 : ¬ eddy.Needed [6] 5 := by
    rw [needed_iff]
    rintro (hm | hm | ⟨b, hb5, -⟩)
    · exact absurd hm (by decide)
    · exact absurd hm (by decide)
    · have hnil : b ∈ ([] : List CompId) := hb.mem_iff.mpr hb5
      cases hnil
  have n3 : ¬ eddy.Needed [6] 3 := by
    rw [needed_iff]
    rintro (hm | hm | ⟨b, hb3, hneed⟩)
    · exact absurd hm (by decide)
    · exact absurd hm (by decide)
    · have hb5 : b ∈ [5] := hb.mem_iff.mpr hb3
      rw [List.mem_singleton.mp hb5] at hneed
      exact n5 hneed
  have c0 := hstays 0 (by decide) n0
  have c1 := hstays 1 (by decide) n1
  have c2 := hstays 2 (by decide) n2
  have c4 := hstays 4 (by decide) (needed_iff.mpr (.inr (.inl (by decide))))
  have c6 := hstays 6 (by decide) (needed_iff.mpr (.inl (by decide)))
  have c3 : net'.contains 3 = false := Bool.eq_false_iff.mpr fun hc => n3 ((hlive 3).mp hc).2
  have c5 : net'.contains 5 = false := Bool.eq_false_iff.mpr fun hc => n5 ((hlive 5).mp hc).2
  have hids : eddy.ids = [0, 1, 2, 3, 4, 5, 6] := by decide
  refine ⟨hb, hring, net', n, hrun, ?_, hb', c3, c5, ?_, ?_, ?_⟩
  · rw [hn, hids]
    simp [c0, c1, c2, c3, c4, c5, c6]
  · rw [outputsOf_of_get? (hsame 0 _ rfl c0)]
    simp [c1, c3]
  · rw [outputsOf_of_get? (hsame 4 _ rfl c4)]
    simp [c3]
  · rw [inputsOf_of_get? (hsame 1 _ rfl c1)]

end Network

end GameNet
