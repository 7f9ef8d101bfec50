import GameNet.Proofs.Listing.Index
import GameNet.Proofs.Variants.Goals

/-!
The roster: every legal and every goal is listed once, for one player, and a legal is paired with the
input for the same move.
-/

namespace GameNet

open List Option

namespace Network

def move? (net : Network) (c : CompId) : Option Term := (net.proposition? c).bind (·.move)

structure Rostered (net : Network) : Prop where
  legals : net.legals.Nodup
  goals : net.goals.Nodup
  move : ∀ l i, net.pairedInput? l = some i → net.move? l = net.move? i

section Rostered

variable {net net' : Network} {f : CompId → CompId} {pairs : List (CompId × CompId)}

theorem Rostered.of_old (h : net.Rostered)
    (hold : ∀ c p, net'.proposition? c = some p → net.proposition? c = some p) (hcast : net'.Cast)
    (hlegals : net'.legals.Sublist net.legals) (hgoals : net'.goals.Sublist net.goals) : net'.Rostered where
  legals := h.legals.sublist hlegals
  goals := h.goals.sublist hgoals
  move l i hi := by
    obtain ⟨p, hp, hpi⟩ := bind_eq_some_iff.mp ((pairedInput?_eq net' l).symm.trans hi)
    obtain ⟨q, hq, -⟩ := isRole_iff.mp (hcast.inputs i (hcast.paired l i hi).2.1)
    have hold' : net.pairedInput? l = some i := by rwa [pairedInput?_eq, hold l p hp]
    rw [move?, move?, hp, hq, ← hold l p hp, ← hold i q hq]
    exact h.move l i hold'

theorem perm_flatMap_of_forall₂ {ps qs : List Player} (view : Player → List CompId)
    (h : List.Forall₂ (fun p q => (view q).Perm ((view p).map f)) ps qs) :
    (qs.flatMap view).Perm ((ps.flatMap view).map f) := by
  induction h with
  | nil => exact .refl _
  | cons hpq _ ih =>
    rw [flatMap_cons, flatMap_cons, map_append]
    exact hpq.append ih

theorem Renames.move? (h : Renames f net net') (c : CompId) : net'.move? (f c) = net.move? c := by
  rw [Network.move?, h.proposition?, Network.move?, bind_map]
  rfl

theorem Renames.rostered (h : Renames f net net') (hr : net.Rostered) : net'.Rostered where
  legals := by
    refine (perm_flatMap_of_forall₂ Player.legals (h.players.imp fun p q hpq => hpq.2.1)).nodup_iff.mpr ?_
    exact hr.legals.map h.injective
  goals := by
    refine (perm_flatMap_of_forall₂ Player.goals (h.players.imp fun p q hpq => .of_eq hpq.2.2)).nodup_iff.mpr ?_
    exact hr.goals.map h.injective
  move d e hde := by
    have hlive : net'.contains d := by
      obtain ⟨k, hk, -⟩ := bind_eq_some_iff.mp hde
      exact contains_of_get? hk
    obtain ⟨l, -, rfl⟩ := h.onto d hlive
    rw [h.pairedInput?] at hde
    obtain ⟨i, hi, rfl⟩ := map_eq_some_iff.mp hde
    rw [h.move?, h.move?]
    exact hr.move l i hi

theorem Registered.nodup_flatMap (h : Registered net pairs net') (view : Player → List CompId)
    (hnodup : ∀ r name, (view (net.playerFor r name)).Nodup)
    (hown : ∀ r s name name' c, c ∈ view (net.playerFor r name) → c ∈ view (net.playerFor s name') → r = s) :
    (net'.players.flatMap view).Nodup := by
  refine List.nodup_flatMap.mpr ⟨fun p hp => ?_, pairwise_iff_getElem.mpr fun r s hr hs hrs => ?_⟩
  · obtain ⟨r, hr⟩ := getElem?_of_mem hp
    obtain ⟨name, rfl⟩ := h.getElem?_players hr
    exact hnodup r name
  obtain ⟨name, hp⟩ := h.getElem?_players (getElem?_eq_getElem hr)
  obtain ⟨name', hq⟩ := h.getElem?_players (getElem?_eq_getElem hs)
  rw [Function.onFun, hp, hq]
  exact fun c hc hc' => Nat.ne_of_lt hrs (hown r s name name' c hc hc')

theorem Registered.nodup_legals (h : Registered net pairs net') : net'.legals.Nodup := by
  refine h.nodup_flatMap Player.legals (fun r name => (nodup_withRole net .legal).filter _) ?_
  intro r s name name' c hc hc'
  have hr := (mem_filter.mp hc).2
  have hs := (mem_filter.mp hc').2
  rw [Bool.and_eq_true, beq_iff_eq] at hr hs
  exact hr.1.symm.trans hs.1

theorem Registered.nodup_goals (h : Registered net pairs net') : net'.goals.Nodup := by
  refine h.nodup_flatMap Player.goals (fun r name => (nodup_withRole net .goal).filter _) ?_
  intro r s name name' c hc hc'
  have hr := (mem_filter.mp hc).2
  have hs := (mem_filter.mp hc').2
  rw [beq_iff_eq] at hr hs
  exact Option.some.inj (hr.symm.trans hs)

end Rostered

structure Arranged (net : Network) : Prop where
  formed : net.Formed
  aligned : net.Aligned
  rostered : net.Rostered
  width : net.initialState.length = net.bases.length

end Network

/-! ## Compiled networks and their variants -/

namespace Listing

open Network

section Compiled

variable {l : Listing} {opts : Options} {flat cut last net : Network} {pairs : List (CompId × CompId)}

theorem Built.rostered (h : Built l flat pairs net) : net.Rostered where
  legals := h.recorded.nodup_legals
  goals := h.recorded.nodup_goals
  move c i hi := by
    obtain ⟨-, move, hc, hi⟩ := h.isRole_input hi
    have hmove : ∀ {a}, net.moveKey? a = some move → net.move? a = some move.2 := fun ha => by
      obtain ⟨p, hp, ha⟩ := bind_eq_some_iff.mp ha
      obtain ⟨r, -, ha⟩ := bind_eq_some_iff.mp ha
      obtain ⟨m, hm, rfl⟩ := map_eq_some_iff.mp ha
      rw [Network.move?, hp]
      exact hm
    rw [hmove hc, hmove hi]

theorem Compiled.rostered (h : Compiled l opts cut last net) : net.Rostered := by
  obtain ⟨flat, pairs, built, hbuilt, hcut⟩ := h.built
  obtain ⟨capped, counted, f, hcapped, hrec, hfin, -, -, hre⟩ := h.finishing.same
  refine hre.rostered ?_
  have hline := h.lineage.later hcapped
  have hplayers : counted.players = built.players := by
    rw [field_of_parts Network.players hrec.parts, hline.players, field_of_parts Network.players hcut.parts]
  refine hbuilt.rostered.of_old (fun c p hp => ?_) hfin.formed.toCast ?_ ?_
  · rw [proposition?_of_kind? (hrec.kind? c)] at hp
    exact (hcut.proposition? c).symm.trans (hline.proposition? hp)
  · rw [Network.legals, hplayers]
    exact .refl _
  · rw [Network.goals, hplayers]
    exact .refl _

theorem Compiled.arranged (h : Compiled l opts cut last net) : net.Arranged :=
  ⟨h.finished.formed, h.finishing.aligned, h.rostered, h.width⟩

end Compiled

end Listing

namespace Network

variable {net : Network}

theorem Finished.goalless_arranged (h : net.Finished) (ha : net.Arranged) (opts : Options) :
    (net.goalless opts).Ensures Arranged := by
  intro events net' hok
  obtain ⟨contains, bare, hlater, hparts, hr⟩ := h.goalless_readied opts events net' hok
  have hplays := h.goalless opts events net' hok
  have hplayers : net'.players = net.playersIn contains :=
    (hr.field Network.players).trans (field_of_parts Network.players hparts)
  obtain ⟨hlegals, hgoals⟩ := net.flatMap_playersIn contains
  refine ⟨hr.finished.formed, fun p' hp' => ?_, ha.rostered.of_old (fun c p hp => ?_)
    hr.finished.formed.toCast ?_ ?_, by rw [hplays.start, hplays.bases, ha.width]⟩
  · rw [hplayers] at hp'
    obtain ⟨p, hp, rfl⟩ := mem_map.mp hp'
    refine (forall₂_iff_zip.mpr ⟨(ha.aligned p hp).length_eq, fun {l i} hli => ?_⟩)
    rw [hplays.pairedInput? (mem_flatMap.mpr ⟨p, hp, (of_mem_zip hli).1⟩)]
    exact (forall₂_iff_zip.mp (ha.aligned p hp)).2 hli
  · rw [proposition?_of_kind? (hr.kind c)] at hp
    exact hlater.keeps.proposition?_of_some hp
  · rw [Network.legals, hplayers, hlegals]
  · rw [Network.goals, hplayers, hgoals]
    exact filter_sublist

theorem Finished.goalsOnly_arranged (h : net.Finished) (ha : net.Arranged) (opts : Options) :
    (net.goalsOnly opts).Ensures Arranged := by
  refine (h.goalsOnly_readied opts).mono fun net' hnet' => ?_
  obtain ⟨last, ref, hkeeps, hparts, -, -, hr⟩ := hnet'
  have hplayers : net'.players = net.unlisted.players :=
    (hr.field Network.players).trans (field_of_parts Network.players hparts)
  have hstart : net'.initialState = net.unlisted.initialState :=
    (hr.field Network.initialState).trans (field_of_parts Network.initialState hparts)
  have hbases : net'.bases = net.unlisted.bases :=
    (hr.field Network.bases).trans (field_of_parts Network.bases hparts)
  refine ⟨hr.finished.formed, fun p' hp' => ?_, ha.rostered.of_old (fun c p hp => ?_)
    hr.finished.formed.toCast ?_ ?_, by rw [hstart, hbases]; exact ha.width⟩
  · rw [hplayers] at hp'
    obtain ⟨p, -, rfl⟩ := mem_map.mp hp'
    exact .nil
  · rw [proposition?_of_kind? (hr.kind c)] at hp
    exact hkeeps.proposition?_of_some hp
  · rw [Network.legals, hplayers, ← Network.legals, legals_unlisted]
    exact nil_sublist _
  · rw [Network.goals, hplayers, ← Network.goals, goals_unlisted]

end Network

end GameNet
