import GameNet.Control.Loops
import GameNet.Proofs.Circuit
import Mathlib.Data.List.Nodup
import Mathlib.Data.List.Perm.Basic
import Mathlib.Logic.Relation
import Mathlib.Order.Lattice

/-!
Groups of linked ids.

The roots tell which ids are connected by the links so far, and making the ways to them shorter shows
nowhere.
-/

namespace GameNet.Control

open List

/-! ## Tables -/

section Table

variable {β : Type} {t : Table β} {k x : CompId} {v : β}

theorem mem_set {entry : CompId × β} : entry ∈ t.set k v ↔ entry ∈ t ∧ entry.1 ≠ k ∨ entry = (k, v) := by
  simp only [Table.set, Table.erase, mem_append, mem_filter, decide_eq_true_eq, mem_singleton]

theorem mem_keys_set : x ∈ (t.set k v).keys ↔ x ∈ t.keys ∨ x = k := by
  simp only [Table.keys, mem_map, mem_set]
  grind

theorem nodup_keys_set (h : t.keys.Nodup) : (t.set k v).keys.Nodup := by
  rw [Table.keys, Table.set, map_append, map_singleton, nodup_append]
  refine ⟨h.sublist (filter_sublist.map _), nodup_singleton k, fun x hx y hy heq => ?_⟩
  obtain ⟨entry, hentry, rfl⟩ := mem_map.mp hx
  exact of_decide_eq_true (mem_filter.mp hentry).2 (heq.trans (mem_singleton.mp hy))

theorem mem_of_lookup (h : t.lookup k = some v) : (k, v) ∈ t := by
  obtain ⟨before, after, rfl, -⟩ := lookup_eq_some_iff.mp h
  exact mem_append_right _ mem_cons_self

theorem lookup_isSome_iff : (t.lookup k).isSome ↔ k ∈ t.keys := by
  constructor
  · intro h
    obtain ⟨v, hv⟩ := Option.isSome_iff_exists.mp h
    exact mem_map_of_mem (mem_of_lookup hv)
  · intro h
    obtain ⟨entry, hentry, rfl⟩ := mem_map.mp h
    rw [Option.isSome_iff_ne_none]
    intro hnone
    simpa using lookup_eq_none_iff.mp hnone _ hentry

end Table

/-! ## Roots -/

namespace Forest

variable {f : Forest} {x y r s : CompId}

def ids (f : Forest) : List CompId := f.parents.keys

theorem mem_ids_setParent (h : s ≤ r) : x ∈ (f.setParent r s h).ids ↔ x ∈ f.ids ∨ x = r := mem_keys_set

theorem nodup_ids_setParent (hd : f.ids.Nodup) (h : s ≤ r) : (f.setParent r s h).ids.Nodup := nodup_keys_set hd

theorem add_eq (f : Forest) (x : CompId) : f.add x = f ∧ x ∈ f.ids ∨
    f.add x = f.setParent x x (Nat.le_refl x) ∧ f.root x = x := by
  by_cases h : (f.parents.lookup x).isSome
  · exact .inl ⟨if_pos h, lookup_isSome_iff.mp h⟩
  · exact .inr ⟨if_neg h, root_of_none (Option.not_isSome_iff_eq_none.mp h)⟩

theorem root_add (f : Forest) (x z : CompId) : (f.add x).root z = f.root z := by
  rcases f.add_eq x with ⟨heq, -⟩ | ⟨heq, hroot⟩
  · rw [heq]
  · rw [heq, root_setParent hroot]

theorem mem_ids_add : y ∈ (f.add x).ids ↔ y ∈ f.ids ∨ y = x := by
  rcases f.add_eq x with ⟨heq, hx⟩ | ⟨heq, -⟩
  · rw [heq]
    exact ⟨.inl, fun h => h.elim id (· ▸ hx)⟩
  · rw [heq, mem_ids_setParent]

theorem nodup_ids_add (h : f.ids.Nodup) : (f.add x).ids.Nodup := by
  rcases f.add_eq x with ⟨heq, -⟩ | ⟨heq, -⟩
  · rwa [heq]
  · rw [heq]
    exact nodup_ids_setParent h _

theorem compress_spec (f : Forest) (y r : CompId) (h : f.root y = r) :
    (∀ z, (f.compress y r h).root z = f.root z) ∧ (∀ x, x ∈ (f.compress y r h).ids ↔ x ∈ f.ids) ∧
      (f.ids.Nodup → (f.compress y r h).ids.Nodup) := by
  fun_induction compress f y r h with
  | case1 f h => exact ⟨fun _ => rfl, fun _ => Iff.rfl, id⟩
  | case2 f y h hy p hp ih =>
    obtain ⟨hroot, hids, hnodup⟩ := ih
    have hmem : y ∈ f.ids := mem_map_of_mem (mem_of_lookup hp)
    refine ⟨fun z => (hroot z).trans (root_setParent h _ z), fun x => ?_,
      fun hd => hnodup (nodup_ids_setParent hd _)⟩
    rw [hids, mem_ids_setParent]
    exact ⟨fun hx => hx.elim id (· ▸ hmem), .inl⟩

theorem find_spec (f : Forest) (x : CompId) : ∃ f' : Forest, f.find x = (f.root x, f') ∧
    (∀ z, f'.root z = f.root z) ∧ (∀ z, z ∈ f'.ids ↔ z ∈ f.ids) ∧ (f.ids.Nodup → f'.ids.Nodup) :=
  ⟨_, rfl, f.compress_spec x _ rfl⟩

/-- Where one root gets another for a parent, the ids below it have the other root. -/
theorem root_setParent_of_lt (hr : f.root r = r) (hs : f.root s = s) (h : s < r) (z : CompId) :
    (f.setParent r s h.le).root z = if f.root z = r then s else f.root z := by
  induction z using Nat.strongRecOn with
  | ind z ih =>
    have hlookup := Table.lookup_set r s f.parents z
    by_cases hz : z = r
    · subst hz
      rw [if_pos rfl] at hlookup
      rw [root_of_lookup hlookup, ih s h, hs, if_neg h.ne, if_pos hr]
    rw [if_neg hz] at hlookup
    cases hp : f.parents.lookup z with
    | none => rw [root_of_none (hlookup.trans hp), root_of_none hp, if_neg hz]
    | some p =>
      rcases (f.le_of_lookup hp).lt_or_eq with hlt | rfl
      · rw [root_of_lookup (hlookup.trans hp), root_of_lookup hp, ih p hlt]
      · rw [root_of_self (hlookup.trans hp), root_of_self hp, if_neg hz]

/-- Two ids are found, and then the larger of their roots gets the smaller one for a parent. -/
theorem link_eq (f : Forest) (x y : CompId) : ∃ f' : Forest, (∀ z, f'.root z = f.root z) ∧
    (∀ z, z ∈ f'.ids ↔ z ∈ f.ids ∨ z = x ∨ z = y) ∧ (f.ids.Nodup → f'.ids.Nodup) ∧
    (f.root x = f.root y ∧ f.link x y = f' ∨
      f.root x ≠ f.root y ∧ ∃ h, f.link x y = f'.setParent (max (f.root x) (f.root y))
        (min (f.root x) (f.root y)) h) := by
  obtain ⟨f₁, hfind₁, hroot₁, hids₁, hnodup₁⟩ := ((f.add x).add y).find_spec x
  obtain ⟨f₂, hfind₂, hroot₂, hids₂, hnodup₂⟩ := f₁.find_spec y
  have hlink : f.link x y = if f.root x = f.root y then f₂ else
      f₂.setParent (max (f.root x) (f.root y)) (min (f.root x) (f.root y)) min_le_max := by
    simp only [link, hfind₁, hfind₂, hroot₁, root_add]
  refine ⟨f₂, fun z => ?_, fun z => ?_, fun hd => hnodup₂ (hnodup₁ (nodup_ids_add (nodup_ids_add hd))), ?_⟩
  · rw [hroot₂, hroot₁, root_add, root_add]
  · rw [hids₂, hids₁, mem_ids_add, mem_ids_add, or_assoc]
  by_cases heq : f.root x = f.root y
  · exact .inl ⟨heq, hlink.trans (if_pos heq)⟩
  · exact .inr ⟨heq, min_le_max, hlink.trans (if_neg heq)⟩

theorem root_link (f : Forest) (x y z : CompId) : (f.link x y).root z =
    if f.root z = max (f.root x) (f.root y) then min (f.root x) (f.root y) else f.root z := by
  obtain ⟨f', hroot, -, -, ⟨heq, hlink⟩ | ⟨hne, hle, hlink⟩⟩ := f.link_eq x y
  · rw [hlink, hroot, heq, max_self, min_self]
    split
    · assumption
    · rfl
  have hroots : ∀ r, r = f.root x ∨ r = f.root y → f'.root r = r := by
    rintro r (rfl | rfl)
    · rw [hroot, root_root]
    · rw [hroot, root_root]
  rw [hlink, root_setParent_of_lt (hroots _ (max_choice _ _)) (hroots _ (min_choice _ _)) (min_lt_max.mpr hne), hroot]

theorem nodup_ids_link (h : f.ids.Nodup) : (f.link x y).ids.Nodup := by
  obtain ⟨f', -, -, hnodup, ⟨-, hlink⟩ | ⟨-, hle, hlink⟩⟩ := f.link_eq x y
  · exact hlink ▸ hnodup h
  · exact hlink ▸ nodup_ids_setParent (hnodup h) hle

theorem mem_ids_link {z : CompId} (hx : f.root x ∈ f.ids ∨ f.root x = x) (hy : f.root y ∈ f.ids ∨ f.root y = y) :
    z ∈ (f.link x y).ids ↔ z ∈ f.ids ∨ z = x ∨ z = y := by
  obtain ⟨f', -, hids, -, ⟨-, hlink⟩ | ⟨-, hle, hlink⟩⟩ := f.link_eq x y
  · rw [hlink, hids]
  rw [hlink, mem_ids_setParent, hids]
  refine ⟨fun h => h.elim id ?_, .inl⟩
  rintro rfl
  rcases max_choice (f.root x) (f.root y) with h | h
  · rw [h]
    exact hx.imp id .inl
  · rw [h]
    exact hy.imp id .inr

end Forest

/-! ## Connected components -/

section Components

variable {R T : CompId → CompId → Prop} {S : CompId → Prop} {f : Forest} {x y : CompId}
  {links : Links} {gs gs' : List (List CompId)} {g : List CompId}

def Lists (links : Links) (R : CompId → CompId → Prop) : Prop := ∀ b i, (b, i) ∈ links ↔ R b i

def Linked (R : CompId → CompId → Prop) (x : CompId) : Prop := ∃ y, R x y ∨ R y x

theorem eq_or_linked (h : Relation.EqvGen R x y) : x = y ∨ Linked R x ∧ Linked R y := by
  induction h with
  | rel b i hbi => exact .inr ⟨⟨i, .inl hbi⟩, b, .inr hbi⟩
  | refl x => exact .inl rfl
  | symm x y _ ih => exact ih.imp Eq.symm And.symm
  | trans x y z _ _ ihxy ihyz =>
    rcases ihxy with rfl | hxy
    · exact ihyz
    rcases ihyz with rfl | hyz
    · exact .inr hxy
    · exact .inr ⟨hxy.1, hyz.2⟩

structure Spans (R : CompId → CompId → Prop) (f : Forest) : Prop where
  ids : ∀ x, x ∈ f.ids ↔ Linked R x
  nodup : f.ids.Nodup
  same : ∀ b i, R b i → f.root b = f.root i
  joined : ∀ x, Relation.EqvGen R x (f.root x)

theorem Spans.root_eq_iff (h : Spans R f) : f.root x = f.root y ↔ Relation.EqvGen R x y := by
  constructor
  · intro heq
    exact .trans _ _ _ (h.joined x) (heq ▸ .symm _ _ (h.joined y))
  · intro he
    induction he with
    | rel b i hbi => exact h.same b i hbi
    | refl x => rfl
    | symm x y _ ih => exact ih.symm
    | trans x y z _ _ ihxy ihyz => exact ihxy.trans ihyz

theorem Spans.root_mem (h : Spans R f) (x : CompId) : f.root x ∈ f.ids ∨ f.root x = x := by
  rcases eq_or_linked (h.joined x) with heq | ⟨-, hlinked⟩
  · exact .inr heq.symm
  · exact .inl ((h.ids _).mpr hlinked)

theorem Spans.link (h : Spans R f) (hT : ∀ b i, T b i ↔ R b i ∨ b = x ∧ i = y) : Spans T (f.link x y) := by
  have hmono : ∀ b i, R b i → T b i := fun b i hbi => (hT b i).mpr (.inl hbi)
  have hjoined : ∀ z, Relation.EqvGen T z (f.root z) := fun z => Relation.EqvGen.mono hmono _ _ (h.joined z)
  have hxy : Relation.EqvGen T (f.root x) (f.root y) :=
    .trans _ _ _ (.symm _ _ (hjoined x)) (.trans _ _ _ (.rel _ _ ((hT x y).mpr (.inr ⟨rfl, rfl⟩))) (hjoined y))
  refine ⟨fun z => ?_, Forest.nodup_ids_link h.nodup, fun b i hbi => ?_, fun z => ?_⟩
  · rw [Forest.mem_ids_link (h.root_mem x) (h.root_mem y), h.ids]
    simp only [Linked, hT]
    grind
  · rw [Forest.root_link, Forest.root_link]
    rcases (hT b i).mp hbi with hbi | ⟨rfl, rfl⟩
    · rw [h.same b i hbi]
    · rcases le_total (f.root b) (f.root i) with hle | hle
      · rw [max_eq_right hle, min_eq_left hle, ite_self, if_pos rfl]
      · rw [max_eq_left hle, min_eq_right hle, ite_self, if_pos rfl]
  · rw [Forest.root_link]
    split
    · next hz =>
      refine .trans _ _ _ (hjoined z) ?_
      rw [hz]
      rcases le_total (f.root x) (f.root y) with hle | hle
      · rw [max_eq_right hle, min_eq_left hle]
        exact .symm _ _ hxy
      · rw [max_eq_left hle, min_eq_right hle]
        exact hxy
    · exact hjoined z

/-- However the links come, the forest is grown from all of them. -/
theorem spans_foldl (links : Links) : ∀ {R f}, Spans R f →
    Spans (fun b i => R b i ∨ (b, i) ∈ links) (links.foldl (fun f (b, i) => f.link b i) f) := by
  induction links with
  | nil => simp
  | cons link links ih =>
    intro R f h
    have hnext := ih (h.link (T := fun b i => R b i ∨ b = link.1 ∧ i = link.2) fun b i => Iff.rfl)
    simpa only [foldl_cons, mem_cons, or_assoc, Prod.ext_iff] using hnext

structure Sorts (root : CompId → CompId) (done : List CompId) (t : Table (List CompId)) : Prop where
  nodup : t.keys.Nodup
  mem : ∀ r g, (r, g) ∈ t ↔ g ≠ [] ∧ g = done.filter (root · = r)

theorem Sorts.lookup {root : CompId → CompId} {done : List CompId} {t : Table (List CompId)}
    (h : Sorts root done t) (r : CompId) : (t.lookup r).getD [] = done.filter (root · = r) := by
  cases hr : t.lookup r with
  | some g => exact ((h.mem r g).mp (mem_of_lookup hr)).2
  | none =>
    by_contra hne
    have hmem := (h.mem r _).mpr ⟨Ne.symm hne, rfl⟩
    simpa using lookup_eq_none_iff.mp hr _ hmem

theorem Sorts.collect {root : CompId → CompId} (xs : List CompId) : ∀ {f : Forest} {done t},
    (∀ z, f.root z = root z) → Sorts root done t → Sorts root (done ++ xs) (f.collect xs t) := by
  induction xs with
  | nil =>
    intro f done t _ h
    rwa [append_nil]
  | cons x xs ih =>
    intro f done t hroot h
    obtain ⟨f', hfind, hroot', -⟩ := f.find_spec x
    have hnext : Sorts root (done ++ [x]) (t.set (root x) (done.filter (root · = root x) ++ [x])) := by
      refine ⟨nodup_keys_set h.nodup, fun r g => ?_⟩
      rw [mem_set, h.mem, filter_append, filter_singleton]
      by_cases hr : root x = r
      · subst hr
        simp only [ne_eq, not_true_eq_false, and_false, false_or, Prod.mk.injEq, true_and,
          decide_true]
        exact ⟨fun hg => ⟨hg ▸ by simp, hg⟩, And.right⟩
      · simp [hr, Ne.symm hr]
    rw [Forest.collect, hfind, hroot, append_cons]
    dsimp only
    rw [h.lookup]
    exact ih (fun z => (hroot' z).trans (hroot z)) hnext

/-! ## Order of the groups -/

theorem groupLe_iff {as bs : List CompId} : groupLe as bs ↔ as ≤ bs := by
  fun_induction groupLe as bs with
  | case1 bs => exact iff_of_true rfl (not_lt.mp (not_lt_nil bs))
  | case2 a as => simp
  | case3 a as b bs ih =>
    rw [← not_lt] at ih ⊢
    simp only [Bool.or_eq_true, decide_eq_true_eq, Bool.and_eq_true, beq_iff_eq, ih, cons_lt_cons_iff]
    grind

theorem groupLe_total (as bs : List CompId) : groupLe as bs ∨ groupLe bs as := by
  rw [groupLe_iff, groupLe_iff]
  exact le_total as bs

theorem groupLe_trans (as bs cs : List CompId) (hab : groupLe as bs) (hbc : groupLe bs cs) :
    groupLe as cs := groupLe_iff.mpr ((groupLe_iff.mp hab).trans (groupLe_iff.mp hbc))

/-- The groups are the connected components of `S`, each in ascending order and all of them in
lexicographic order. -/
structure Components (R : CompId → CompId → Prop) (S : CompId → Prop) (gs : List (List CompId)) : Prop
    where
  ascending : ∀ g ∈ gs, g.Pairwise (· < ·)
  ordered : gs.Pairwise (List.Lex (· < ·))
  inhabited : ∀ g ∈ gs, g ≠ []
  apart : gs.Pairwise List.Disjoint
  covers : ∀ x, (∃ g ∈ gs, x ∈ g) ↔ S x
  connected : ∀ g ∈ gs, ∀ x ∈ g, ∀ y, y ∈ g ↔ Relation.EqvGen R x y

theorem Components.subset (h : Components R S gs) (h' : Components R S gs') : gs ⊆ gs' := by
  intro g hg
  obtain ⟨x, hx⟩ := exists_mem_of_ne_nil _ (h.inhabited g hg)
  obtain ⟨g', hg', hx'⟩ := (h'.covers x).mpr ((h.covers x).mp ⟨g, hg, hx⟩)
  have heq : g = g' := (h.ascending g hg).eq_of_mem_iff (h'.ascending g' hg') fun y =>
    (h.connected g hg x hx y).trans (h'.connected g' hg' x hx' y).symm
  exact heq ▸ hg'

theorem Components.unique (h : Components R S gs) (h' : Components R S gs') : gs = gs' := by
  have : Std.Asymm (List.Lex (α := CompId) (· < ·)) := List.Lex.asymm _
  exact h.ordered.eq_of_mem_iff h'.ordered fun g => ⟨fun hg => h.subset h' hg, fun hg => h'.subset h hg⟩

/-- The groups are the classes of roots, and roots tell what is connected. -/
theorem groups_eq (h : Lists links R) (walks : Walks) : ∃ root ids t,
    (∀ x y, root x = root y ↔ Relation.EqvGen R x y) ∧ ids.Nodup ∧ (∀ x, x ∈ ids ↔ Linked R x) ∧
    Sorts root ids t ∧ groups walks links = sortBy groupLe (t.map fun (_, g) => CompId.sorted g) := by
  have hstart : Spans (fun _ _ => False) {} := by
    refine ⟨fun x => ?_, nodup_nil, fun _ _ h => h.elim, fun x => ?_⟩
    · simp [Forest.ids, Table.keys, Linked]
    · rw [Forest.root_of_none rfl]
      exact .refl x
  have hR : (fun b i => False ∨ (b, i) ∈ walks.order 0 links) = R := by
    funext b i
    rw [false_or, (walks.perm 0 links).mem_iff, h b i]
  have hspans := hR ▸ spans_foldl (walks.order 0 links) hstart
  set f := (walks.order 0 links).foldl (fun (f : Forest) (b, i) => f.link b i) {} with hf
  have hids := walks.perm 1 f.parents.keys
  have hempty : Sorts f.root [] [] := ⟨nodup_nil, fun r g => ⟨(nomatch ·), fun hg => absurd hg.2 hg.1⟩⟩
  have hsorts := Sorts.collect (walks.order 1 f.parents.keys) (fun _ => rfl) hempty
  rw [nil_append] at hsorts
  have hgroups := walks.perm 2 (f.collect (walks.order 1 f.parents.keys) [])
  exact ⟨f.root, _, _, fun x y => hspans.root_eq_iff, hids.nodup_iff.mpr hspans.nodup,
    fun x => hids.mem_iff.trans (hspans.ids x),
    ⟨(hgroups.map _).nodup_iff.mpr hsorts.nodup, fun r g => hgroups.mem_iff.trans (hsorts.mem r g)⟩, rfl⟩

theorem Sorts.mem_groups {root : CompId → CompId} {ids g : List CompId} {t : Table (List CompId)}
    (h : Sorts root ids t) : g ∈ sortBy groupLe (t.map fun (_, g) => CompId.sorted g) ↔
      ∃ r, ids.filter (root · = r) ≠ [] ∧ CompId.sorted (ids.filter (root · = r)) = g := by
  rw [(sortBy_perm _ _).mem_iff, mem_map]
  constructor
  · rintro ⟨⟨r, raw⟩, hraw, rfl⟩
    obtain ⟨hne, rfl⟩ := (h.mem r raw).mp hraw
    exact ⟨r, hne, rfl⟩
  · rintro ⟨r, hne, rfl⟩
    exact ⟨(r, _), (h.mem r _).mpr ⟨hne, rfl⟩, rfl⟩

theorem Sorts.apart {root : CompId → CompId} {ids : List CompId} {t : Table (List CompId)}
    (h : Sorts root ids t) :
    (sortBy groupLe (t.map fun (_, g) => CompId.sorted g)).Pairwise List.Disjoint := by
  have hroot : ∀ e ∈ t, ∀ x ∈ CompId.sorted e.2, root x = e.1 := by
    intro e he x hx
    rw [CompId.mem_sorted, ((h.mem e.1 e.2).mp he).2, mem_filter, decide_eq_true_eq] at hx
    exact hx.2
  refine (sortBy_perm _ _).symm.pairwise (pairwise_map.mpr ?_) fun hd => hd.symm
  refine (pairwise_map.mp h.nodup).imp_of_mem fun {e e'} he he' hne x hx hx' => ?_
  exact hne ((hroot e he x hx).symm.trans (hroot e' he' x hx'))

/-- The groups of links are the connected components of all that has a link. -/
theorem components_groups (h : Lists links R) (hS : ∀ x, S x ↔ Linked R x) (walks : Walks) :
    Components R S (groups walks links) := by
  obtain ⟨root, ids, t, hroot, hnodup, hids, hsorts, hgroups⟩ := groups_eq h walks
  rw [hgroups]
  have hclass : ∀ {r x}, x ∈ ids.filter (root · = r) ↔ Linked R x ∧ root x = r := by
    intro r x
    rw [mem_filter, hids, decide_eq_true_eq]
  have hinhabited : ∀ g ∈ sortBy groupLe (t.map fun (_, g) => CompId.sorted g), g ≠ [] := by
    intro g hg
    obtain ⟨r, hne, rfl⟩ := hsorts.mem_groups.mp hg
    obtain ⟨x, hx⟩ := exists_mem_of_ne_nil _ hne
    exact ne_nil_of_mem (CompId.mem_sorted.mpr hx)
  refine ⟨fun g hg => ?_, ?_, hinhabited, hsorts.apart, fun x => ?_, fun g hg x hx y => ?_⟩
  · obtain ⟨r, -, rfl⟩ := hsorts.mem_groups.mp hg
    have hd : (CompId.sorted (ids.filter (root · = r))).Nodup :=
      (sortBy_perm _ _).nodup_iff.mpr (hnodup.filter _)
    exact (List.Pairwise.and (CompId.pairwise_sorted _) hd).imp fun hle => hle.1.lt_of_ne hle.2
  · refine (List.Pairwise.and (pairwise_sortBy groupLe groupLe_trans groupLe_total _)
      hsorts.apart).imp_of_mem fun hg _ hle => ?_
    refine (groupLe_iff.mp hle.1).lt_of_ne fun heq => ?_
    obtain ⟨x, hx⟩ := exists_mem_of_ne_nil _ (hinhabited _ hg)
    exact hle.2 hx (heq ▸ hx)
  · rw [hS]
    constructor
    · rintro ⟨g, hg, hx⟩
      obtain ⟨r, -, rfl⟩ := hsorts.mem_groups.mp hg
      exact (hclass.mp (CompId.mem_sorted.mp hx)).1
    · intro hx
      have hxc := hclass.mpr ⟨hx, rfl⟩
      exact ⟨_, hsorts.mem_groups.mpr ⟨root x, ne_nil_of_mem hxc, rfl⟩, CompId.mem_sorted.mpr hxc⟩
  · obtain ⟨r, -, rfl⟩ := hsorts.mem_groups.mp hg
    rw [CompId.mem_sorted, hclass] at hx ⊢
    rw [← hx.2, eq_comm, hroot]
    refine ⟨And.right, fun he => ⟨?_, he⟩⟩
    rcases eq_or_linked he with rfl | ⟨-, hy⟩
    · exact hx.1
    · exact hy

end Components

end GameNet.Control
