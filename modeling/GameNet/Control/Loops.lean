import GameNet.Control.Trace

/-!
Control loops: groups of bases whose next values are values of the group.

A table has no order of its own. Whatever goes through one takes its entries as they come, and how they come
is a parameter.
-/

namespace GameNet

namespace Control

abbrev Table (β : Type) := List (CompId × β)

abbrev Links := Table CompId

/-- The order in which tables are gone through, each time another one. -/
structure Walks where
  order {α : Type} : (walk : Nat) → List α → List α
  perm {α : Type} : ∀ (walk : Nat) (entries : List α), (order walk entries).Perm entries

def Walks.listed : Walks := ⟨fun _ entries => entries, fun _ entries => .refl entries⟩

namespace Table

def erase (k : CompId) (t : Table β) : Table β := t.filter (·.1 ≠ k)

def set (k : CompId) (v : β) (t : Table β) : Table β := t.erase k ++ [(k, v)]

def keys (t : Table β) : List CompId := t.map (·.1)

theorem lookup_set (k : CompId) (v : β) (t : Table β) (x : CompId) :
    (t.set k v).lookup x = if x = k then some v else t.lookup x := by
  have herase : (t.erase k).lookup x = if x = k then none else t.lookup x := by
    induction t with
    | nil => simp [erase]
    | cons entry t ih =>
      obtain ⟨k', v'⟩ := entry
      simp only [erase, List.filter_cons, List.lookup_cons] at ih ⊢
      grind
  rw [set, List.lookup_append, herase, List.lookup_cons, List.lookup_nil]
  grind

theorem length_erase_le (k : CompId) (t : Table β) : (t.erase k).length ≤ t.length :=
  List.length_filter_le ..

theorem length_erase_lt {k : CompId} {t : Table β} (h : k ∈ t.keys) : (t.erase k).length < t.length := by
  obtain ⟨entry, hmem, rfl⟩ := List.mem_map.mp h
  exact List.length_filter_lt_length_iff_exists.mpr ⟨entry, hmem, by simp⟩

theorem length_foldl_erase_le (ks : List CompId) (t : Table β) :
    (ks.foldl (fun t k => t.erase k) t).length ≤ t.length := by
  induction ks generalizing t with
  | nil => exact Nat.le_refl _
  | cons k ks ih => exact Nat.le_trans (ih _) (length_erase_le k t)

end Table

def linkOf? (net : Network) (t : CompId) : Checked (Option (CompId × CompId)) := do
  let k ← net.get t
  match k.inputs, k.drivenBase? with
  | [i], some b => return if net.isRole i .base then some (b, i) else none
  | _, _ => return none

/-! ## Pruning -/

def dead (walks : Walks) (walk : Nat) (links : Links) : List CompId :=
  ((walks.order walk links).filter fun (_, i) => (links.lookup i).isNone).map (·.1)

theorem mem_keys_of_mem_dead {walks : Walks} {walk : Nat} {links : Links} {b : CompId}
    (h : b ∈ dead walks walk links) : b ∈ links.keys := by
  obtain ⟨link, hlink, rfl⟩ := List.mem_map.mp h
  exact List.mem_map_of_mem ((walks.perm walk links).mem_iff.mp (List.mem_filter.mp hlink).1)

theorem length_foldl_erase_lt {walks : Walks} {walk : Nat} {links : Links} {b : CompId} {bs : List CompId}
    (h : dead walks walk links = b :: bs) :
    ((b :: bs).foldl (fun t k => t.erase k) links).length < links.length :=
  Nat.lt_of_le_of_lt (Table.length_foldl_erase_le bs (links.erase b))
    (Table.length_erase_lt (mem_keys_of_mem_dead (h ▸ List.mem_cons_self)))

/-- Drops the bases that are decided by a base outside, until there is none. -/
def prune (walks : Walks) (walk : Nat) (links : Links) : Links :=
  match h : dead walks walk links with
  | [] => links
  | b :: bs => prune walks (walk + 1) ((b :: bs).foldl (fun links b => links.erase b) links)
termination_by links.length
decreasing_by exact length_foldl_erase_lt h

/-! ## Groups -/

/-- Groups of ids. The one that is its own parent stands for its group, and other parents lead there. -/
structure Forest where
  parents : Links := []
  parent_le : ∀ link ∈ parents, link.2 ≤ link.1 := by simp

namespace Forest

theorem le_of_lookup (f : Forest) {x p : CompId} (h : f.parents.lookup x = some p) : p ≤ x := by
  obtain ⟨before, after, heq, -⟩ := List.lookup_eq_some_iff.mp h
  exact f.parent_le (x, p) (heq ▸ List.mem_append_right _ List.mem_cons_self)

def setParent (f : Forest) (x p : CompId) (h : p ≤ x) : Forest where
  parents := f.parents.set x p
  parent_le link hlink := by
    rcases List.mem_append.mp hlink with hold | hnew
    · exact f.parent_le link (List.mem_filter.mp hold).1
    · exact List.mem_singleton.mp hnew ▸ h

def add (f : Forest) (x : CompId) : Forest :=
  if (f.parents.lookup x).isSome then f else f.setParent x x (Nat.le_refl x)

def root (f : Forest) (x : CompId) : CompId :=
  match _h : f.parents.lookup x with
  | none => x
  | some p => if p = x then x else f.root p
termination_by x
decreasing_by exact Nat.lt_of_le_of_ne (f.le_of_lookup ‹_›) ‹_›

theorem root_eq (f : Forest) (x : CompId) : f.root x =
    match f.parents.lookup x with
    | none => x
    | some p => if p = x then x else f.root p := by
  rw [root]
  split
  · next h => rw [h]
  · next h => rw [h]

theorem root_of_none {f : Forest} {x : CompId} (h : f.parents.lookup x = none) : f.root x = x := by
  rw [root_eq, h]

theorem root_of_self {f : Forest} {x : CompId} (h : f.parents.lookup x = some x) : f.root x = x := by
  rw [root_eq, h]
  exact if_pos rfl

theorem root_of_lookup {f : Forest} {x p : CompId} (h : f.parents.lookup x = some p) : f.root x = f.root p := by
  by_cases hp : p = x
  · rw [hp]
  · rw [root_eq, h]
    exact if_neg hp

theorem root_le (f : Forest) (x : CompId) : f.root x ≤ x := by
  fun_induction root f x with
  | case1 => exact Nat.le_refl _
  | case2 => exact Nat.le_refl _
  | case3 x p hx _ ih => exact Nat.le_trans ih (f.le_of_lookup hx)

theorem root_root (f : Forest) (x : CompId) : f.root (f.root x) = f.root x := by
  fun_induction root f x with
  | case1 x hx => exact root_of_none hx
  | case2 x hx => exact root_of_self hx
  | case3 x p hx _ ih => exact ih

/-- No root changes if a parent is replaced by the root. -/
theorem root_setParent {f : Forest} {y r : CompId} (hr : f.root y = r) (h : r ≤ y) (z : CompId) :
    (f.setParent y r h).root z = f.root z := by
  induction z using Nat.strongRecOn with
  | ind z ih =>
    have hlookup := Table.lookup_set y r f.parents z
    by_cases hz : z = y
    · subst hz
      rw [if_pos rfl] at hlookup
      rcases Nat.lt_or_eq_of_le h with hlt | rfl
      · rw [root_of_lookup hlookup, ih r hlt, ← hr, root_root]
      · rw [hr, root_of_self hlookup]
    rw [if_neg hz] at hlookup
    cases hp : f.parents.lookup z with
    | none => rw [root_of_none hp, root_of_none (hlookup.trans hp)]
    | some p =>
      rcases Nat.lt_or_eq_of_le (f.le_of_lookup hp) with hlt | rfl
      · rw [root_of_lookup hp, root_of_lookup (hlookup.trans hp), ih p hlt]
      · rw [root_of_self hp, root_of_self (hlookup.trans hp)]

/-- Has all on the way from `y` to its root `r` lead there directly. -/
def compress (f : Forest) (y r : CompId) (h : f.root y = r) : Forest :=
  if hy : y = r then f
  else
    match hp : f.parents.lookup y with
    | none => (hy ((root_of_none hp).symm.trans h)).elim
    | some p => compress (f.setParent y r (h ▸ f.root_le y)) p r
        (by rw [root_setParent h, ← root_of_lookup hp, h])
termination_by y
decreasing_by
  refine Nat.lt_of_le_of_ne (f.le_of_lookup hp) fun heq => hy ?_
  rw [← h, root_of_self (heq ▸ hp)]

def find (f : Forest) (x : CompId) : CompId × Forest := (f.root x, f.compress x (f.root x) rfl)

def link (f : Forest) (x y : CompId) : Forest :=
  let (rx, f) := ((f.add x).add y).find x
  let (ry, f) := f.find y
  if rx = ry then f else f.setParent (max rx ry) (min rx ry) (Nat.le_trans (Nat.min_le_left ..) (Nat.le_max_left ..))

def collect (f : Forest) : List CompId → Table (List CompId) → Table (List CompId)
  | [], groups => groups
  | x :: xs, groups =>
    let (r, f) := f.find x
    f.collect xs (groups.set r ((groups.lookup r).getD [] ++ [x]))

end Forest

def groupLe : List CompId → List CompId → Bool
  | [], _ => true
  | _ :: _, [] => false
  | a :: as, b :: bs => a < b || (a == b && groupLe as bs)

/-- The connected groups of bases, each in ascending order, in lexicographic order. -/
def groups (walks : Walks) (links : Links) : List (List CompId) :=
  let forest := (walks.order 0 links).foldl (fun (f : Forest) (b, i) => f.link b i) {}
  let groups := forest.collect (walks.order 1 forest.parents.keys) []
  sortBy groupLe ((walks.order 2 groups).map fun (_, g) => CompId.sorted g)

end Control

def Network.controlLoopsBy (walks : Control.Walks) (net : Network) (controls : List CompId) :
    Checked (List (List CompId)) := do
  let links ← controls.foldlM (fun links t => do
    return match ← Control.linkOf? net t with
      | some (b, i) => Control.Table.set b i links
      | none => links) ([] : Control.Links)
  return Control.groups walks (Control.prune walks 3 links)

def Network.controlLoops (net : Network) (controls : List CompId) : Checked (List (List CompId)) :=
  net.controlLoopsBy .listed controls

end GameNet
