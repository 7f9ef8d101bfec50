import GameNet.Eval.Forward
import GameNet.Proofs.Wiring
import Mathlib.Data.List.Perm.Subperm

/-!
Weights summed over the live components, and the extent of a network, which bounds its loops.
-/

namespace GameNet

open List Option

namespace Loop

theorem allowance_add (k j : Nat) : allowance (k + j) = allowance k * allowance j := by
  induction j with
  | zero => rw [Nat.add_zero, allowance, Nat.mul_one]
  | succ j ih => rw [← Nat.add_assoc, allowance, allowance, ih, Nat.mul_add]

theorem allowance_mono {k j : Nat} (h : k ≤ j) : allowance k ≤ allowance j := by
  obtain ⟨i, rfl⟩ := Nat.exists_eq_add_of_le h
  exact allowance_le_add k i

theorem allowance_eq (k : Nat) : allowance k = Nat.pow 2 k := by
  induction k with
  | zero => rfl
  | succ k ih => rw [allowance, ih, Nat.pow_eq, Nat.pow_eq, Nat.pow_succ]; omega

end Loop

namespace Network

def total (w : Component → Nat) (net : Network) : Nat :=
  net.slots.toList.foldr (fun slot n => slot.elim 0 w + n) 0

section Sums

variable {w : Component → Nat} {net : Network} {k : Component} {c : CompId}

private theorem foldr_modify (f : Option Component → Option Component) (l : List (Option Component)) :
    ∀ (c : Nat) (slot : Option Component), l[c]? = some slot →
      (l.modify c f).foldr (fun slot n => slot.elim 0 w + n) 0 + slot.elim 0 w =
        l.foldr (fun slot n => slot.elim 0 w + n) 0 + (f slot).elim 0 w := by
  induction l with
  | nil => intro c slot h; simp at h
  | cons x l ih =>
    intro c slot h
    cases c with
    | zero =>
      simp only [getElem?_cons_zero, Option.some.injEq] at h
      subst h
      simp only [modify_zero_cons, foldr_cons]
      omega
    | succ c =>
      rw [getElem?_cons_succ] at h
      have := ih c slot h
      simp only [modify_succ_cons, foldr_cons]
      omega

theorem total_modify (hk : net.get? c = some k)
    (f : Component → Component) : (net.modify c f).total w + w k = net.total w + w (f k) := by
  have hs : net.slots.toList[c]? = some (some k) := by
    rw [Array.getElem?_toList]
    exact join_eq_some_iff.mp hk
  have h := foldr_modify (w := w) (Option.map f) net.slots.toList c (some k) hs
  rwa [← Array.toList_modify] at h

theorem total_remove (hk : net.get? c = some k) : (net.remove c).total w + w k = net.total w := by
  have hs : net.slots.toList[c]? = some (some k) := by
    rw [Array.getElem?_toList]
    exact join_eq_some_iff.mp hk
  have h := foldr_modify (w := w) (fun _ => none) net.slots.toList c (some k) hs
  rwa [← Array.toList_modify] at h

theorem total_modify_of_eq (net : Network) (c : CompId) {f : Component → Component}
    (hf : ∀ k, w (f k) = w k) : (net.modify c f).total w = net.total w := by
  cases hk : net.get? c with
  | none => rw [modify_of_none hk]
  | some k =>
    have := total_modify (w := w) hk f
    rw [hf] at this
    omega

theorem total_mono {w' : Component → Nat} (h : ∀ k, w k ≤ w' k) : net.total w ≤ net.total w' := by
  rw [total, total]
  induction net.slots.toList with
  | nil => exact Nat.le_refl _
  | cons x l ih =>
    rw [foldr_cons, foldr_cons]
    cases x with
    | none => exact Nat.add_le_add_left ih 0
    | some k => exact Nat.add_le_add (h k) ih

theorem total_add (net : Network) (w w' : Component → Nat) :
    net.total (fun k => w k + w' k) = net.total w + net.total w' := by
  simp only [total]
  induction net.slots.toList with
  | nil => rfl
  | cons x l ih =>
    rw [foldr_cons, foldr_cons, foldr_cons, ih]
    cases x with
    | none => simp only [elim_none]; omega
    | some k => simp only [elim_some]; omega

theorem total_one_le (net : Network) : (net.total fun _ => 1) ≤ net.capacity := by
  rw [total, capacity, ← Array.length_toList]
  induction net.slots.toList with
  | nil => exact Nat.le_refl _
  | cons x l ih =>
    rw [foldr_cons, length_cons]
    cases x with
    | none => simp only [elim_none]; omega
    | some k => simp only [elim_some]; omega

theorem le_total (hk : net.get? c = some k) : w k ≤ net.total w := by
  have := total_remove (w := w) hk
  omega

end Sums

/-! ## Sums along lists of components -/

def tally (N : CompId → Nat) (l : List CompId) : Nat := l.foldr (fun a n => N a + n) 0

section Tally

variable {N N' : CompId → Nat} {l l' : List CompId}

@[simp] theorem tally_nil : tally N [] = 0 := rfl

@[simp] theorem tally_cons (a : CompId) : tally N (a :: l) = N a + tally N l := rfl

theorem tally_append : tally N (l ++ l') = tally N l + tally N l' := by
  induction l with
  | nil => simp
  | cons a l ih => rw [cons_append, tally_cons, tally_cons, ih, Nat.add_assoc]

theorem tally_perm (h : l.Perm l') : tally N l = tally N l' := by
  induction h with
  | nil => rfl
  | cons a _ ih => rw [tally_cons, tally_cons, ih]
  | swap a b l => simp only [tally_cons]; omega
  | trans _ _ ih ih' => exact ih.trans ih'

theorem tally_sublist (h : l.Sublist l') : tally N l ≤ tally N l' := by
  induction h with
  | slnil => exact Nat.le_refl _
  | cons a _ ih => rw [tally_cons]; omega
  | cons_cons a _ ih => rw [tally_cons, tally_cons]; omega

theorem tally_le_of_count_le (h : ∀ a, l.count a ≤ l'.count a) : tally N l ≤ tally N l' := by
  obtain ⟨l'', hp, hs⟩ : l.Subperm l' := subperm_ext_iff.mpr fun a _ => h a
  rw [← tally_perm hp]
  exact tally_sublist hs

theorem tally_lt_of_count_lt {c : CompId} (h : ∀ a, l.count a ≤ l'.count a)
    (hc : l.count c < l'.count c) (hN : 1 ≤ N c) : tally N l < tally N l' := by
  have hle : tally N (c :: l) ≤ tally N l' := by
    apply tally_le_of_count_le
    intro a
    rw [count_cons]
    have := h a
    grind
  rw [tally_cons] at hle
  omega

theorem tally_mono (h : ∀ a ∈ l, N a ≤ N' a) : tally N l ≤ tally N' l := by
  induction l with
  | nil => exact Nat.le_refl _
  | cons a l ih =>
    rw [tally_cons, tally_cons]
    exact Nat.add_le_add (h a mem_cons_self) (ih (forall_mem_cons.mp h).2)

theorem tally_lt_of_mem {a : CompId} (h : ∀ a ∈ l, N a ≤ N' a) (ha : a ∈ l) (hlt : N a < N' a) :
    tally N l < tally N' l := by
  obtain ⟨l1, l2, rfl⟩ := append_of_mem ha
  rw [tally_append, tally_append, tally_cons, tally_cons]
  have h1 : tally N l1 ≤ tally N' l1 := tally_mono fun b hb => h b (by simp [hb])
  have h2 : tally N l2 ≤ tally N' l2 := tally_mono fun b hb => h b (by simp [hb])
  omega

theorem tally_flatMap_le (f : CompId → List CompId) (h : ∀ a ∈ l, tally N (f a) ≤ N a) :
    tally N (l.flatMap f) ≤ tally N l := by
  induction l with
  | nil => exact Nat.le_refl _
  | cons a l ih =>
    rw [flatMap_cons, tally_append, tally_cons]
    exact Nat.add_le_add (h a mem_cons_self) (ih (forall_mem_cons.mp h).2)

theorem tally_congr (h : ∀ a ∈ l, N a = N' a) : tally N l = tally N' l :=
  Nat.le_antisymm (tally_mono fun a ha => Nat.le_of_eq (h a ha)) (tally_mono fun a ha => Nat.le_of_eq (h a ha).symm)

theorem tally_map (f : CompId → CompId) : tally N (l.map f) = tally (fun a => N (f a)) l := by
  induction l with
  | nil => rfl
  | cons a l ih => rw [map_cons, tally_cons, tally_cons, ih]

theorem tally_const_add (n : Nat) : tally (fun a => n + N a) l = l.length * n + tally N l := by
  induction l with
  | nil => simp
  | cons a l ih =>
    rw [tally_cons, tally_cons, ih, length_cons, Nat.add_mul]
    omega

theorem tally_le_mul {m : Nat} (h : ∀ a ∈ l, N a ≤ m) : tally N l ≤ l.length * m := by
  induction l with
  | nil => exact Nat.zero_le _
  | cons a l ih =>
    rw [tally_cons, length_cons, Nat.add_mul, Nat.one_mul, Nat.add_comm]
    exact Nat.add_le_add (ih (forall_mem_cons.mp h).2) (h a mem_cons_self)

theorem le_tally {a : CompId} (ha : a ∈ l) : N a ≤ tally N l := by
  obtain ⟨l1, l2, rfl⟩ := append_of_mem ha
  rw [tally_append, tally_cons]
  omega

end Tally

theorem tally_le_total {w : Component → Nat} {net : Network} {l : List CompId} (hl : l.Nodup) :
    tally (fun c => (net.get? c).elim 0 w) l ≤ net.total w := by
  induction l generalizing net with
  | nil => exact Nat.zero_le _
  | cons c l ih =>
    obtain ⟨hc, hl⟩ := nodup_cons.mp hl
    rw [tally_cons]
    cases hk : net.get? c with
    | none =>
      simp only [elim_none, Nat.zero_add]
      exact ih hl
    | some k =>
      have hrest : tally (fun d => (net.get? d).elim 0 w) l =
          tally (fun d => ((net.remove c).get? d).elim 0 w) l := by
        refine tally_congr fun d hd => ?_
        rw [get?_remove, if_neg]
        rintro rfl
        exact hc hd
      have hle : tally (fun d => ((net.remove c).get? d).elim 0 w) l ≤ (net.remove c).total w := ih hl
      have htot := total_remove (w := w) hk
      rw [hrest, elim_some]
      omega

/-! ## Extents -/

theorem extent_eq (net : Network) :
    net.extent = net.capacity + net.total fun k => k.inputs.length + k.outputs.length := by
  rw [extent, total, capacity, ← Array.foldl_toList, ← Array.length_toList]
  suffices h : ∀ (l : List (Option Component)) (n : Nat),
      l.foldl (fun n slot => n + 1 + slot.elim 0 fun k => k.inputs.length + k.outputs.length) n =
        n + l.length +
          l.foldr (fun slot n => slot.elim 0 (fun k => k.inputs.length + k.outputs.length) + n) 0 by
    rw [h, Nat.zero_add]
  intro l
  induction l with
  | nil => intro n; rfl
  | cons x l ih =>
    intro n
    rw [foldl_cons, ih, length_cons, foldr_cons]
    omega

theorem length_components_le (net : Network) : net.components.length ≤ net.capacity := by
  rw [components, capacity, ← Array.length_toList, ← length_zipIdx (l := net.slots.toList)]
  exact length_filterMap_le _ _

theorem length_inputsOf_le (net : Network) (c : CompId) : (net.inputsOf c).length ≤ net.extent := by
  cases hk : net.get? c with
  | none => simp [inputsOf, hk]
  | some k =>
    have hle := le_total (w := fun k => k.inputs.length + k.outputs.length) hk
    rw [inputsOf_of_get? hk, extent_eq]
    omega

theorem capacity_le_extent (net : Network) : net.capacity ≤ net.extent := by
  rw [extent_eq]
  omega

theorem twice_lt_allowance (n m : Nat) : 2 * n < Loop.allowance (n + 1 + m) := by
  have h1 := Loop.lt_allowance n
  have h2 := Loop.allowance_le_add (n + 1) m
  have h3 : Loop.allowance (n + 1) = Loop.allowance n + Loop.allowance n := rfl
  omega

end Network

end GameNet
