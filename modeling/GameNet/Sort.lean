/-!
Sorting lists by insertion.

The lists of a network are short or nearly in order, and a sort by structural recursion can be
computed inside proofs.
-/

namespace GameNet

variable {α : Type} (le : α → α → Bool)

def insertBy (a : α) : List α → List α
  | [] => [a]
  | b :: bs => if le a b then a :: b :: bs else b :: insertBy a bs

/-- Sorts a list. Elements that may precede each other keep their order. -/
def sortBy : List α → List α
  | [] => []
  | a :: as => insertBy le a (sortBy as)

theorem insertBy_perm (a : α) (bs : List α) : (insertBy le a bs).Perm (a :: bs) := by
  induction bs with
  | nil => exact .refl _
  | cons b bs ih =>
    rw [insertBy]
    split
    · exact .refl _
    · exact (ih.cons b).trans (.swap a b bs)

theorem sortBy_perm (as : List α) : (sortBy le as).Perm as := by
  induction as with
  | nil => exact .refl _
  | cons a as ih => exact (insertBy_perm le a _).trans (ih.cons a)

@[simp] theorem mem_sortBy {a : α} {as : List α} : a ∈ sortBy le as ↔ a ∈ as :=
  (sortBy_perm le as).mem_iff

theorem pairwise_insertBy (trans : ∀ a b c, le a b → le b c → le a c)
    (total : ∀ a b, le a b ∨ le b a) {a : α} {bs : List α}
    (h : bs.Pairwise fun b c => le b c) : (insertBy le a bs).Pairwise fun b c => le b c := by
  induction bs with
  | nil => exact List.pairwise_singleton _ a
  | cons b bs ih =>
    obtain ⟨hb, hbs⟩ := List.pairwise_cons.mp h
    rw [insertBy]
    split
    · next hab =>
      refine List.pairwise_cons.mpr ⟨fun c hc => ?_, h⟩
      cases List.mem_cons.mp hc with
      | inl hcb => rw [hcb]; exact hab
      | inr hc => exact trans a b c hab (hb c hc)
    · next hab =>
      refine List.pairwise_cons.mpr ⟨fun c hc => ?_, ih hbs⟩
      cases List.mem_cons.mp ((insertBy_perm le a bs).mem_iff.mp hc) with
      | inl hca => rw [hca]; exact (total a b).resolve_left hab
      | inr hc => exact hb c hc

theorem pairwise_sortBy (trans : ∀ a b c, le a b → le b c → le a c)
    (total : ∀ a b, le a b ∨ le b a) (as : List α) : (sortBy le as).Pairwise fun b c => le b c := by
  induction as with
  | nil => exact .nil
  | cons a as ih => exact pairwise_insertBy le trans total ih

end GameNet
