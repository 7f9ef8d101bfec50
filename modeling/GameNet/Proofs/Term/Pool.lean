import GameNet.Proofs.Term.Grammar
import GameNet.Term.Pool

/-!
The trees in a pool.

A pool compares nodes by their names and the handles of their parts. As parts are stored before their
groups, handles are equal exactly when the trees behind them are.
-/

namespace GameNet.Term

open List

/-- A node that may stand at `i`: names of variables and constants are told apart, and parts are older
than their group. -/
def Node.Fits (i : Handle) : Node → Prop
  | .const name => isVariableName name = false
  | .var name => isVariableName name = true
  | .group parts => ∀ q ∈ parts, q < i

theorem Node.fits_atom (name : String) (i : Handle) :
    Node.Fits i (if isVariableName name then .var name else .const name) := by
  split
  · next h => exact h
  · next h => exact Bool.eq_false_iff.mpr h

namespace Pool

variable {p p' p'' p₀ : Pool} {i j : Handle} {n : Node}

/-! ## What pools keep -/

/-- The index finds each node where it is and nothing else, and every node fits its place. -/
structure Sound (p : Pool) : Prop where
  index : ∀ n i, p.index[n]? = some i ↔ p.node? i = some n
  fits : ∀ i n, p.node? i = some n → n.Fits i

def Grows (p p' : Pool) : Prop := ∀ i n, p.node? i = some n → p'.node? i = some n

theorem lt_size_iff : i < p.size ↔ ∃ n, p.node? i = some n := by
  rw [size, node?]
  constructor
  · intro h
    exact ⟨_, Array.getElem?_eq_getElem h⟩
  · rintro ⟨n, h⟩
    exact (Array.getElem?_eq_some_iff.mp h).1

theorem Grows.refl (p : Pool) : p.Grows p := fun _ _ h => h

theorem Grows.trans (h : p.Grows p') (h' : p'.Grows p'') : p.Grows p'' := fun i n hn => h' i n (h i n hn)

theorem Grows.lt_size (h : p.Grows p') (hi : i < p.size) : i < p'.size := by
  obtain ⟨n, hn⟩ := lt_size_iff.mp hi
  exact lt_size_iff.mpr ⟨n, h i n hn⟩

theorem sound_empty : Sound {} := by
  constructor <;> simp [node?]

theorem grows_intern (p : Pool) (n : Node) : p.Grows (p.intern n).2 := by
  rw [intern]
  split
  · exact Grows.refl p
  intro i m hm
  have hi : i < p.nodes.size := lt_size_iff.mpr ⟨m, hm⟩
  rw [node?, Array.getElem?_push, if_neg (Nat.ne_of_lt hi)]
  exact hm

def denoted (p : Pool) : Node → Term
  | .const name => .atom name
  | .var name => .atom name
  | .group parts => .group (parts.map p.expand)

theorem eq_of_map_eq {f : Handle → Term} {qs rs : List Handle}
    (hf : ∀ q ∈ qs, ∀ r ∈ rs, f q = f r → q = r) (he : qs.map f = rs.map f) : qs = rs := by
  induction qs generalizing rs with
  | nil => exact (map_eq_nil_iff.mp he.symm).symm
  | cons q qs ih =>
    obtain ⟨r, rs, rfl, hr, hrs⟩ := map_eq_cons_iff.mp he.symm
    rw [hf q mem_cons_self r mem_cons_self hr.symm,
      ih (fun a ha b hb => hf a (mem_cons_of_mem _ ha) b (mem_cons_of_mem _ hb)) hrs.symm]

section Sound

variable (h : p.Sound)
include h

theorem Sound.node?_intern : (p.intern n).2.node? (p.intern n).1 = some n := by
  rw [intern]
  split
  · next i hi => exact (h.index n i).mp hi
  · simp [node?]

theorem Sound.intern (hn : n.Fits p.size) : (p.intern n).2.Sound := by
  rw [Pool.intern]
  split
  · exact h
  next hnew =>
  have hnode : ∀ i, node? ⟨p.nodes.push n, p.index.insert n p.nodes.size⟩ i =
      if i = p.nodes.size then some n else p.node? i := fun i => Array.getElem?_push
  constructor
  · intro m i
    rw [hnode, Std.HashMap.getElem?_insert]
    by_cases hm : n = m
    · subst hm
      have hfree : ∀ j, p.node? j ≠ some n := fun j hj => by
        rw [(h.index n j).mpr hj] at hnew
        cases hnew
      grind
    · have hsize : p.node? p.nodes.size = none := Array.getElem?_eq_none (Nat.le_refl _)
      have := h.index m i
      grind
  · intro i m
    rw [hnode]
    split
    · next hi =>
      intro hm
      cases hm
      exact hi ▸ hn
    · exact h.fits i m

theorem Sound.expand (hi : p.node? i = some n) : p.expand i = p.denoted n := by
  rw [Pool.expand, hi]
  cases n with
  | const name => rfl
  | var name => rfl
  | group parts =>
    have hparts : ∀ q ∈ parts, q < i := h.fits i _ hi
    simp only [denoted, group.injEq]
    exact map_congr_left fun q hq => if_pos (hparts q hq)

theorem Sound.expand_grows (hg : p.Grows p') (h' : p'.Sound) (hi : i < p.size) :
    p'.expand i = p.expand i := by
  induction i using Nat.strongRecOn with
  | ind i ih =>
    obtain ⟨n, hn⟩ := lt_size_iff.mp hi
    rw [h.expand hn, h'.expand (hg i n hn)]
    cases n with
    | const name => rfl
    | var name => rfl
    | group parts =>
      have hparts : ∀ q ∈ parts, q < i := h.fits i _ hn
      rw [denoted, denoted, map_congr_left fun q hq =>
        ih q (hparts q hq) (Nat.lt_trans (hparts q hq) hi)]

/-- Nodes are compared by their own names and handles; by induction that compares whole trees. -/
theorem Sound.expand_inj (hi : i < p.size) (hj : j < p.size) (he : p.expand i = p.expand j) : i = j := by
  induction i using Nat.strongRecOn generalizing j with
  | ind i ih =>
    obtain ⟨n, hn⟩ := lt_size_iff.mp hi
    obtain ⟨m, hm⟩ := lt_size_iff.mp hj
    suffices hnm : n = m by
      subst hnm
      exact Option.some.inj (((h.index n i).mpr hn).symm.trans ((h.index n j).mpr hm))
    rw [h.expand hn, h.expand hm] at he
    have hfn := h.fits i n hn
    have hfm := h.fits j m hm
    cases n with
    | const a =>
      cases m with
      | const b => cases he; rfl
      | var b => cases he; exact absurd (hfn.symm.trans hfm) Bool.false_ne_true
      | group _ => cases he
    | var a =>
      cases m with
      | const b => cases he; exact absurd (hfm.symm.trans hfn) Bool.false_ne_true
      | var b => cases he; rfl
      | group _ => cases he
    | group qs =>
      cases m with
      | const _ => cases he
      | var _ => cases he
      | group rs =>
        congr 1
        refine eq_of_map_eq (fun q hq r hr => ?_) (Term.group.inj he)
        exact ih q (hfn q hq) (Nat.lt_trans (hfn q hq) hi) (Nat.lt_trans (hfm r hr) hj)

theorem Sound.interned (hn : n.Fits p.size) : (p.intern n).2.Sound ∧ (p.intern n).1 < (p.intern n).2.size ∧
      (p.intern n).2.expand (p.intern n).1 = p.denoted n := by
  have hs := h.intern hn
  refine ⟨hs, lt_size_iff.mpr ⟨n, h.node?_intern⟩, ?_⟩
  rw [hs.expand h.node?_intern]
  cases n with
  | const name => rfl
  | var name => rfl
  | group parts =>
    rw [denoted, denoted, map_congr_left fun q hq =>
      h.expand_grows (grows_intern p _) hs (hn q hq)]

end Sound

end Pool

end GameNet.Term
