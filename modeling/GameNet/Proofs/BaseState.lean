import GameNet.Proofs.Outcome
import GameNet.State
import Mathlib.Data.List.Sort

/-!
Base states as vectors of bits.

No operation sets a spare bit, so two states are equal as soon as their bits are.
-/

namespace GameNet.BaseState

open List

variable {s t : BaseState}

/-! ## Spare bits -/

def Tidy (s : BaseState) : Prop := ∀ i, s.size ≤ i → s.stored i = false

theorem Tidy.get (h : s.Tidy) (i : Nat) : s.get i = s.stored i := by
  rw [get_eq]
  by_cases hi : i < s.size
  · rw [decide_eq_true hi, Bool.true_and]
  · rw [h i (Nat.le_of_not_lt hi), Bool.and_false]

theorem tidy_zero (n : Nat) : (zero n).Tidy := fun i _ => stored_zero n i

theorem tidy_ofBools (values : List Bool) : (ofBools values).Tidy := by
  intro i hi
  rw [size_ofBools] at hi
  rw [stored_ofBools, getD_eq_getElem?_getD, getElem?_eq_none hi, Option.getD_none]

theorem Tidy.set (h : s.Tidy) {i : Nat} (hi : i < s.size) (v : Bool) : (s.set i v).Tidy := by
  intro j hj
  rw [size_set] at hj
  rw [stored_set s i j v hi, if_neg (by omega), h j hj]

theorem Tidy.ext (hs : s.Tidy) (ht : t.Tidy) (hsize : s.size = t.size) (hget : ∀ i, s.get i = t.get i) :
    s = t := by
  have hwords : s.words = t.words := by
    apply Array.ext
    · rw [s.words_size, t.words_size, hsize]
    intro k hk hk'
    rw [← UInt64.toBitVec_inj]
    apply BitVec.eq_of_getLsbD_eq
    intro b hb
    have hbit := hget (64 * k + b)
    rw [hs.get, ht.get, stored, stored, show (64 * k + b) / 64 = k by omega,
      show (64 * k + b) % 64 = b by omega] at hbit
    simpa only [Array.getD_eq_getD_getElem?, Array.getElem?_eq_getElem hk,
      Array.getElem?_eq_getElem hk', Option.getD_some] using hbit
  cases s
  cases t
  cases hsize
  cases hwords
  rfl

/-! ## The bits of a word -/

theorem testBit_and_sub_one {x k : Nat} (hk : x.testBit k = true) (hlow : ∀ j < k, x.testBit j = false)
    (i : Nat) : (x.testBit i && (x - 1).testBit i) = (x.testBit i && decide (i ≠ k)) := by
  obtain ⟨q, hq⟩ : ∃ q, q = x / Nat.pow 2 k := ⟨_, rfl⟩
  have hbits : ∀ j, q.testBit j = x.testBit (k + j) := fun j => by
    rw [hq, Nat.add_comm]
    exact Nat.testBit_div_two_pow x j
  have hodd : q % 2 = 1 := by
    have h0 := hbits 0
    rw [Nat.add_zero, hk, Nat.testBit_zero, decide_eq_true_eq] at h0
    exact h0
  have hmod : x % 2 ^ k = 0 := by
    apply Nat.eq_of_testBit_eq
    intro j
    rw [Nat.testBit_mod_two_pow, Nat.zero_testBit]
    by_cases hj : j < k
    · rw [hlow j hj, Bool.and_false]
    · rw [decide_eq_false hj, Bool.false_and]
  have hx : x - 1 = 2 ^ k * (q - 1) + (2 ^ k - 1) := by
    have hdiv : 2 ^ k * q + x % 2 ^ k = x := by rw [hq]; exact Nat.div_add_mod x (2 ^ k)
    have hmul : 2 ^ k * q = 2 ^ k * (q - 1) + 2 ^ k := by
      rw [← Nat.mul_succ, show (q - 1).succ = q by omega]
    have := Nat.two_pow_pos k
    omega
  have hsub : (2 ^ k - 1 : Nat) < 2 ^ k := Nat.sub_lt (Nat.two_pow_pos k) Nat.one_pos
  rw [hx, Nat.testBit_two_pow_mul_add _ hsub]
  by_cases hi : i < k
  · rw [hlow i hi, Bool.false_and, Bool.false_and]
  obtain ⟨j, rfl⟩ := Nat.exists_eq_add_of_le (Nat.le_of_not_lt hi)
  rw [if_neg hi, Nat.add_sub_cancel_left]
  cases j with
  | zero => simp [Nat.testBit_zero]; omega
  | succ j =>
    have hhalf : (q - 1) / 2 = q / 2 := by omega
    rw [Nat.testBit_succ, hhalf, ← Nat.testBit_succ, hbits]
    simp

theorem getLsbD_clearLowest {w : UInt64} (hw : w ≠ 0) (i : Nat) : (w &&& (w - 1)).toBitVec.getLsbD i =
      (w.toBitVec.getLsbD i && decide (i ≠ w.toBitVec.ctz.toNat)) := by
  have hne : w.toBitVec ≠ 0#64 := fun h => hw (UInt64.toBitVec_inj.mp h)
  have hpos : 1 ≤ w.toNat := Nat.pos_of_ne_zero fun h => hw (UInt64.toNat_inj.mp h)
  have hsub : (w - 1).toBitVec.toNat = w.toBitVec.toNat - 1 :=
    UInt64.toNat_sub_of_le w 1 (UInt64.le_iff_toNat_le.mpr hpos)
  rw [UInt64.toBitVec_and, BitVec.getLsbD_and, BitVec.getLsbD, BitVec.getLsbD, hsub]
  exact testBit_and_sub_one (BitVec.getLsbD_true_ctz_of_ne_zero hne)
    (fun j hj => BitVec.getLsbD_false_of_lt_ctz hj) i

/-- The loop over a word finds the bits that are set, in ascending order. -/
theorem wordBits_eq (start : Nat) (w : UInt64) :
    wordBits start w = ((List.range 64).filter w.toBitVec.getLsbD).map (start + ·) := by
  fun_induction wordBits start w with
  | case1 => simp
  | case2 w hw ih =>
    have hne : w.toBitVec ≠ 0#64 := fun h => hw (UInt64.toBitVec_inj.mp h)
    have hlowest := BitVec.getLsbD_true_ctz_of_ne_zero hne
    have hmem : ∀ v : UInt64, ∀ i, i ∈ (List.range 64).filter v.toBitVec.getLsbD ↔
        v.toBitVec.getLsbD i = true := by
      intro v i
      rw [mem_filter, mem_range, and_iff_right_iff_imp]
      exact BitVec.lt_of_getLsbD
    have hsplit : (List.range 64).filter w.toBitVec.getLsbD =
        w.toBitVec.ctz.toNat :: (List.range 64).filter (w &&& (w - 1)).toBitVec.getLsbD := by
      have hrange : ∀ p : Nat → Bool, ((List.range 64).filter p).Pairwise (· < ·) := fun p =>
        pairwise_lt_range.filter p
      refine (hrange _).eq_of_mem_iff (pairwise_cons.mpr ⟨fun i hi => ?_, hrange _⟩) fun i => ?_
      · rw [hmem, getLsbD_clearLowest hw, Bool.and_eq_true, decide_eq_true_eq] at hi
        rcases Nat.lt_trichotomy w.toBitVec.ctz.toNat i with h | h | h
        · exact h
        · exact absurd h.symm hi.2
        · rw [BitVec.getLsbD_false_of_lt_ctz h] at hi
          cases hi.1
      · rw [mem_cons, hmem, hmem, getLsbD_clearLowest hw, Bool.and_eq_true, decide_eq_true_eq]
        by_cases hi : i = w.toBitVec.ctz.toNat
        · simp [hi, hlowest]
        · simp [hi]
    rw [hsplit, map_cons, ih]

theorem length_wordBits (start : Nat) (w : UInt64) : (wordBits start w).length = w.toBitVec.cpop.toNat := by
  suffices h : ∀ n, (List.range n).countP w.toBitVec.getLsbD = w.toBitVec.cpopNatRec n 0 by
    rw [wordBits_eq, length_map, ← countP_eq_length_filter, BitVec.toNat_cpop, h]
  intro n
  induction n with
  | zero => rfl
  | succ n ih =>
    rw [range_succ, countP_append, ih, BitVec.cpopNatRec_succ, Nat.zero_add,
      BitVec.cpopNatRec_eq (w.toBitVec.getLsbD n).toNat, countP_singleton]
    cases w.toBitVec.getLsbD n <;> rfl

/-! ## The true bits of a state -/

theorem mem_trueBits {i : Nat} : i ∈ s.trueBits ↔ s.stored i = true := by
  simp only [trueBits, mem_flatMap, mem_zipIdx_iff_getElem?, wordBits_eq, mem_map,
    mem_filter, mem_range, stored, Prod.exists]
  constructor
  · rintro ⟨w, j, hw, b, ⟨hb, hset⟩, rfl⟩
    rw [Array.getElem?_toList] at hw
    rw [show (64 * j + b) / 64 = j by omega, show (64 * j + b) % 64 = b by omega,
      Array.getD_eq_getD_getElem?, hw]
    exact hset
  intro hi
  rw [Array.getD_eq_getD_getElem?] at hi
  cases hw : s.words[i / 64]? with
  | none =>
    rw [hw] at hi
    simp at hi
  | some w =>
    rw [hw] at hi
    exact ⟨w, i / 64, by rw [Array.getElem?_toList, hw], i % 64, ⟨Nat.mod_lt i (by decide), hi⟩,
      Nat.div_add_mod i 64⟩

theorem pairwise_trueBits (s : BaseState) : s.trueBits.Pairwise (· < ·) := by
  rw [trueBits, pairwise_flatMap]
  constructor
  · intro x _
    dsimp only
    rw [wordBits_eq, pairwise_map]
    exact (pairwise_lt_range.filter _).imp fun h => Nat.add_lt_add_left h _
  have hplaces : s.words.toList.zipIdx.Pairwise (fun x y => x.2 < y.2) := by
    rw [← pairwise_map (f := Prod.snd) (R := (· < ·)), zipIdx_map_snd]
    exact pairwise_lt_range'
  refine hplaces.imp fun {x y} hxy i hi j hj => ?_
  -- each word has its own stretch of 64 numbers
  simp only [wordBits_eq, mem_map, mem_filter, mem_range] at hi hj
  obtain ⟨a, ⟨ha, -⟩, rfl⟩ := hi
  obtain ⟨b, -, rfl⟩ := hj
  omega

theorem length_trueBits (s : BaseState) : s.trueBits.length = s.countTrue := by
  rw [trueBits, countTrue, ← Array.foldl_toList]
  suffices h : ∀ (l : List UInt64) (k n : Nat),
      n + ((l.zipIdx k).flatMap fun x => wordBits (64 * x.2) x.1).length =
        l.foldl (fun n w => n + w.toBitVec.cpop.toNat) n by
    rw [← h _ 0 0, Nat.zero_add]
  intro l
  induction l with
  | nil => exact fun _ _ => rfl
  | cons w l ih =>
    intro k n
    rw [zipIdx_cons, flatMap_cons, length_append, foldl_cons, length_wordBits, ← ih (k + 1), Nat.add_assoc]

/-! ## Order -/

theorem cmp_eq_compareLex :
    cmp = compareLex (compareOn BaseState.size) (compareOn fun s => s.words.toList) := rfl

theorem cmp_eq_iff : s.cmp t = .eq ↔ s = t := by
  rw [cmp, Ordering.then_eq_eq, Std.LawfulEqOrd.compare_eq_iff_eq, Std.LawfulEqOrd.compare_eq_iff_eq]
  constructor
  · rintro ⟨hsize, hwords⟩
    cases s
    cases t
    cases hsize
    cases Array.toList_inj.mp hwords
    rfl
  · rintro rfl
    exact ⟨rfl, rfl⟩

instance : Std.TransCmp cmp := by
  rw [cmp_eq_compareLex]
  infer_instance

/-! ## Writing -/

inductive Start where
  | zero (size : Nat)
  | bits (size : Nat) (trues : List Nat)
  | bools (values : List Bool)

namespace Start

def make : Start → Checked BaseState
  | .zero n => pure (BaseState.zero n)
  | .bits n trues => ofBits n trues
  | .bools values => pure (ofBools values)

def size : Start → Nat
  | .zero n => n
  | .bits n _ => n
  | .bools values => values.length

def bit : Start → Nat → Bool
  | .zero _, _ => false
  | .bits _ trues, i => trues.contains i
  | .bools values, i => values.getD i false

def InRange : Start → Prop
  | .bits n trues => ∀ i ∈ trues, i < n
  | _ => True

end Start

structure Writing where
  start : Start
  puts : List (Nat × Bool)

namespace Writing

def run (w : Writing) : Checked BaseState := do
  w.puts.foldlM (fun s x => s.put x.1 x.2) (← w.start.make)

def InRange (w : Writing) : Prop := w.start.InRange ∧ ∀ x ∈ w.puts, x.1 < w.start.size

/-- What was last written at `i`; where nothing was, what the state was made with. -/
def bit (w : Writing) (i : Nat) : Bool :=
  (w.puts.reverse.find? fun x => x.1 == i).elim (w.start.bit i) (·.2)

end Writing

theorem put_of_lt {i : Nat} (hi : i < s.size) (v : Bool) : s.put i v = .ok (s.set i v) := if_pos hi

theorem puts_yields (puts : List (Nat × Bool)) (hs : s.Tidy) (hr : ∀ x ∈ puts, x.1 < s.size) :
    (puts.foldlM (fun s x => s.put x.1 x.2) s : Checked BaseState).Yields fun t => t.Tidy ∧ t.size = s.size ∧
        ∀ i, t.get i = (puts.reverse.find? fun x => x.1 == i).elim (s.get i) (·.2) := by
  induction puts generalizing s with
  | nil => exact .pure ⟨hs, rfl, fun i => rfl⟩
  | cons x puts ih =>
    have hx := hr x mem_cons_self
    rw [foldlM_cons]
    refine .bind_ok (put_of_lt hx x.2) ?_
    refine (ih (hs.set hx x.2) (forall_mem_cons.mp hr).2).mono fun t ht => ?_
    refine ⟨ht.1, ht.2.1, fun i => ?_⟩
    rw [ht.2.2, reverse_cons, find?_append]
    cases puts.reverse.find? fun x => x.1 == i with
    | some y => rfl
    | none =>
      rw [Option.none_or, Option.elim_none, get_set s x.1 i x.2 hx, find?_singleton]
      by_cases hi : i = x.1
      · simp [hi]
      · simp [hi, Ne.symm hi]

theorem ofBits_yields {n : Nat} {bits : List Nat} (h : ∀ i ∈ bits, i < n) :
    (ofBits n bits).Yields fun t => t.Tidy ∧ t.size = n ∧ ∀ i, t.get i = bits.contains i := by
  have hputs := puts_yields (bits.map (·, true)) (tidy_zero n) fun x hx => by
    obtain ⟨i, hi, rfl⟩ := mem_map.mp hx
    exact h i hi
  rw [foldlM_map] at hputs
  refine hputs.mono fun t ht => ⟨ht.1, ht.2.1, fun i => ?_⟩
  rw [ht.2.2, get_zero, ← map_reverse, find?_map]
  cases hfind : bits.reverse.find? ((fun x : Nat × Bool => x.1 == i) ∘ (·, true)) with
  | none =>
    rw [find?_eq_none] at hfind
    have hnone : i ∉ bits := fun hi => hfind i (mem_reverse.mpr hi) (by simp)
    simp [hnone]
  | some j =>
    have hj := find?_some hfind
    have hmem := mem_reverse.mp (mem_of_find?_eq_some hfind)
    simp only [Function.comp_apply, beq_iff_eq] at hj
    rw [hj] at hmem
    simpa using hmem

theorem Start.make_yields {start : Start} (h : start.InRange) :
    start.make.Yields fun s => s.Tidy ∧ s.size = start.size ∧ ∀ i, s.get i = start.bit i := by
  cases start with
  | zero n => exact .pure ⟨tidy_zero n, rfl, get_zero n⟩
  | bits n trues => exact ofBits_yields h
  | bools values => exact .pure ⟨tidy_ofBools values, size_ofBools values, get_ofBools values⟩

theorem Writing.run_yields {w : Writing} (h : w.InRange) :
    w.run.Yields fun s => s.Tidy ∧ s.size = w.start.size ∧ ∀ i, s.get i = w.bit i := by
  refine .bind (Start.make_yields h.1) fun s hs => ?_
  obtain ⟨htidy, hsize, hget⟩ := hs
  refine (puts_yields w.puts htidy fun x hx => hsize ▸ h.2 x hx).mono fun t ht => ?_
  refine ⟨ht.1, ht.2.1.trans hsize, fun i => ?_⟩
  rw [ht.2.2, hget]
  rfl

theorem Tidy.eq_iff (hs : s.Tidy) (ht : t.Tidy) : s = t ↔ s.size = t.size ∧ s.toBools = t.toBools := by
  refine ⟨fun h => h ▸ ⟨rfl, rfl⟩, ?_⟩
  rintro ⟨hsize, hbools⟩
  refine hs.ext ht hsize fun i => ?_
  by_cases hi : i < s.size
  · have hbit := congrArg (·[i]?) hbools
    simpa [toBools, hi, hsize ▸ hi] using hbit
  · rw [get_eq, get_eq, decide_eq_false hi, decide_eq_false (hsize ▸ hi), Bool.false_and, Bool.false_and]

theorem Tidy.ofBools_toBools (hs : s.Tidy) : ofBools s.toBools = s := by
  refine (tidy_ofBools _).ext hs (by simp [toBools]) fun i => ?_
  rw [get_ofBools]
  by_cases hi : i < s.size
  · simp [toBools, hi]
  · simp [toBools, hi, get_eq]

theorem Tidy.ofBits_trueBits (hs : s.Tidy) : ofBits s.size s.trueBits = .ok s := by
  have hrange : ∀ i ∈ s.trueBits, i < s.size := by
    intro i hi
    rw [mem_trueBits, ← hs.get, get_eq, Bool.and_eq_true, decide_eq_true_eq] at hi
    exact hi.1
  obtain ⟨t, ht, htidy, hsize, hget⟩ := ofBits_yields hrange
  rw [ht, htidy.ext hs hsize fun i => ?_]
  rw [hget, Bool.eq_iff_iff, contains_iff_mem, mem_trueBits, hs.get]

/-- A state that was made and written to within its range is a vector of bits and nothing more. No
spare bit is set, each bit is what was last written to it, the true bits are listed in ascending order
and counted, and the state can be made again from its bits. States with the same bits are equal, and
the order on states is total and knows the same equality. -/
theorem bits_of_writing (w : Writing) (hw : w.InRange) :
    ∃ s, w.run = .ok s ∧ s.size = w.start.size ∧
      (∀ i, s.size ≤ i → s.stored i = false ∧ s.get i = false) ∧ (∀ i, i < s.size → s.get i = w.bit i) ∧
      s.trueBits.Pairwise (· < ·) ∧ (∀ i, i ∈ s.trueBits ↔ s.get i = true) ∧
      s.trueBits.length = s.countTrue ∧
      ofBools s.toBools = s ∧ ofBits s.size s.trueBits = .ok s ∧
      (∀ w' : Writing, w'.InRange → ∀ t, w'.run = .ok t →
        (s = t ↔ s.size = t.size ∧ s.toBools = t.toBools)) ∧
      ∀ t u : BaseState, (s.cmp t = .eq ↔ s = t) ∧ t.cmp s = (s.cmp t).swap ∧
        ((s.cmp t).isLE → (t.cmp u).isLE → (s.cmp u).isLE) := by
  obtain ⟨s, hs, htidy, hsize, hget⟩ := Writing.run_yields hw
  refine ⟨s, hs, hsize, fun i hi => ⟨htidy i hi, (htidy.get i).trans (htidy i hi)⟩, fun i _ => hget i,
    s.pairwise_trueBits, fun i => by rw [mem_trueBits, htidy.get], s.length_trueBits,
    htidy.ofBools_toBools, htidy.ofBits_trueBits, ?_, ?_⟩
  · intro w' hw' t ht
    exact htidy.eq_iff ((Writing.run_yields hw').ensures t ht).1
  · intro t u
    exact ⟨cmp_eq_iff, Std.OrientedCmp.eq_swap, Std.TransCmp.isLE_trans⟩

/-- Seventy bits in two words, of which the last one is set and another is cleared again. -/
theorem bits_of_writing_seventy :
    (⟨.bits 70 [65, 3], [(69, true), (65, false)]⟩ : Writing).InRange ∧
      ∃ s, (⟨.bits 70 [65, 3], [(69, true), (65, false)]⟩ : Writing).run = .ok s ∧ s.get 3 = true ∧
        s.get 65 = false ∧ s.get 69 = true ∧ s.stored 127 = false ∧ ofBits 70 s.trueBits = .ok s := by
  have hr : (⟨.bits 70 [65, 3], [(69, true), (65, false)]⟩ : Writing).InRange := by
    constructor <;> simp [Start.InRange, Start.size]
  obtain ⟨s, hs, hsize, hspare, hget, -, -, -, -, hagain, -⟩ := bits_of_writing _ hr
  have hlt : ∀ i, i < 70 → i < s.size := fun i hi => hsize ▸ hi
  refine ⟨hr, s, hs, hget 3 (hlt 3 (by decide)), hget 65 (hlt 65 (by decide)),
    hget 69 (hlt 69 (by decide)), (hspare 127 ?_).1, ?_⟩
  · rw [hsize]
    decide
  · rw [hsize] at hagain
    exact hagain

end GameNet.BaseState
