import GameNet.Error

/-!
Base states: one bit for each base proposition, packed into 64-bit words.
-/

namespace GameNet

/-- `size` bits, of which bit `i` is bit `i % 64` of word `i / 64`. -/
structure BaseState where
  size : Nat
  words : Array UInt64
  /-- there is just room for all bits -/
  words_size : words.size = (size + 63) / 64
  deriving DecidableEq, Repr

namespace BaseState

def mask (i : Nat) : UInt64 := 1 <<< (i % 64).toUInt64

def zero (size : Nat) : BaseState :=
  ⟨size, Array.replicate ((size + 63) / 64) 0, Array.size_replicate⟩

instance : Inhabited BaseState := ⟨zero 0⟩

def get (s : BaseState) (i : Nat) : Bool :=
  i < s.size && s.words.getD (i / 64) 0 &&& mask i != 0

def set (s : BaseState) (i : Nat) (value : Bool) : BaseState where
  size := s.size
  words := s.words.modify (i / 64) fun w => if value then w ||| mask i else w &&& ~~~(mask i)
  words_size := by rw [Array.size_modify, s.words_size]

def put (s : BaseState) (i : Nat) (value : Bool) : Checked BaseState :=
  if i < s.size then pure (s.set i value) else throw (.crash (.bitOutOfRange i s.size))

def ofBits (size : Nat) (bits : List Nat) : Checked BaseState :=
  bits.foldlM (fun s i => s.put i true) (zero size)

def ofBools (bits : List Bool) : BaseState :=
  (bits.zipIdx).foldl (fun s (b, i) => if b then s.set i true else s) (zero bits.length)

def toBools (s : BaseState) : List Bool :=
  (List.range s.size).map s.get

/-- The positions of the bits set in a word, counted from `start`: the lowest one is taken and cleared
until none is left. -/
def wordBits (start : Nat) (w : UInt64) : List Nat :=
  if w = 0 then [] else (start + w.toBitVec.ctz.toNat) :: wordBits start (w &&& (w - 1))
termination_by w.toNat
decreasing_by
  next h =>
    have hpos : 0 < w.toNat := Nat.pos_of_ne_zero fun h0 => h (UInt64.toNat_inj.mp h0)
    rw [UInt64.toNat_and, UInt64.toNat_sub_of_le w 1 (UInt64.le_iff_toNat_le.mpr hpos)]
    exact Nat.lt_of_le_of_lt Nat.and_le_right (Nat.sub_lt hpos Nat.one_pos)

def trueBits (s : BaseState) : List Nat :=
  s.words.toList.zipIdx.flatMap fun (w, j) => wordBits (64 * j) w

def countTrue (s : BaseState) : Nat :=
  s.words.foldl (fun n w => n + w.toBitVec.cpop.toNat) 0

/-- States are ordered by size, then by their words from the first on. -/
def cmp (s t : BaseState) : Ordering :=
  (compare s.size t.size).then (compare s.words.toList t.words.toList)

def render (s : BaseState) : String :=
  "state[" ++ String.ofList (s.toBools.map fun b => if b then '1' else 'o') ++ "]"

/-! ## Bits -/

theorem mask_toBitVec (i : Nat) : (mask i).toBitVec = BitVec.twoPow 64 (i % 64) := by
  have h : i % 64 < 64 := Nat.mod_lt i (by decide)
  have hi : i % 64 % 18446744073709551616 % 64 = i % 64 := by omega
  simp only [mask, UInt64.toBitVec_shiftLeft]
  apply BitVec.eq_of_toNat_eq
  simp [BitVec.twoPow, hi]

theorem land_mask_ne_zero (w : UInt64) (i : Nat) : (w &&& mask i != 0) = w.toBitVec.getLsbD (i % 64) := by
  have h : (w &&& mask i).toBitVec = w.toBitVec &&& BitVec.twoPow 64 (i % 64) := by
    rw [UInt64.toBitVec_and, mask_toBitVec]
  have hz : BitVec.twoPow 64 (i % 64) ≠ 0#64 := by
    intro hz
    have := congrArg (BitVec.getLsbD · (i % 64)) hz
    simp [BitVec.getLsbD_twoPow] at this
    omega
  rw [BitVec.and_twoPow] at h
  cases hb : w.toBitVec.getLsbD (i % 64) with
  | true =>
    rw [hb, if_pos rfl] at h
    rw [bne_iff_ne]
    intro h0
    rw [h0] at h
    exact hz h.symm
  | false =>
    rw [hb] at h
    rw [bne_eq_false_iff_eq]
    exact UInt64.toBitVec_inj.mp h

def stored (s : BaseState) (i : Nat) : Bool := (s.words.getD (i / 64) 0).toBitVec.getLsbD (i % 64)

theorem get_eq (s : BaseState) (i : Nat) : s.get i = (decide (i < s.size) && s.stored i) := by
  rw [get, land_mask_ne_zero, stored]

@[simp] theorem stored_zero (n i : Nat) : (zero n).stored i = false := by
  simp only [stored, zero, Array.getD_eq_getD_getElem?, Array.getElem?_replicate]
  split <;> simp

@[simp] theorem get_zero (n i : Nat) : (zero n).get i = false := by
  rw [get_eq, stored_zero, Bool.and_false]

@[simp] theorem size_set (s : BaseState) (i : Nat) (v : Bool) : (s.set i v).size = s.size := rfl

theorem getLsbD_setBit (w : UInt64) (i j : Nat) (v : Bool) (hj : j < 64) :
    (if v then w ||| mask i else w &&& ~~~(mask i)).toBitVec.getLsbD j =
      if i % 64 = j then v else w.toBitVec.getLsbD j := by
  have hm : (mask i).toBitVec.getLsbD j = decide (i % 64 = j) := by
    rw [mask_toBitVec, BitVec.getLsbD_twoPow]
    by_cases h : i % 64 = j <;> simp [h]
    omega
  cases v with
  | true =>
    rw [if_pos rfl, UInt64.toBitVec_or, BitVec.getLsbD_or, hm]
    by_cases h : i % 64 = j <;> simp only [h, decide_true, decide_false, Bool.or_true,
      Bool.or_false, if_true, if_false]
  | false =>
    rw [if_neg Bool.false_ne_true, UInt64.toBitVec_and, UInt64.toBitVec_not, BitVec.getLsbD_and,
      BitVec.getLsbD_not, hm]
    by_cases h : i % 64 = j <;> simp only [h, hj, decide_true, decide_false, Bool.not_true,
      Bool.not_false, Bool.and_true, Bool.and_false, if_true, if_false]

theorem stored_set (s : BaseState) (i j : Nat) (v : Bool) (hi : i < s.size) :
    (s.set i v).stored j = if j = i then v else s.stored j := by
  have hw : i / 64 < s.words.size := by rw [s.words_size]; omega
  simp only [stored, set, Array.getD_eq_getD_getElem?, Array.getElem?_modify]
  by_cases hd : i / 64 = j / 64
  · rw [if_pos hd, ← hd, Array.getElem?_eq_getElem hw]
    simp only [Option.map_some, Option.getD_some]
    rw [getLsbD_setBit _ _ _ _ (Nat.mod_lt j (by decide))]
    by_cases he : j = i
    · rw [if_pos he, if_pos (by rw [he])]
    · rw [if_neg he, if_neg (by omega)]
  · rw [if_neg hd, if_neg (by intro h; exact hd (by rw [h]))]

theorem get_set (s : BaseState) (i j : Nat) (v : Bool) (hi : i < s.size) :
    (s.set i v).get j = if j = i then v else s.get j := by
  rw [get_eq, get_eq, size_set, stored_set s i j v hi]
  by_cases hj : j = i
  · rw [if_pos hj, if_pos hj, hj, decide_eq_true hi, Bool.true_and]
  · rw [if_neg hj, if_neg hj]

@[simp] theorem size_ofBools (bits : List Bool) : (ofBools bits).size = bits.length := by
  suffices h : ∀ (l : List (Bool × Nat)) (s : BaseState),
      (l.foldl (fun s x => if x.1 then s.set x.2 true else s) s).size = s.size from h _ _
  intro l
  induction l with
  | nil => exact fun _ => rfl
  | cons x l ih =>
    intro s
    rw [List.foldl_cons, ih]
    split <;> rfl

theorem stored_ofBools (bits : List Bool) (i : Nat) : (ofBools bits).stored i = bits.getD i false := by
  suffices h : ∀ (l : List Bool) (n : Nat) (s : BaseState), n + l.length ≤ s.size →
      ((l.zipIdx n).foldl (fun s x => if x.1 then s.set x.2 true else s) s).stored i =
        (s.stored i || (decide (n ≤ i) && l.getD (i - n) false)) by
    have := h bits 0 (zero bits.length) (Nat.le_of_eq (Nat.zero_add _))
    rw [stored_zero, Bool.false_or, Nat.sub_zero, decide_eq_true (Nat.zero_le i), Bool.true_and] at this
    exact this
  intro l
  induction l with
  | nil =>
    intro n s _
    rw [List.getD_nil, Bool.and_false, Bool.or_false]
    rfl
  | cons b l ih =>
    intro n s hn
    rw [List.length_cons] at hn
    have hsize : n + 1 + l.length ≤ (if b = true then s.set n true else s).size := by
      split
      · rw [size_set]
        omega
      · omega
    rw [List.zipIdx_cons, List.foldl_cons, ih (n + 1) _ hsize]
    have hbit : (if b = true then s.set n true else s).stored i =
        (s.stored i || (decide (i = n) && b)) := by
      cases b with
      | false => rw [if_neg Bool.false_ne_true, Bool.and_false, Bool.or_false]
      | true =>
        rw [if_pos rfl, stored_set _ _ _ _ (by omega)]
        by_cases hi : i = n <;> simp [hi]
    rw [hbit]
    by_cases hi : i = n
    · rw [hi, Nat.sub_self, List.getD_cons_zero, decide_eq_false (Nat.not_succ_le_self n)]
      simp
    · by_cases hlt : n < i
      · have he : i - n = i - (n + 1) + 1 := by omega
        rw [he, List.getD_cons_succ, decide_eq_true (Nat.le_of_lt hlt), decide_eq_true (Nat.succ_le_of_lt hlt)]
        simp [hi]
      · simp [hi, show ¬ n ≤ i by omega, show ¬ n + 1 ≤ i by omega]

theorem get_ofBools (bits : List Bool) (i : Nat) : (ofBools bits).get i = bits.getD i false := by
  rw [get_eq, stored_ofBools, size_ofBools]
  by_cases hi : i < bits.length <;> simp [hi]

end BaseState

end GameNet
