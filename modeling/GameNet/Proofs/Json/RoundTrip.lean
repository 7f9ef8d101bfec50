import Mathlib.Data.List.TakeDrop
import Mathlib.Data.Nat.Init
import GameNet.Json.Reader

/-!
Reading undoes writing.

The proof never looks at the list of tokens: it says what remains to be read after each token, and what
the reader holds at that point.
-/

namespace GameNet.Json

open List

variable {rest : List Char} {d : Nat} {fields : List (String × Json)} {v : Json}
  {frames : List Frame}

/-! ## Texts -/

theorem hexValue4?_hexDigit :
    ∀ n < 32, hexValue4? '0' '0' (hexDigit (n / 16)) (hexDigit (n % 16)) = some n := by
  decide

theorem scanText_unicode {a b c d : Char} {code : Nat} (done rest : List Char)
    (hcode : hexValue4? a b c d = some code) (hlow : isLowSurrogate code = false)
    (hhigh : isHighSurrogate code = false) : scanText done ('\\' :: 'u' :: a :: b :: c :: d :: rest) =
      scanText (Char.ofNat code :: done) rest := by
  rw [scanText.eq_def]
  simp [hcode, hlow, hhigh]

theorem scanText_escape (c : Char) (done rest : List Char) :
    scanText done (escape c ++ rest) = scanText (c :: done) rest := by
  unfold escape
  split_ifs with hquote hslash hb ht hn hf hr hcontrol
  -- the escapes of one letter
  iterate 7
    subst c
    simp [scanText, unescape?]
  · -- a control character without a letter: four hexadecimal digits
    rw [cons_append, cons_append, cons_append, cons_append, cons_append, cons_append, nil_append,
      scanText_unicode done rest (hexValue4?_hexDigit _ hcontrol) (by simp [isLowSurrogate]; omega)
        (by simp [isHighSurrogate]; omega),
      Char.ofNat_toNat]
  · rw [singleton_append, scanText.eq_def]
    split
    case h_4 heq =>
      obtain ⟨rfl, rfl⟩ := cons.inj heq
      exact if_neg (not_or.mpr ⟨hslash, hcontrol⟩)
    all_goals simp_all

theorem scanText_escaped (cs done rest : List Char) : scanText done (cs.flatMap escape ++ '"' :: rest) =
      some (String.ofList (done.reverse ++ cs), rest) := by
  induction cs generalizing done with
  | nil => simp [scanText]
  | cons c cs ih =>
    rw [flatMap_cons, append_assoc, scanText_escape, ih]
    simp

/-! ## Numbers -/

def Ends (rest : List Char) : Prop := ∀ c ∈ rest.head?, c = ',' ∨ c = ']' ∨ c = '\x7d'

theorem Ends.head?_isDigit (h : Ends rest) (c : Char) (hc : c ∈ rest.head?) : c.isDigit = false := by
  obtain rfl | rfl | rfl := h c hc <;> decide

theorem Ends.scanTail (h : Ends rest) (n : Number) : scanTail n rest = some (n, rest) := by
  cases rest with
  | nil => rfl
  | cons c cs => obtain rfl | rfl | rfl := h c rfl <;> rfl

theorem digits_append {ds rest : List Char} (hds : ∀ d ∈ ds, d.isDigit)
    (hrest : ∀ c ∈ rest.head?, c.isDigit = false) : digits (ds ++ rest) = (ds, rest) := by
  rw [digits, span_eq_takeWhile_dropWhile, takeWhile_append_of_pos hds, dropWhile_append_of_pos hds]
  cases rest with
  | nil => simp
  | cons c cs => simp [hrest c rfl]

theorem exists_toDigits_eq_cons (m : Nat) (hm : m ≠ 0) : ∃ d ds, Nat.toDigits 10 m = d :: ds ∧ d ≠ '0' := by
  induction m using Nat.strong_induction_on with
  | h m ih =>
    by_cases hsmall : m < 10
    · refine ⟨Nat.digitChar m, [], Nat.toDigits_of_lt_base hsmall, ?_⟩
      rw [Ne, Nat.digitChar_eq_zero]
      exact hm
    · obtain ⟨d, ds, heq, hd⟩ := ih (m / 10) (by omega) (by omega)
      refine ⟨d, ds ++ [Nat.digitChar (m % 10)], ?_, hd⟩
      rw [Nat.toDigits_of_base_le (by decide) (by omega), heq, cons_append]

theorem shift_eq_some {m : Nat} (hm : m < UInt64.size) :
    Number.shift (m / 10).toUInt64 (m % 10) = some m.toUInt64 := by
  have htoNat : (m / 10).toUInt64.toNat = m / 10 := by
    rw [Nat.toUInt64_eq, UInt64.toNat_ofNat']
    exact Nat.mod_eq_of_lt (Nat.lt_of_le_of_lt (Nat.div_le_self m 10) hm)
  have hsum : m / 10 * 10 + m % 10 = m := by omega
  simp only [Number.shift, htoNat, hsum, if_pos hm]

theorem foldl_addDigit_toDigits (negative : Bool) (m : Nat) (hm : m < UInt64.size) :
    (Nat.toDigits 10 m).foldl (fun n d => n.addDigit (digitValue d)) ({ negative, mantissa := 0 } : Number) =
      { negative, mantissa := m.toUInt64 } := by
  -- every prefix of the digits is the number divided by a power of ten
  have hstep : ∀ k : Nat, k < UInt64.size →
      Number.addDigit { negative, mantissa := (k / 10).toUInt64 }
        (digitValue (Nat.digitChar (k % 10))) = { negative, mantissa := k.toUInt64 } := by
    intro k hk
    have hdigit : digitValue (Nat.digitChar (k % 10)) = k % 10 :=
      Nat.toNat_digitChar_sub_48_of_lt_ten (Nat.mod_lt k (by decide))
    simp only [Number.addDigit, hdigit, shift_eq_some hk]
  induction m using Nat.strong_induction_on with
  | h m ih =>
    by_cases hsmall : m < 10
    · have hstep := hstep m hm
      rw [Nat.div_eq_of_lt hsmall, Nat.mod_eq_of_lt hsmall] at hstep
      rw [Nat.toDigits_of_lt_base hsmall]
      exact hstep
    · rw [Nat.toDigits_of_base_le (by decide) (by omega), foldl_append, ih (m / 10) (by omega) (by omega)]
      exact hstep m hm

theorem scanNumber_toDigits (n : Number) (hexponent : n.exponent = 0) (hrest : Ends rest) :
    scanNumber n.negative (Nat.toDigits 10 n.mantissa.toNat ++ rest) = some (n, rest) := by
  obtain ⟨negative, mantissa, exponent⟩ := n
  obtain rfl : exponent = 0 := hexponent
  have hfold := foldl_addDigit_toDigits negative mantissa.toNat mantissa.toNat_lt_size
  have hdigits : digits (Nat.toDigits 10 mantissa.toNat ++ rest) = _ :=
    digits_append (fun d hd => Nat.isDigit_of_mem_toDigits (by decide) (by decide) hd)
      hrest.head?_isDigit
  by_cases hzero : mantissa = 0
  · subst hzero
    rw [show Nat.toDigits 10 (UInt64.toNat 0) = ['0'] by decide]
    exact hrest.scanTail _
  obtain ⟨d, ds, heq, hd⟩ :=
    exists_toDigits_eq_cons mantissa.toNat fun h => hzero (UInt64.toNat_inj.1 h)
  simp only [heq, cons_append] at hdigits hfold ⊢
  unfold scanNumber
  split
  next hcons => exact absurd (List.cons.inj hcons).1 hd
  next =>
    simp only [hdigits, hfold, isEmpty_cons, Bool.false_eq_true, if_false]
    simpa using hrest.scanTail _

/-! ## Tokens -/

theorem scanToken_quote (s : String) (rest : List Char) :
    scanToken '"' (s.toList.flatMap escape ++ '"' :: rest) = some (.scalar (.text s), rest) := by
  change ((scanText [] _).map _).map _ = _
  rw [scanText_escaped]
  simp

theorem scanToken_minus (cs : List Char) :
    scanToken '-' cs = (scanNumber true cs).map fun (n, rest) => (.scalar (.number n), rest) := by
  change ((scanNumber true cs).map _).map _ = _
  rw [Option.map_map]
  rfl

theorem scanToken_digit {c : Char} (hc : c.isDigit) (cs : List Char) : scanToken c cs =
      (scanNumber false (c :: cs)).map fun (n, rest) => (.scalar (.number n), rest) := by
  unfold scanToken
  split
  iterate 6 exact absurd hc (by decide)
  unfold scanScalar
  split
  iterate 5 exact absurd hc (by decide)
  rw [Option.map_map]
  rfl

theorem isSpace_of_isDigit {c : Char} (hc : c.isDigit) : isSpace c = false := by
  have hzero : 48 ≤ c.toNat := by
    simp only [Char.isDigit, Bool.and_eq_true, decide_eq_true_eq] at hc
    exact UInt32.le_iff_toNat_le.1 hc.1
  simp only [isSpace, Bool.or_eq_false_iff, Bool.and_eq_false_iff, decide_eq_false_iff_not,
    beq_eq_false_iff_ne]
  omega

theorem scanToken_number (n : Number) (hexponent : n.exponent = 0) (hrest : Ends rest) :
    ∃ c cs, n.render.toList ++ rest = c :: cs ∧ isSpace c = false ∧ rest.length ≤ cs.length ∧
      scanToken c cs = some (.scalar (.number n), rest) := by
  have hnumber := scanNumber_toDigits n hexponent hrest
  have hrender : n.render.toList =
      (if n.negative then ['-'] else []) ++ Nat.toDigits 10 n.mantissa.toNat := by
    cases hsign : n.negative <;>
      simp [Number.render, hexponent, hsign]
  cases hsign : n.negative with
  | true =>
    refine ⟨'-', Nat.toDigits 10 n.mantissa.toNat ++ rest, by simp [hrender, hsign], by decide, by simp, ?_⟩
    rw [scanToken_minus, ← hsign, hnumber, Option.map_some]
  | false =>
    obtain ⟨d, ds, heq⟩ := exists_cons_of_ne_nil (Nat.toDigits_ne_nil (b := 10) (n := n.mantissa.toNat))
    have hdigit : d.isDigit = true :=
      Nat.isDigit_of_mem_toDigits (by decide) (by decide) (heq ▸ mem_cons_self)
    refine ⟨d, ds ++ rest, by simp [hrender, hsign, heq], isSpace_of_isDigit hdigit, by simp, ?_⟩
    rw [scanToken_digit hdigit, ← hsign, ← cons_append, ← heq, hnumber, Option.map_some]

/-! ## Values -/

/-- From a reading, what remains of the text completes the value `v`. No amount of fuel above the
length of the text matters. -/
def Completes (cs : List Char) (r : Reading) (v : Json) : Prop :=
  ∃ ts, (∀ fuel, cs.length ≤ fuel → scanTokens fuel cs = some ts) ∧
    (ts.foldlM Reading.step r).bind Reading.result? = some v

theorem parse_of_completes {text : String} (h : Completes text.toList ⟨[], .value⟩ v) :
    parse text = some v := by
  obtain ⟨ts, hts, hfold⟩ := h
  simp only [parse, tokens, hts _ (Nat.le_refl _)]
  exact hfold

theorem completes_nil (v : Json) : Completes [] ⟨[], .nothing v⟩ v :=
  ⟨[], fun fuel _ => by cases fuel <;> rfl, rfl⟩

theorem Completes.token {c : Char} {cs rest : List Char} {t : Token} {r r' : Reading}
    (h : Completes rest r' v) (hspace : isSpace c = false) (hscan : scanToken c cs = some (t, rest))
    (hlength : rest.length ≤ cs.length) (hstep : r.step t = some r') : Completes (c :: cs) r v := by
  obtain ⟨ts, hts, hfold⟩ := h
  refine ⟨t :: ts, ?_, ?_⟩
  · intro fuel hfuel
    cases fuel with
    | zero => simp at hfuel
    | succ fuel =>
      have hrest := hts fuel (Nat.le_trans hlength (Nat.le_of_succ_le_succ hfuel))
      simp [scanTokens, hspace, hscan, hrest]
  · rw [foldlM_cons, hstep]
    exact hfold

theorem Completes.quote {s : String} {r r' : Reading} (h : Completes rest r' v)
    (hstep : r.step (.scalar (.text s)) = some r') : Completes ((quote s).toList ++ rest) r v := by
  have hquote : (Json.quote s).toList ++ rest = '"' :: (s.toList.flatMap escape ++ '"' :: rest) := by
    simp [Json.quote]
  rw [hquote]
  exact h.token (by decide) (scanToken_quote s rest) (by simp; omega) hstep

def Reading.Awaits (r : Reading) (frames : List Frame) : Prop :=
  ∀ t, t ≠ .arrayClose → r.step t = Reading.value frames t

theorem awaits_value (frames : List Frame) : Reading.Awaits ⟨frames, .value⟩ frames := by
  intro t _
  cases t <;> rfl

theorem awaits_firstItem (h : frames.length < depthLimit) :
    Reading.Awaits ⟨frames, .firstItem⟩ (.items [] :: frames) := by
  intro t ht
  cases t <;> simp_all [Reading.step]

/-- Wherever a value may stand, the text of `v` is read as `v`, if `d` more arrays and objects may
be opened there. -/
def ReadBack (d : Nat) (v : Json) : Prop :=
  ∀ ⦃frames : List Frame⦄ ⦃r : Reading⦄ ⦃rest : List Char⦄ ⦃w : Json⦄,
    r.Awaits frames → frames.length + d ≤ depthLimit → Ends rest →
    Completes rest (Reading.place v frames) w → Completes (v.render.toList ++ rest) r w

theorem readBack_scalar {c : Char} {cs : List Char}
    (htext : v.render.toList = c :: cs) (hspace : isSpace c = false)
    (hscan : ∀ rest, scanToken c (cs ++ rest) = some (.scalar v, rest)) : ReadBack d v := by
  intro frames r rest w hr _ _ h
  rw [htext, cons_append]
  exact h.token hspace (hscan rest) (by simp) (hr _ (by simp))

theorem readBack_number {n : Number} (hexponent : n.exponent = 0) : ReadBack d (.number n) := by
  intro frames r rest w hr _ hrest h
  obtain ⟨c, cs, htext, hspace, hlength, hscan⟩ := scanToken_number n hexponent hrest
  rw [render, htext]
  exact h.token hspace hscan hlength (hr _ (by simp))

theorem completes_items {d : Nat} {items : List Json} (hitems : ∀ v ∈ items, ReadBack d v)
    (hne : items ≠ []) {frames : List Frame} {done : List Json} {r : Reading} {rest : List Char}
    {w : Json} (hr : r.Awaits (.items done :: frames)) (hdepth : frames.length + d < depthLimit)
    (h : Completes rest (Reading.place (.array (done.reverse ++ items)) frames) w) :
    Completes ((renderItems items).toList ++ ']' :: rest) r w := by
  induction items generalizing done r with
  | nil => exact absurd rfl hne
  | cons v vs ih =>
    have hv := hitems v mem_cons_self
    have hdepth' : (Frame.items done :: frames).length + d ≤ depthLimit := by
      rw [length_cons]
      omega
    cases vs with
    | nil =>
      apply hv hr hdepth' (by simp [Ends])
      refine h.token (by decide) rfl (Nat.le_refl _) ?_
      simp [Reading.step, Reading.place]
    | cons v' vs =>
      have htext : (renderItems (v :: v' :: vs)).toList ++ ']' :: rest =
          v.render.toList ++ ',' :: ((renderItems (v' :: vs)).toList ++ ']' :: rest) := by
        simp [renderItems]
      rw [htext]
      apply hv hr hdepth' (by simp [Ends])
      have hnext := ih (forall_mem_cons.mp hitems).2 (by simp)
        (awaits_value (.items (v :: done) :: frames)) (by simpa using h)
      exact hnext.token (by decide) rfl (Nat.le_refl _) rfl

theorem readBack_array {items : List Json} (hitems : ∀ v ∈ items, ReadBack d v) :
    ReadBack (d + 1) (.array items) := by
  intro frames r rest w hr hdepth _ h
  have htext : (render (.array items)).toList ++ rest =
      '[' :: ((renderItems items).toList ++ ']' :: rest) := by
    simp [render]
  rw [htext]
  have hopen : r.step .arrayOpen = some ⟨frames, .firstItem⟩ := hr _ (by simp)
  refine Completes.token ?_ (by decide) rfl (Nat.le_refl _) hopen
  by_cases hempty : items = []
  · subst hempty
    exact h.token (by decide) rfl (Nat.le_refl _) rfl
  · exact completes_items hitems hempty (awaits_firstItem (by omega)) (by omega) h

def Reading.AwaitsKey (r : Reading) (frames : List Frame) (done : List (String × Json)) : Prop :=
  ∀ key, r.step (.scalar (.text key)) = some ⟨frames, .colon done key⟩

theorem setField_of_notMem {key : String} (v : Json)
    (h : key ∉ fields.map Prod.fst) : setField key v fields = fields ++ [(key, v)] := by
  induction fields with
  | nil => rfl
  | cons field fields ih =>
    obtain ⟨k, w⟩ := field
    simp only [map_cons, mem_cons, not_or] at h
    simp [setField, Ne.symm h.1, ih h.2]

theorem completes_fields (hfields : ∀ field ∈ fields, ReadBack d field.2) (hne : fields ≠ [])
    {done : List (String × Json)} (hkeys : ((done ++ fields).map Prod.fst).Nodup) {r : Reading}
    {w : Json} (hr : r.AwaitsKey frames done) (hdepth : frames.length + d < depthLimit)
    (h : Completes rest (Reading.place (.object (done ++ fields)) frames) w) :
    Completes ((renderFields fields).toList ++ '\x7d' :: rest) r w := by
  induction fields generalizing done r with
  | nil => exact absurd rfl hne
  | cons field fields ih =>
    obtain ⟨key, v⟩ := field
    have hv := hfields (key, v) mem_cons_self
    have hdepth' : (Frame.fields done key :: frames).length + d ≤ depthLimit := by
      rw [length_cons]
      omega
    have hset : setField key v done = done ++ [(key, v)] := by
      apply setField_of_notMem
      intro hmem
      rw [map_append, nodup_append] at hkeys
      exact hkeys.2.2 key hmem key (by simp) rfl
    -- the text of the first field, whatever follows it
    have hfield : ∀ tail, Ends tail →
        Completes tail ⟨.fields (done ++ [(key, v)]) key :: frames, .separator⟩ w →
        Completes ((Json.quote key).toList ++ ':' :: (v.render.toList ++ tail)) r w := by
      intro tail htail hcompletes
      rw [← hset] at hcompletes
      have hvalue := hv (awaits_value (.fields done key :: frames)) hdepth' htail hcompletes
      exact (hvalue.token (by decide) rfl (Nat.le_refl _) rfl).quote (hr key)
    cases fields with
    | nil =>
      have htext : (renderFields [(key, v)]).toList ++ '\x7d' :: rest =
          (Json.quote key).toList ++ ':' :: (v.render.toList ++ '\x7d' :: rest) := by
        simp [renderFields]
      rw [htext]
      apply hfield _ (by simp [Ends])
      exact h.token (by decide) rfl (Nat.le_refl _) rfl
    | cons field' fields =>
      have htext : (renderFields ((key, v) :: field' :: fields)).toList ++ '\x7d' :: rest =
          (Json.quote key).toList ++ ':' :: (v.render.toList ++
            ',' :: ((renderFields (field' :: fields)).toList ++ '\x7d' :: rest)) := by
        simp [renderFields]
      rw [htext]
      apply hfield _ (by simp [Ends])
      have hkey : Reading.AwaitsKey ⟨frames, .key (done ++ [(key, v)])⟩ frames
          (done ++ [(key, v)]) := fun _ => rfl
      have hnext := ih (forall_mem_cons.mp hfields).2 (by simp)
        (by simpa using hkeys) hkey (by simpa using h)
      exact hnext.token (by decide) rfl (Nat.le_refl _) rfl

theorem readBack_object (hkeys : (fields.map Prod.fst).Nodup)
    (hfields : ∀ field ∈ fields, ReadBack d field.2) : ReadBack (d + 1) (.object fields) := by
  intro frames r rest w hr hdepth _ h
  have htext : (render (.object fields)).toList ++ rest =
      '\x7b' :: ((renderFields fields).toList ++ '\x7d' :: rest) := by
    simp [render]
  rw [htext]
  have hopen : r.step .objectOpen = some ⟨frames, .firstKey⟩ := hr _ (by simp)
  refine Completes.token ?_ (by decide) rfl (Nat.le_refl _) hopen
  by_cases hempty : fields = []
  · subst hempty
    exact h.token (by decide) rfl (Nat.le_refl _) rfl
  have hkey : Reading.AwaitsKey ⟨frames, .firstKey⟩ frames [] := by
    intro key
    simp only [Reading.step]
    rw [if_pos (by omega)]
  exact completes_fields hfields hempty (by simpa using hkeys) hkey (by omega) h

/-- A value whose numbers have no power of ten and whose objects have distinct keys, with at most
`d` arrays and objects inside each other. -/
inductive Plain : Nat → Json → Prop
  | null {d : Nat} : Plain d .null
  | bool {d : Nat} (b : Bool) : Plain d (.bool b)
  | number {d : Nat} {n : Number} (h : n.exponent = 0) : Plain d (.number n)
  | text {d : Nat} (s : String) : Plain d (.text s)
  | array {d : Nat} {items : List Json} (h : ∀ v ∈ items, Plain d v) : Plain (d + 1) (.array items)
  | object {d : Nat} {fields : List (String × Json)} (hkeys : (fields.map Prod.fst).Nodup)
      (h : ∀ field ∈ fields, Plain d field.2) : Plain (d + 1) (.object fields)

theorem Plain.readBack (h : Plain d v) : ReadBack d v := by
  induction h with
  | null => exact readBack_scalar rfl (by decide) fun rest => rfl
  | bool b => cases b <;> exact readBack_scalar rfl (by decide) fun rest => rfl
  | number h => exact readBack_number h
  | text s =>
    intro frames r rest w hr _ _ h
    exact h.quote (hr _ (by simp))
  | array _ ih => exact readBack_array ih
  | object hkeys _ ih => exact readBack_object hkeys ih

/-- Reading a plain value's compact text gives the value back. -/
theorem Plain.parse_render (h : Plain d v) (hd : d ≤ depthLimit) : parse v.render = some v := by
  apply parse_of_completes
  have hends : Ends [] := by simp [Ends]
  have hread := h.readBack (awaits_value []) (by simpa using hd) hends (completes_nil v)
  rwa [append_nil] at hread

end GameNet.Json
