import GameNet.Json.Basic

/-!
Reading JSON texts.

The text is cut into tokens, and the tokens are folded over the stack of arrays and objects that are
still open.
-/

namespace GameNet.Json

inductive Token where
  | arrayOpen
  | arrayClose
  | objectOpen
  | objectClose
  | comma
  | colon
  | scalar (v : Json)

def isSpace (c : Char) : Bool := (9 ≤ c.toNat && c.toNat ≤ 13) || c.toNat == 32

/-! ## Texts -/

def hexValue? (c : Char) : Option Nat :=
  if '0' ≤ c ∧ c ≤ '9' then some (c.toNat - '0'.toNat)
  else if 'a' ≤ c ∧ c ≤ 'f' then some (c.toNat - 'a'.toNat + 10)
  else if 'A' ≤ c ∧ c ≤ 'F' then some (c.toNat - 'A'.toNat + 10)
  else none

def hexValue4? (a b c d : Char) : Option Nat := do
  return (((← hexValue? a) * 16 + (← hexValue? b)) * 16 + (← hexValue? c)) * 16 + (← hexValue? d)

def unescape? (c : Char) : Option Char :=
  if c = '"' ∨ c = '\\' ∨ c = '/' then some c
  else if c = 'b' then some '\x08'
  else if c = 't' then some '\t'
  else if c = 'n' then some '\n'
  else if c = 'f' then some '\x0c'
  else if c = 'r' then some '\r'
  else none

def isHighSurrogate (n : Nat) : Bool := 0xD800 ≤ n && n ≤ 0xDBFF

def isLowSurrogate (n : Nat) : Bool := 0xDC00 ≤ n && n ≤ 0xDFFF

/-- Reads up to the closing quote. Surrogates must come in pairs, and a control character must be
escaped. -/
def scanText (done : List Char) : List Char → Option (String × List Char)
  | '"' :: cs => some (String.ofList done.reverse, cs)
  | '\\' :: 'u' :: a :: b :: c :: d :: cs => do
    let code ← hexValue4? a b c d
    if isLowSurrogate code then none
    else if isHighSurrogate code then
      match cs with
      | '\\' :: 'u' :: e :: f :: g :: h :: cs =>
        let low ← hexValue4? e f g h
        if isLowSurrogate low then
          scanText (Char.ofNat ((code - 0xD800) * 0x400 + (low - 0xDC00) + 0x10000) :: done) cs
        else none
      | _ => none
    else scanText (Char.ofNat code :: done) cs
  | '\\' :: c :: cs => do scanText ((← unescape? c) :: done) cs
  | c :: cs => if c = '\\' ∨ c.toNat < 32 then none else scanText (c :: done) cs
  | [] => none

/-! ## Numbers -/

def digitValue (c : Char) : Nat := c.toNat - '0'.toNat

def digits (cs : List Char) : List Char × List Char := cs.span Char.isDigit

def scanExponent (n : Number) (cs : List Char) : Option (Number × List Char) :=
  let (negative, cs) := match cs with
    | '-' :: cs => (true, cs)
    | '+' :: cs => (false, cs)
    | cs => (false, cs)
  let (ds, rest) := digits cs
  if ds.isEmpty then none
  else
    some (n.scale negative (ds.foldl (fun e d => e * 10 + digitValue d) 0), rest)

def scanTail (n : Number) : List Char → Option (Number × List Char)
  | '.' :: cs =>
    let (ds, rest) := digits cs
    if ds.isEmpty then none
    else
      let n := ds.foldl (fun n d => n.addDecimal (digitValue d)) n
      match rest with
      | 'e' :: cs | 'E' :: cs => scanExponent n cs
      | rest => some (n, rest)
  | 'e' :: cs | 'E' :: cs => scanExponent n cs
  | cs => some (n, cs)

def scanNumber (negative : Bool) : List Char → Option (Number × List Char)
  | '0' :: cs => scanTail { negative, mantissa := 0 } cs
  | cs =>
    let (ds, rest) := digits cs
    if ds.isEmpty then none
    else scanTail (ds.foldl (fun n d => n.addDigit (digitValue d)) { negative, mantissa := 0 }) rest

/-! ## Tokens -/

def scanScalar (c : Char) (cs : List Char) : Option (Json × List Char) :=
  match c, cs with
  | 't', 'r' :: 'u' :: 'e' :: cs => some (.bool true, cs)
  | 'f', 'a' :: 'l' :: 's' :: 'e' :: cs => some (.bool false, cs)
  | 'n', 'u' :: 'l' :: 'l' :: cs => some (.null, cs)
  | '"', cs => (scanText [] cs).map fun (s, rest) => (.text s, rest)
  | '-', cs => (scanNumber true cs).map fun (n, rest) => (.number n, rest)
  | c, cs => (scanNumber false (c :: cs)).map fun (n, rest) => (.number n, rest)

def scanToken (c : Char) (cs : List Char) : Option (Token × List Char) :=
  match c with
  | '[' => some (.arrayOpen, cs)
  | ']' => some (.arrayClose, cs)
  | '\x7b' => some (.objectOpen, cs)
  | '\x7d' => some (.objectClose, cs)
  | ',' => some (.comma, cs)
  | ':' => some (.colon, cs)
  | c => (scanScalar c cs).map fun (v, rest) => (.scalar v, rest)

/-- Cuts a text into tokens; a token takes at least one character, so `fuel` characters suffice. -/
def scanTokens : (fuel : Nat) → List Char → Option (List Token)
  | _, [] => some []
  | 0, _ :: _ => none
  | fuel + 1, c :: cs =>
    if isSpace c then scanTokens fuel cs
    else do
      let (t, rest) ← scanToken c cs
      return t :: (← scanTokens fuel rest)

def tokens (text : String) : Option (List Token) :=
  scanTokens text.toList.length text.toList

/-! ## Values -/

inductive Frame where
  | items (done : List Json)
  /-- the fields, and the key whose value comes next -/
  | fields (done : List (String × Json)) (key : String)

inductive Expected where
  | value
  | firstItem
  | firstKey
  | key (done : List (String × Json))
  | colon (done : List (String × Json)) (key : String)
  | separator
  | nothing (result : Json)

structure Reading where
  frames : List Frame
  expected : Expected

/-- Arrays and objects with contents nest at most so deep. -/
def depthLimit : Nat := 512

def setField (key : String) (v : Json) : List (String × Json) → List (String × Json)
  | [] => [(key, v)]
  | (k, w) :: rest => if k = key then (k, v) :: rest else (k, w) :: setField key v rest

namespace Reading

def place (v : Json) : List Frame → Reading
  | [] => ⟨[], .nothing v⟩
  | .items done :: frames => ⟨.items (v :: done) :: frames, .separator⟩
  | .fields done key :: frames => ⟨.fields (setField key v done) key :: frames, .separator⟩

def value (frames : List Frame) : Token → Option Reading
  | .arrayOpen => some ⟨frames, .firstItem⟩
  | .objectOpen => some ⟨frames, .firstKey⟩
  | .scalar v => some (place v frames)
  | _ => none

def step (r : Reading) (t : Token) : Option Reading :=
  match r.expected, t with
  | .value, t => value r.frames t
  | .firstItem, .arrayClose => some (place (.array []) r.frames)
  | .firstItem, t =>
    if r.frames.length < depthLimit then value (.items [] :: r.frames) t else none
  | .firstKey, .objectClose => some (place (.object []) r.frames)
  | .firstKey, .scalar (.text key) =>
    if r.frames.length < depthLimit then some ⟨r.frames, .colon [] key⟩ else none
  | .key done, .scalar (.text key) => some ⟨r.frames, .colon done key⟩
  | .colon done key, .colon => some ⟨.fields done key :: r.frames, .value⟩
  | .separator, t =>
    match r.frames, t with
    | .items done :: frames, .comma => some ⟨.items done :: frames, .value⟩
    | .items done :: frames, .arrayClose => some (place (.array done.reverse) frames)
    | .fields done _ :: frames, .comma => some ⟨frames, .key done⟩
    | .fields done _ :: frames, .objectClose => some (place (.object done) frames)
    | _, _ => none
  | _, _ => none

def result? (r : Reading) : Option Json :=
  match r.expected with
  | .nothing v => some v
  | _ => none

end Reading

def parse (text : String) : Option Json := do
  let r ← (← tokens text).foldlM Reading.step ⟨[], .value⟩
  r.result?

end GameNet.Json
