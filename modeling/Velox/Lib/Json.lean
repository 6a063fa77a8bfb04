import Mathlib.Tactic
import Velox.Lib.Text

/-!
# JSON texts

The values that RFC 8259 describes and a reader for texts of them. A number is kept exactly, as
`mantissa * 10 ^ exponent`. The members of an object are kept in their order, with repetitions;
`Json.member` takes the last one of a name.
-/

namespace Velox

inductive Json where
  | null
  | bool (b : Bool)
  | number (mantissa exponent : Int)
  | string (s : List UInt8)
  | array (xs : List Json)
  | object (members : List (List UInt8 × Json))

namespace Json

open Text

/-! ## Values -/

/-- The value of the last member of this name. -/
def member (members : List (List UInt8 × Json)) (name : List UInt8) : Option Json :=
  (members.reverse.find? fun m => m.1 = name).map Prod.snd

/-- A number that is an integer. -/
def asInt : Json → Option Int
  | number m e =>
    if 0 ≤ e then some (m * 10 ^ e.toNat)
    else if m % 10 ^ (-e).toNat = 0 then some (m / 10 ^ (-e).toNat)
    else none
  | _ => none

/-! ## Strings -/

def isBlank (c : UInt8) : Bool :=
  c = ' '.toUInt8 || c = '\t'.toUInt8 || c = '\n'.toUInt8 || c = '\r'.toUInt8

def skipBlanks (s : List UInt8) : List UInt8 := s.dropWhile isBlank

/-- What a letter stands for after a backslash. -/
def escape (c : UInt8) : Option UInt8 :=
  if c = '"'.toUInt8 ∨ c = '\\'.toUInt8 ∨ c = '/'.toUInt8 then some c
  else if c = 'b'.toUInt8 then some 8
  else if c = 'f'.toUInt8 then some 12
  else if c = 'n'.toUInt8 then some 10
  else if c = 'r'.toUInt8 then some 13
  else if c = 't'.toUInt8 then some 9
  else none

/-- Four hexadecimal digits. -/
def codeUnit : List UInt8 → Option (Nat × List UInt8)
  | h₁ :: h₂ :: h₃ :: h₄ :: s =>
    if [h₁, h₂, h₃, h₄].all (isDigitOf 16) then some (ofDigits 16 [h₁, h₂, h₃, h₄], s) else none
  | _ => none

def utf8 (n : Nat) : List UInt8 :=
  if n < 0x80 then [UInt8.ofNat n]
  else if n < 0x800 then [UInt8.ofNat (0xC0 + n / 64), UInt8.ofNat (0x80 + n % 64)]
  else if n < 0x10000 then
    [UInt8.ofNat (0xE0 + n / 4096), UInt8.ofNat (0x80 + n / 64 % 64), UInt8.ofNat (0x80 + n % 64)]
  else
    [UInt8.ofNat (0xF0 + n / 262144), UInt8.ofNat (0x80 + n / 4096 % 64),
      UInt8.ofNat (0x80 + n / 64 % 64), UInt8.ofNat (0x80 + n % 64)]

/-- The second half of a character beyond `U+FFFF`, whose first half is `n`. -/
def lowHalf (n : Nat) : List UInt8 → Option (Nat × List UInt8)
  | b :: u :: s =>
    if b = '\\'.toUInt8 ∧ u = 'u'.toUInt8 ∧ 0xD800 ≤ n ∧ n < 0xDC00 then
      (codeUnit s).filter fun r => 0xDC00 ≤ r.1 ∧ r.1 < 0xE000
    else none
  | _ => none

/-- What stands behind a backslash. -/
def escaped : List UInt8 → Option (List UInt8 × List UInt8)
  | [] => none
  | c :: s =>
    if c ≠ 'u'.toUInt8 then (escape c).map fun x => ([x], s)
    else
      match codeUnit s with
      | none => none
      | some (n, s) =>
        match lowHalf n s with
        | some (m, s) => some (utf8 (0x10000 + (n - 0xD800) * 0x400 + (m - 0xDC00)), s)
        | none => some (utf8 n, s)

/-- Put a piece in front of what has been read. -/
def put {α : Type} (x : List α) (r : Option (List α × List UInt8)) : Option (List α × List UInt8) :=
  r.map fun r => (x ++ r.1, r.2)

/-- The rest of a string behind its first quote, and what follows it. -/
def stringBody : Nat → List UInt8 → Option (List UInt8 × List UInt8)
  | 0, _ => none
  | _ + 1, [] => none
  | n + 1, c :: s =>
    if c = '"'.toUInt8 then some ([], s)
    else if c < 0x20 then none
    else if c ≠ '\\'.toUInt8 then put [c] (stringBody n s)
    else
      match escaped s with
      | none => none
      | some (x, s) => put x (stringBody n s)

/-! ## Numbers -/

def fraction : List UInt8 → Option (List UInt8 × List UInt8)
  | [] => some ([], [])
  | c :: s =>
    if c ≠ '.'.toUInt8 then some ([], c :: s)
    else if s.takeWhile isDigit = [] then none
    else some (s.takeWhile isDigit, s.dropWhile isDigit)

def exponent : List UInt8 → Option (Int × List UInt8)
  | [] => some (0, [])
  | c :: s =>
    if c ≠ 'e'.toUInt8 ∧ c ≠ 'E'.toUInt8 then some (0, c :: s)
    else
      let (negative, s) := signed s
      if s.takeWhile isDigit = [] then none
      else some (signedValue negative (ofDigits 10 (s.takeWhile isDigit)), s.dropWhile isDigit)

/-- A minus sign: whether there is one, and what follows. -/
def minus : List UInt8 → Bool × List UInt8
  | [] => (false, [])
  | c :: s => if c = '-'.toUInt8 then (true, s) else (false, c :: s)

def numberText (s : List UInt8) : Option (Json × List UInt8) :=
  let (negative, s) := minus s
  let whole := s.takeWhile isDigit
  if whole = [] ∨ whole.head? = some '0'.toUInt8 ∧ whole ≠ ['0'.toUInt8] then none
  else
    match fraction (s.dropWhile isDigit) with
    | none => none
    | some (part, s) =>
      match exponent s with
      | none => none
      | some (e, s) =>
        some (number (signedValue negative (ofDigits 10 (whole ++ part))) (e - part.length), s)

/-! ## Values in a text -/

/-- Items with commas between them, up to a closing bracket. -/
def items {α : Type} (item : List UInt8 → Option (α × List UInt8)) (close : UInt8) :
    Nat → List UInt8 → Option (List α × List UInt8)
  | 0, _ => none
  | n + 1, s =>
    match item s with
    | none => none
    | some (x, s) =>
      match skipBlanks s with
      | [] => none
      | c :: s =>
        if c = close then some ([x], s)
        else if c = ','.toUInt8 then put [x] (items item close n s)
        else none

/-- What stands between two brackets; there may be nothing. -/
def bracketed {α : Type} (item : List UInt8 → Option (α × List UInt8)) (close : UInt8)
    (s : List UInt8) : Option (List α × List UInt8) :=
  match skipBlanks s with
  | [] => none
  | c :: rest => if c = close then some ([], rest) else items item close s.length s

/-- A name, a colon and a value. -/
def memberText (value : List UInt8 → Option (Json × List UInt8)) (s : List UInt8) :
    Option ((List UInt8 × Json) × List UInt8) :=
  match skipBlanks s with
  | [] => none
  | q :: s =>
    if q ≠ '"'.toUInt8 then none
    else
      match stringBody s.length s with
      | none => none
      | some (name, s) =>
        match skipBlanks s with
        | [] => none
        | c :: s =>
          if c = ':'.toUInt8 then (value s).map fun r => ((name, r.1), r.2) else none

def literal (word : List UInt8) (j : Json) (s : List UInt8) : Option (Json × List UInt8) :=
  if word.isPrefixOf s then some (j, s.drop word.length) else none

/-- The value in front of a text, with at most `n - 1` levels of brackets. -/
def value : Nat → List UInt8 → Option (Json × List UInt8)
  | 0, _ => none
  | n + 1, s =>
    match skipBlanks s with
    | [] => none
    | c :: s =>
      if c = '"'.toUInt8 then (stringBody s.length s).map fun r => (string r.1, r.2)
      else if c = '['.toUInt8 then
        (bracketed (value n) ']'.toUInt8 s).map fun r => (array r.1, r.2)
      else if c = '{'.toUInt8 then
        (bracketed (memberText (value n)) '}'.toUInt8 s).map fun r => (object r.1, r.2)
      else if c = 't'.toUInt8 then literal (text "true") (bool true) (c :: s)
      else if c = 'f'.toUInt8 then literal (text "false") (bool false) (c :: s)
      else if c = 'n'.toUInt8 then literal (text "null") null (c :: s)
      else numberText (c :: s)

/-- The value that a whole text denotes. -/
def parse (s : List UInt8) : Option Json :=
  match value (s.length + 1) s with
  | none => none
  | some (j, rest) => if skipBlanks rest = [] then some j else none

/-- The members of a text that is an object. -/
def parseObject (s : List UInt8) : Option (List (List UInt8 × Json)) :=
  match parse s with
  | some (object members) => some members
  | _ => none

end Json

end Velox
