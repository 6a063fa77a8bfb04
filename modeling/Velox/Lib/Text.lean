import Mathlib.Data.FinEnum
import Mathlib.Data.List.TakeWhile
import Mathlib.Tactic

/-!
# Byte strings

Text as the bytes of its characters, which is how a program reads a line, a name or a header, and
the conversions of the C++ library from text to numbers. `stoul` and `stoll` skip blanks, take a
sign, read as many digits as there are and ignore the rest; they throw where there is no digit or
where the number does not fit. `extractLongLong` and `extractWord` are the operators `>>` of a
stream, which also say what is left of it.
-/

namespace Velox

/-- The bytes of an ASCII text. -/
def text (s : String) : List UInt8 := s.toList.map Char.toUInt8

namespace Text

def isSpace (c : UInt8) : Bool := c = 32 || (9 ≤ c && c ≤ 13)

def isDigit (c : UInt8) : Bool := '0'.toUInt8 ≤ c && c ≤ '9'.toUInt8

/-- The value of a digit or a letter. -/
def digitValue (c : UInt8) : Nat :=
  if '0'.toUInt8 ≤ c ∧ c ≤ '9'.toUInt8 then c.toNat - '0'.toNat
  else if 'a'.toUInt8 ≤ c ∧ c ≤ 'z'.toUInt8 then c.toNat - 'a'.toNat + 10
  else if 'A'.toUInt8 ≤ c ∧ c ≤ 'Z'.toUInt8 then c.toNat - 'A'.toNat + 10
  else 36

def isDigitOf (base : Nat) (c : UInt8) : Bool := digitValue c < base

/-- The number that these digits write. -/
def ofDigits (base : Nat) (ds : List UInt8) : Nat :=
  ds.foldl (fun n c => n * base + digitValue c) 0

/-- An optional sign: whether it is a minus, and what follows it. -/
def signed : List UInt8 → Bool × List UInt8
  | [] => (false, [])
  | c :: rest =>
    if c = '-'.toUInt8 then (true, rest)
    else if c = '+'.toUInt8 then (false, rest)
    else (false, c :: rest)

/-! ## Conversions that throw -/

inductive StoError where
  | invalidArgument
  | outOfRange
  deriving DecidableEq, Repr

/-- `0x` is skipped if a digit follows it. -/
def skipHexMark : List UInt8 → List UInt8
  | z :: x :: c :: rest =>
    if z = '0'.toUInt8 ∧ (x = 'x'.toUInt8 ∨ x = 'X'.toUInt8) ∧ isDigitOf 16 c then c :: rest
    else z :: x :: c :: rest
  | s => s

/-- The sign and the digits that a conversion reads. -/
def numeral (base : Nat) (s : List UInt8) : Bool × List UInt8 :=
  let (negative, s) := signed (s.dropWhile isSpace)
  (negative, (if base = 16 then skipHexMark s else s).takeWhile (isDigitOf base))

def stoul (base : Nat) (s : List UInt8) : Except StoError UInt64 :=
  let (negative, ds) := numeral base s
  if ds = [] then .error .invalidArgument
  else if 2 ^ 64 ≤ ofDigits base ds then .error .outOfRange
  else
    let n := UInt64.ofNat (ofDigits base ds)
    .ok (if negative then -n else n)

/-- `long long` holds this number. -/
def FitsLongLong (v : Int) : Prop := -2 ^ 63 ≤ v ∧ v < 2 ^ 63

instance (v : Int) : Decidable (FitsLongLong v) := inferInstanceAs (Decidable (_ ∧ _))

def signedValue (negative : Bool) (n : Nat) : Int := if negative then -n else n

def stoll (base : Nat) (s : List UInt8) : Except StoError Int :=
  let (negative, ds) := numeral base s
  if ds = [] then .error .invalidArgument
  else if FitsLongLong (signedValue negative (ofDigits base ds)) then
    .ok (signedValue negative (ofDigits base ds))
  else .error .outOfRange

/-! ## Streams -/

/-- `stream >> n` for a `long long`: the number and the rest of the stream. -/
def extractLongLong (s : List UInt8) : Option (Int × List UInt8) :=
  let (negative, s) := signed (s.dropWhile isSpace)
  let v := signedValue negative (ofDigits 10 (s.takeWhile isDigit))
  if s.takeWhile isDigit = [] then none
  else if FitsLongLong v then some (v, s.dropWhile isDigit)
  else none

/-- `stream >> word`. -/
def extractWord (s : List UInt8) : Option (List UInt8 × List UInt8) :=
  let s := s.dropWhile isSpace
  let word := s.takeWhile fun c => !isSpace c
  if word = [] then none else some (word, s.dropWhile fun c => !isSpace c)

/-- What `getline` returns, call after call. -/
def lines : List UInt8 → List (List UInt8)
  | [] => []
  | c :: cs =>
    if c = '\n'.toUInt8 then [] :: lines cs
    else
      match lines cs with
      | [] => [[c]]
      | line :: rest => (c :: line) :: rest

/-! ## Pieces of a text -/

/-- The longest part in front that passes the test, and the rest. -/
theorem takeWhile_append_of {p : UInt8 → Bool} {a b : List UInt8} (ha : ∀ c ∈ a, p c)
    (hb : ∀ c, b.head? = some c → p c = false) :
    (a ++ b).takeWhile p = a ∧ (a ++ b).dropWhile p = b := by
  have hnone : b.takeWhile p = [] ∧ b.dropWhile p = b := by
    cases b with
    | nil => exact ⟨rfl, rfl⟩
    | cons c b => simp [hb c rfl]
  rw [List.takeWhile_append_of_pos ha, List.dropWhile_append_of_pos ha, hnone.1, hnone.2,
    List.append_nil]
  exact ⟨rfl, rfl⟩

theorem isDigit_eq (c : UInt8) : isDigit c = isDigitOf 10 c := by
  revert c
  decide +kernel

theorem not_isSpace_of_isDigitOf {c : UInt8} (h : isDigitOf 16 c) : isSpace c = false := by
  have hall : ∀ c : UInt8, isDigitOf 16 c → isSpace c = false := by decide +kernel
  exact hall c h

theorem ofDigits_concat (base : Nat) (ds : List UInt8) (c : UInt8) :
    ofDigits base (ds ++ [c]) = ofDigits base ds * base + digitValue c := by
  rw [ofDigits, List.foldl_concat, ofDigits]

theorem ofDigits_lt {base : Nat} {ds : List UInt8} (h : ∀ c ∈ ds, isDigitOf base c) :
    ofDigits base ds < base ^ ds.length := by
  induction ds using List.reverseRecOn with
  | nil => exact Nat.one_pos
  | append_singleton ds c ih =>
    have hds : ofDigits base ds + 1 ≤ base ^ ds.length :=
      ih fun c' hc' => h c' (List.mem_append_left _ hc')
    have hc : digitValue c < base := by simpa [isDigitOf] using h c (by simp)
    rw [ofDigits_concat, List.length_append, List.length_singleton, pow_succ]
    calc ofDigits base ds * base + digitValue c < ofDigits base ds * base + base := by omega
      _ = (ofDigits base ds + 1) * base := by ring
      _ ≤ base ^ ds.length * base := Nat.mul_le_mul_right _ hds

/-! ## The digits of a numeral -/

theorem numeral_digits (base : Nat) (s : List UInt8) : ∀ c ∈ (numeral base s).2, isDigitOf base c :=
  fun _ hc => List.mem_takeWhile_imp hc

theorem length_numeral_le (base : Nat) (s : List UInt8) :
    (numeral base s).2.length ≤ s.length := by
  have hsigned : ∀ s, (signed s).2.length ≤ s.length := by
    intro s
    unfold signed
    split
    · exact le_refl _
    · split_ifs <;> simp
  have hmark : ∀ s, (skipHexMark s).length ≤ s.length := by
    intro s
    unfold skipHexMark
    split
    · split_ifs <;> simp
    · exact le_refl _
  have hbase : ∀ s, (if base = 16 then skipHexMark s else s).length ≤ s.length := by
    intro s
    by_cases h : base = 16
    · simpa [h] using hmark s
    · simp [h]
  calc (numeral base s).2.length
      ≤ _ := (List.takeWhile_prefix _).length_le
    _ ≤ _ := hbase _
    _ ≤ _ := hsigned _
    _ ≤ s.length := (List.dropWhile_suffix _).length_le

/-! ## Reading from a stream -/

theorem signed_eq {sign s : List UInt8} (hsign : sign = [] ∨ sign = text "+" ∨ sign = text "-")
    (hs : ∀ c, s.head? = some c → isDigit c) :
    signed (sign ++ s) = (decide (sign = text "-"), s) := by
  have hdigit : ∀ c : UInt8, isDigit c → c ≠ '-'.toUInt8 ∧ c ≠ '+'.toUInt8 := by decide +kernel
  rcases hsign with rfl | rfl | rfl
  · cases s with
    | nil => rfl
    | cons c s =>
      have hc := hdigit c (hs c rfl)
      simp [signed, hc.1, hc.2, text]
  · rfl
  · rfl

/-- A number in front of a stream is extracted. -/
theorem extractLongLong_eq {before sign digits rest : List UInt8}
    (hbefore : ∀ c ∈ before, isSpace c)
    (hsign : sign = [] ∨ sign = text "+" ∨ sign = text "-") (hne : digits ≠ [])
    (hdigits : ∀ c ∈ digits, isDigit c) (hrest : ∀ c, rest.head? = some c → isDigit c = false)
    (hfits : FitsLongLong (signedValue (sign = text "-") (ofDigits 10 digits))) :
    extractLongLong (before ++ (sign ++ (digits ++ rest))) =
      some (signedValue (sign = text "-") (ofDigits 10 digits), rest) := by
  have hspace : ∀ c : UInt8, isDigit c → isSpace c = false := by decide +kernel
  have hhead : ∀ c, (digits ++ rest).head? = some c → isDigit c := by
    intro c hc
    cases digits with
    | nil => exact absurd rfl hne
    | cons d digits =>
      cases hc
      exact hdigits _ List.mem_cons_self
  have hskip : ∀ c, (sign ++ (digits ++ rest)).head? = some c → isSpace c = false := by
    intro c hc
    rcases hsign with rfl | rfl | rfl
    · exact hspace c (hhead c hc)
    · cases hc
      decide
    · cases hc
      decide
  have hpieces := takeWhile_append_of hdigits hrest
  rw [extractLongLong, (takeWhile_append_of hbefore hskip).2, signed_eq hsign hhead]
  simp only [hpieces.1, hpieces.2, if_neg hne, if_pos hfits]

theorem extractWord_eq {before word rest : List UInt8} (hbefore : ∀ c ∈ before, isSpace c)
    (hne : word ≠ []) (hword : ∀ c ∈ word, isSpace c = false) (hrest : ∀ c ∈ rest, isSpace c) :
    extractWord (before ++ (word ++ rest)) = some (word, rest) := by
  have hskip : ∀ c, (word ++ rest).head? = some c → isSpace c = false := by
    intro c hc
    cases word with
    | nil => exact absurd rfl hne
    | cons d word =>
      cases hc
      exact hword _ List.mem_cons_self
  have hpieces := takeWhile_append_of (p := fun c => !isSpace c) (a := word) (b := rest)
    (fun c hc => by simp [hword c hc])
    (fun c hc => by simp [hrest c (List.mem_of_mem_head? hc)])
  rw [extractWord, (takeWhile_append_of hbefore hskip).2]
  simp only [hpieces.1, hpieces.2, if_neg hne]

/-- A word has no blanks. -/
theorem extractWord_nonblank {s word rest : List UInt8} (h : extractWord s = some (word, rest)) :
    ∀ c ∈ word, isSpace c = false := by
  simp only [extractWord, Option.ite_none_left_eq_some, Option.some.injEq, Prod.mk.injEq] at h
  obtain ⟨-, rfl, -⟩ := h
  intro c hc
  simpa using List.mem_takeWhile_imp hc

/-! ## Texts of digits only -/

theorem numeral_of_digits {s : List UInt8} (h : ∀ c ∈ s, isDigit c) : numeral 10 s = (false, s) := by
  have hspace : ∀ c : UInt8, isDigit c → isSpace c = false := by decide +kernel
  have hhead : ∀ c, s.head? = some c → isDigit c := fun c hc => h c (List.mem_of_mem_head? hc)
  have hskip : s.dropWhile isSpace = s := by
    cases s with
    | nil => rfl
    | cons c s => simp [hspace c (h c List.mem_cons_self)]
  have hsigned : signed s = (false, s) := signed_eq (Or.inl rfl) hhead
  have hall : s.takeWhile (isDigitOf 10) = s :=
    List.takeWhile_eq_self_iff.2 fun c hc => (isDigit_eq c).symm ▸ h c hc
  simp [numeral, hskip, hsigned, hall]

theorem stoul_of_digits {s : List UInt8} (hne : s ≠ []) (h : ∀ c ∈ s, isDigit c) :
    stoul 10 s =
      if 2 ^ 64 ≤ ofDigits 10 s then .error .outOfRange else .ok (.ofNat (ofDigits 10 s)) := by
  simp [stoul, numeral_of_digits h, hne]

theorem stoll_of_digits {s : List UInt8} (hne : s ≠ []) (h : ∀ c ∈ s, isDigit c) :
    stoll 10 s = if ofDigits 10 s < 2 ^ 63 then .ok (ofDigits 10 s) else .error .outOfRange := by
  have hfits : FitsLongLong (ofDigits 10 s : Int) ↔ ofDigits 10 s < 2 ^ 63 := by
    rw [FitsLongLong]
    omega
  simp [stoll, numeral_of_digits h, hne, signedValue, hfits]

/-! ## Writing numbers -/

/-- The digit for a number below ten. -/
def digitOf (n : Nat) : UInt8 := '0'.toUInt8 + UInt8.ofNat n

/-- The digits of a number, in at most `w` places. -/
def decimalDigits : Nat → Nat → List UInt8
  | 0, _ => []
  | w + 1, n => if n < 10 then [digitOf n] else decimalDigits w (n / 10) ++ [digitOf (n % 10)]

/-- `stream << n` for a number that is not negative. -/
def decimal (n : Nat) : List UInt8 := decimalDigits (n + 1) n

/-- `stream << n`. -/
def decimalInt (n : Int) : List UInt8 :=
  if n < 0 then '-'.toUInt8 :: decimal n.natAbs else decimal n.natAbs

theorem digitOf_spec {n : Nat} (h : n < 10) :
    isDigit (digitOf n) = true ∧ digitValue (digitOf n) = n := by
  have hall : ∀ i : Fin 10, isDigit (digitOf i) = true ∧ digitValue (digitOf i) = i := by
    decide +kernel
  exact hall ⟨n, h⟩

theorem decimalDigits_spec {w n : Nat} (h : n < w) :
    decimalDigits w n ≠ [] ∧ (∀ c ∈ decimalDigits w n, isDigit c) ∧
      ofDigits 10 (decimalDigits w n) = n := by
  induction w generalizing n with
  | zero => omega
  | succ w ih =>
    rw [decimalDigits]
    by_cases hn : n < 10
    · obtain ⟨hdigit, hvalue⟩ := digitOf_spec hn
      simp [hn, hdigit, ofDigits, hvalue]
    · obtain ⟨-, hall, hvalue⟩ := ih (show n / 10 < w by omega)
      obtain ⟨hdigit, hlast⟩ := digitOf_spec (Nat.mod_lt n (by decide : 0 < 10))
      rw [if_neg hn]
      refine ⟨by simp, ?_, ?_⟩
      · intro c hc
        rcases List.mem_append.1 hc with hc | hc
        · exact hall c hc
        · rw [List.mem_singleton.1 hc]
          exact hdigit
      · rw [ofDigits_concat, hvalue, hlast]
        omega

theorem decimal_ne_nil (n : Nat) : decimal n ≠ [] := (decimalDigits_spec (Nat.lt_succ_self n)).1

theorem isDigit_of_mem_decimal {n : Nat} {c : UInt8} (h : c ∈ decimal n) : isDigit c :=
  (decimalDigits_spec (Nat.lt_succ_self n)).2.1 c h

theorem ofDigits_decimal (n : Nat) : ofDigits 10 (decimal n) = n :=
  (decimalDigits_spec (Nat.lt_succ_self n)).2.2

end Text

end Velox
