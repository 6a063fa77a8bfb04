import Velox.Gateway.Session
import Velox.Lib.Text

/-!
# The credentials file

Following `gateway/auth.hpp`. A line of the file is a participant and a token of 64 hexadecimal
digits. The two digits of a byte are converted by `std::stoul`, which takes a sign for a digit,
ignores what it cannot read behind the first digit, and throws where there is none; and nothing
looks at what follows the token, or asks for a blank in front of it. So a file is loaded that has no
such format, or the exception ends the gateway (`loadFromFile_iff`).
-/

namespace Velox.AuthHandler

open Text

abbrev Token := Vector UInt8 32

def create : AuthHandler := ⟨.empty⟩

def addCredential (a : AuthHandler) (id : Int) (token : Token) : AuthHandler :=
  { a with creds := a.creds.put id token }

/-- `iss >> id >> hex`. -/
def fields (line : List UInt8) : Option (Int × List UInt8) :=
  (extractLongLong line).bind fun p => (extractWord p.2).map fun w => (p.1, w.1)

/-- The conversion of one byte: `std::stoul(hex.substr(i * 2, 2), nullptr, 16)`. -/
def tokenByte (hex : List UInt8) (i : Nat) : Except StoError UInt8 :=
  (stoul 16 ((hex.drop (i * 2)).take 2)).map UInt64.toUInt8

def setByte (hex : List UInt8) (tok : Token) (i : Fin 32) : Except StoError Token :=
  (tokenByte hex i).map fun b => tok.set i b

def parseToken (hex : List UInt8) : Except StoError Token :=
  (List.finRange 32).foldlM (setByte hex) (Vector.replicate 32 0)

def isSkipped (line : List UInt8) : Bool := line = [] || line.head? = some '#'.toUInt8

/-- The loop over the lines. -/
def loadLines (a : AuthHandler) : List (List UInt8) → AuthHandler × Except StoError Bool
  | [] => (a, .ok true)
  | line :: rest =>
    if isSkipped line then a.loadLines rest
    else
      match fields line with
      | none => (a, .ok false)
      | some (id, hex) =>
        if hex.length ≠ 64 then (a, .ok false)
        else
          match parseToken hex with
          | .error e => (a, .error e)
          | .ok tok => (a.addCredential id tok).loadLines rest

/-- The file is its content, or cannot be opened. -/
def loadFromFile (a : AuthHandler) : Option (List UInt8) → AuthHandler × Except StoError Bool
  | none => (a, .ok false)
  | some content => a.loadLines (lines content)

/-! ## The comparison -/

theorem authenticate_iff (a : AuthHandler) (id : Int64) (token : Token) :
    a.authenticate id token.toList = true ↔ a.creds.find id.toInt = some token := by
  rw [authenticate]
  cases hfind : a.creds.find id.toInt with
  | none => simp
  | some expected =>
    have hlen : expected.toList.length = token.toList.length := by simp
    simp only [Option.getD_some, Option.isSome_some, Bool.true_and, decide_eq_true_eq,
      Option.some.injEq]
    rw [Bytes.differences_eq_zero_iff hlen, Vector.toList_inj]

/-! ## What a line says -/

/-- A decimal number with an optional sign. -/
def Writes (num : List UInt8) (id : Int) : Prop :=
  ∃ sign digits, num = sign ++ digits ∧ digits ≠ [] ∧ (∀ c ∈ digits, isDigit c) ∧
    (sign = [] ∨ sign = text "+" ∨ sign = text "-") ∧
    id = signedValue (sign = text "-") (ofDigits 10 digits)

/-- The 64 hexadecimal digits of a token. -/
def IsToken (hex : List UInt8) (token : Token) : Prop :=
  hex.length = 64 ∧ (∀ c ∈ hex, isDigitOf 16 c) ∧
    ∀ i : Fin 32, token[i].toNat = ofDigits 16 ((hex.drop (i * 2)).take 2)

/-- The line is a participant and a token, with blanks between and around them. -/
def Denotes (line : List UInt8) (id : Int64) (token : Token) : Prop :=
  ∃ before num between hex behind, line = before ++ (num ++ (between ++ (hex ++ behind))) ∧
    (∀ c ∈ before ++ between ++ behind, isSpace c) ∧ between ≠ [] ∧
    Writes num id.toInt ∧ IsToken hex token

/-! ## What a line is read as -/

/-- The two characters that `std::stoul` can convert. -/
def Convertible (a b : UInt8) : Prop :=
  isDigitOf 16 a ∨ (a = '+'.toUInt8 ∨ a = '-'.toUInt8) ∧ isDigitOf 16 b

theorem numeral_pair {a b : UInt8} (ha : isSpace a = false) :
    (numeral 16 [a, b]).2 ≠ [] ↔ Convertible a b := by
  have hsign : isDigitOf 16 '-'.toUInt8 = false ∧ isDigitOf 16 '+'.toUInt8 = false := by decide
  have hskip : [a, b].dropWhile isSpace = [a, b] := by simp [ha]
  rw [numeral, hskip, Convertible]
  by_cases hminus : a = '-'.toUInt8
  · simp only [signed, if_pos hminus, skipHexMark, if_true]
    rw [hminus]
    cases hb : isDigitOf 16 b <;> simp [hb, hsign.1]
  by_cases hplus : a = '+'.toUInt8
  · simp only [signed, if_neg hminus, if_pos hplus, skipHexMark, if_true]
    rw [hplus]
    cases hb : isDigitOf 16 b <;> simp [hb, hsign.2]
  · simp only [signed, if_neg hminus, if_neg hplus, skipHexMark, if_true]
    cases ha : isDigitOf 16 a <;> simp [ha, hminus, hplus]

/-- Two characters do not write a number out of range. -/
theorem stoul_pair {a b : UInt8} (ha : isSpace a = false) :
    (∃ n, stoul 16 [a, b] = .ok n) ↔ Convertible a b := by
  rw [← numeral_pair ha]
  have hlen : (numeral 16 [a, b]).2.length ≤ 2 := length_numeral_le 16 [a, b]
  have hlt : ¬ 2 ^ 64 ≤ ofDigits 16 (numeral 16 [a, b]).2 := by
    have hle : 16 ^ (numeral 16 [a, b]).2.length ≤ 16 ^ 2 := Nat.pow_le_pow_right (by decide) hlen
    have hlt := ofDigits_lt (numeral_digits 16 [a, b])
    omega
  simp only [stoul, if_neg hlt]
  by_cases hnone : (numeral 16 [a, b]).2 = []
  · simp [hnone]
  · simp [hnone]

/-- Two digits are converted to their number. -/
theorem stoul_digits {a b : UInt8} (ha : isDigitOf 16 a) (hb : isDigitOf 16 b) :
    stoul 16 [a, b] = .ok (UInt64.ofNat (ofDigits 16 [a, b])) := by
  have hsign : ∀ c : UInt8, isDigitOf 16 c → c ≠ '-'.toUInt8 ∧ c ≠ '+'.toUInt8 := by decide +kernel
  have hnumeral : numeral 16 [a, b] = (false, [a, b]) := by
    have hc := hsign a ha
    simp [numeral, not_isSpace_of_isDigitOf ha, signed, hc.1, hc.2, skipHexMark, ha, hb]
  have hlt : ofDigits 16 [a, b] < 16 ^ [a, b].length := ofDigits_lt (by simp [ha, hb])
  simp only [stoul, hnumeral]
  rw [List.length_cons, List.length_cons, List.length_nil] at hlt
  rw [if_neg (by simp), if_neg (by omega)]
  rfl

/-! ## The loop over the bytes -/

/-- The loop over some of the places sets these, and leaves the others. -/
theorem foldlM_tokenByte {hex : List UInt8} {l : List (Fin 32)} (hnodup : l.Nodup)
    {tok token : Token} :
    l.foldlM (setByte hex) tok = .ok token ↔
      (∀ i ∈ l, tokenByte hex i = .ok token[i]) ∧ ∀ i ∉ l, tok[i] = token[i] := by
  induction l generalizing tok with
  | nil =>
    have hext : tok = token ↔ ∀ i : Fin 32, tok[i] = token[i] := by
      constructor
      · intro h i
        rw [h]
      · intro h
        exact Vector.ext fun i hi => h ⟨i, hi⟩
    simp [pure, Except.pure, hext]
  | cons i l ih =>
    obtain ⟨hi, hnodup⟩ := List.nodup_cons.1 hnodup
    rw [List.foldlM_cons]
    cases hbyte : tokenByte hex i with
    | error e =>
      refine iff_of_false (by simp [setByte, hbyte, bind, Except.bind, Except.map]) ?_
      intro h
      have hok := h.1 i List.mem_cons_self
      rw [hbyte] at hok
      cases hok
    | ok b =>
      have hset : ∀ j : Fin 32, (tok.set i b)[j] = if i = j then b else tok[j] := by
        intro j
        simp [Vector.getElem_set, Fin.ext_iff]
      have hstep : setByte hex tok i = .ok (tok.set i b) := by rw [setByte, hbyte]; rfl
      rw [hstep]
      change l.foldlM (setByte hex) (tok.set i b) = .ok token ↔ _
      rw [ih hnodup]
      constructor
      · intro h
        obtain ⟨hin, hout⟩ := h
        have hb : b = token[i] := by simpa [hset] using hout i hi
        refine ⟨?_, ?_⟩
        · intro j hj
          rcases List.mem_cons.1 hj with rfl | hj
          · rw [hbyte, hb]
          · exact hin j hj
        · intro j hj
          have hne : i ≠ j := fun heq => hj (heq ▸ List.mem_cons_self)
          have hout := hout j fun hmem => hj (List.mem_cons_of_mem _ hmem)
          rwa [hset, if_neg hne] at hout
      · intro h
        obtain ⟨hin, hout⟩ := h
        have hb : b = token[i] := by simpa [hbyte] using hin i List.mem_cons_self
        refine ⟨fun j hj => hin j (List.mem_cons_of_mem _ hj), ?_⟩
        intro j hj
        rw [hset]
        by_cases heq : i = j
        · rw [if_pos heq, hb, heq]
        · rw [if_neg heq]
          exact hout j (by simp [Ne.symm heq, hj])

theorem parseToken_eq_ok {hex : List UInt8} {token : Token} :
    parseToken hex = .ok token ↔ ∀ i : Fin 32, tokenByte hex i = .ok token[i] := by
  rw [parseToken, foldlM_tokenByte (List.nodup_finRange 32)]
  simp

theorem exists_parseToken {hex : List UInt8} :
    (∃ token, parseToken hex = .ok token) ↔ ∀ i : Fin 32, ∃ b, tokenByte hex i = .ok b := by
  constructor
  · intro h i
    obtain ⟨token, htoken⟩ := h
    exact ⟨_, parseToken_eq_ok.1 htoken i⟩
  · intro h
    choose b hb using h
    refine ⟨Vector.ofFn b, parseToken_eq_ok.2 fun i => ?_⟩
    rw [hb i]
    simp

/-! ## One line -/

/-- The line is not read as a number and a word of 64 characters. -/
def Rejected (line : List UInt8) : Prop :=
  ∀ id hex, fields line = some (id, hex) → hex.length ≠ 64

/-- The line is read so, and all the pairs of the word can be converted. -/
def ConvertibleLine (line : List UInt8) : Prop :=
  ∃ id hex, fields line = some (id, hex) ∧ hex.length = 64 ∧
    ∀ i : Fin 32, ∃ a b, (hex.drop (i * 2)).take 2 = [a, b] ∧ Convertible a b

/-- The line adds this credential. -/
def Parsed (line : List UInt8) (id : Int) (token : Token) : Prop :=
  ∃ hex, fields line = some (id, hex) ∧ hex.length = 64 ∧ parseToken hex = .ok token

theorem fields_nonblank {line hex : List UInt8} {id : Int} (h : fields line = some (id, hex)) :
    ∀ c ∈ hex, isSpace c = false := by
  obtain ⟨p, -, hword⟩ := Option.bind_eq_some_iff.1 h
  obtain ⟨w, hw, heq⟩ := Option.map_eq_some_iff.1 hword
  cases heq
  exact extractWord_nonblank hw

theorem take_pair {hex : List UInt8} (h : hex.length = 64) (i : Fin 32) :
    ∃ a b, (hex.drop (i * 2)).take 2 = [a, b] ∧ a ∈ hex ∧ b ∈ hex := by
  have hlen : ((hex.drop (i * 2)).take 2).length = 2 := by
    rw [List.length_take, List.length_drop]
    omega
  obtain ⟨a, b, hpair⟩ := List.length_eq_two.1 hlen
  have hmem : ∀ c ∈ [a, b], c ∈ hex := by
    intro c hc
    rw [← hpair] at hc
    exact List.mem_of_mem_drop (List.mem_of_mem_take hc)
  exact ⟨a, b, hpair, hmem a (by simp), hmem b (by simp)⟩

theorem tokenByte_ok_iff {hex : List UInt8} {i : Nat} {a b : UInt8}
    (hpair : (hex.drop (i * 2)).take 2 = [a, b]) (ha : isSpace a = false) :
    (∃ x, tokenByte hex i = .ok x) ↔ Convertible a b := by
  rw [tokenByte, hpair, ← stoul_pair ha]
  cases stoul 16 [a, b] <;> simp [Except.map]

theorem convertibleLine_iff {line : List UInt8} :
    ConvertibleLine line ↔ ∃ id token, Parsed line id token := by
  have hiff : ∀ {id hex}, fields line = some (id, hex) → hex.length = 64 →
      ((∃ token, parseToken hex = .ok token) ↔
        ∀ i : Fin 32, ∃ a b, (hex.drop (i * 2)).take 2 = [a, b] ∧ Convertible a b) := by
    intro id hex hfields hlen
    rw [exists_parseToken]
    refine forall_congr' fun i => ?_
    obtain ⟨a, b, hpair, ha, -⟩ := take_pair hlen i
    rw [tokenByte_ok_iff hpair (fields_nonblank hfields a ha), hpair]
    constructor
    · intro h
      exact ⟨a, b, rfl, h⟩
    · intro h
      obtain ⟨a', b', heq, h⟩ := h
      cases heq
      exact h
  constructor
  · intro h
    obtain ⟨id, hex, hfields, hlen, hpairs⟩ := h
    obtain ⟨token, htoken⟩ := (hiff hfields hlen).2 hpairs
    exact ⟨id, token, hex, hfields, hlen, htoken⟩
  · intro h
    obtain ⟨id, token, hex, hfields, hlen, htoken⟩ := h
    exact ⟨id, hex, hfields, hlen, (hiff hfields hlen).1 ⟨token, htoken⟩⟩

theorem IsToken.parseToken {hex : List UInt8} {token : Token} (h : IsToken hex token) :
    parseToken hex = .ok token := by
  obtain ⟨hlen, hdigits, hbytes⟩ := h
  rw [parseToken_eq_ok]
  intro i
  obtain ⟨a, b, hpair, ha, hb⟩ := take_pair hlen i
  have hbyte := hbytes i
  rw [hpair] at hbyte
  rw [tokenByte, hpair, stoul_digits (hdigits a ha) (hdigits b hb), ← hbyte]
  simp [Except.map]

theorem Denotes.fields {line : List UInt8} {id : Int64} {token : Token}
    (h : Denotes line id token) : ∃ hex, fields line = some (id.toInt, hex) ∧ IsToken hex token := by
  obtain ⟨before, num, between, hex, behind, rfl, hblank, hne, hnum, htoken⟩ := h
  obtain ⟨sign, digits, rfl, hdigits, hall, hsign, hid⟩ := hnum
  simp only [List.forall_mem_append] at hblank
  obtain ⟨⟨hbefore, hbetween⟩, hbehind⟩ := hblank
  have hspace : ∀ c : UInt8, isSpace c → isDigit c = false := by decide +kernel
  have hrest : ∀ c, (between ++ (hex ++ behind)).head? = some c → isDigit c = false := by
    intro c hc
    cases between with
    | nil => exact absurd rfl hne
    | cons d between =>
      cases hc
      exact hspace _ (hbetween _ List.mem_cons_self)
  have hfits : FitsLongLong (signedValue (sign = text "-") (ofDigits 10 digits)) := by
    rw [← hid]
    exact ⟨id.le_toInt, id.toInt_lt⟩
  have hword : hex ≠ [] := by
    intro hnil
    have hlen := htoken.1
    rw [hnil] at hlen
    cases hlen
  refine ⟨hex, ?_, htoken⟩
  rw [AuthHandler.fields, List.append_assoc,
    extractLongLong_eq hbefore hsign hdigits hall hrest hfits, Option.bind_some, extractWord_eq hbetween hword
      (fun c hc => not_isSpace_of_isDigitOf (htoken.2.1 c hc)) hbehind, hid]
  rfl

/-- **A line of the format is read as what it says.** -/
theorem Denotes.parsed {line : List UInt8} {id : Int64} {token : Token}
    (h : Denotes line id token) : Parsed line id.toInt token := by
  obtain ⟨hex, hfields, htoken⟩ := h.fields
  exact ⟨hex, hfields, htoken.1, htoken.parseToken⟩

theorem Parsed.unique {line : List UInt8} {id id' : Int} {token token' : Token}
    (h : Parsed line id token) (h' : Parsed line id' token') : id = id' ∧ token = token' := by
  obtain ⟨hex, hfields, -, htoken⟩ := h
  obtain ⟨hex', hfields', -, htoken'⟩ := h'
  rw [hfields] at hfields'
  cases hfields'
  rw [htoken] at htoken'
  cases htoken'
  exact ⟨rfl, rfl⟩

/-! ## The whole file -/

/-- The lines that are not skipped. -/
def significant (content : List UInt8) : List (List UInt8) :=
  (lines content).filter fun line => !isSkipped line

/-- The last line for this participant is for this token. -/
def LastFor (ls : List (List UInt8)) (id : Int64) (token : Token) : Prop :=
  ∃ pre line post, ls = pre ++ line :: post ∧ Denotes line id token ∧
    ∀ l ∈ post, ∀ t, ¬ Denotes l id t

theorem loadLines_filter (a : AuthHandler) (ls : List (List UInt8)) :
    a.loadLines (ls.filter fun line => !isSkipped line) = a.loadLines ls := by
  induction ls generalizing a with
  | nil => rfl
  | cons line ls ih =>
    by_cases hskip : isSkipped line
    · rw [List.filter_cons_of_neg (by simp [hskip]), ih, loadLines, if_pos hskip]
    · rw [List.filter_cons_of_pos (by simp [hskip]), loadLines, loadLines]
      simp only [ih]

section Lines

variable {a : AuthHandler} {line : List UInt8} {rest : List (List UInt8)}
  (hskip : isSkipped line = false)

include hskip

theorem loadLines_rejected (h : Rejected line) : a.loadLines (line :: rest) = (a, .ok false) := by
  rw [loadLines, if_neg (by simp [hskip])]
  cases hfields : fields line with
  | none => rfl
  | some p => exact if_pos (h p.1 p.2 hfields)

theorem loadLines_parsed {id : Int} {token : Token} (h : Parsed line id token) :
    a.loadLines (line :: rest) = (a.addCredential id token).loadLines rest := by
  obtain ⟨hex, hfields, hlen, htoken⟩ := h
  rw [loadLines, if_neg (by simp [hskip])]
  simp only [hfields, hlen, htoken, ne_eq, not_true_eq_false, if_false]

theorem loadLines_throws (h : ¬ Rejected line) (h' : ¬ ConvertibleLine line) :
    ∃ e, a.loadLines (line :: rest) = (a, .error e) := by
  simp only [Rejected, not_forall, not_not] at h
  obtain ⟨id, hex, hfields, hlen⟩ := h
  cases htoken : parseToken hex with
  | ok token => exact absurd (convertibleLine_iff.2 ⟨id, token, hex, hfields, hlen, htoken⟩) h'
  | error e =>
    refine ⟨e, ?_⟩
    rw [loadLines, if_neg (by simp [hskip])]
    simp only [hfields, hlen, htoken, ne_eq, not_true_eq_false, if_false]

end Lines

theorem ConvertibleLine.not_rejected {line : List UInt8} (h : ConvertibleLine line) :
    ¬ Rejected line := by
  intro hrejected
  obtain ⟨id, hex, hfields, hlen, -⟩ := h
  exact hrejected id hex hfields hlen

theorem Denotes.convertibleLine {line : List UInt8} {id : Int64} {token : Token}
    (h : Denotes line id token) : ConvertibleLine line :=
  convertibleLine_iff.2 ⟨_, _, h.parsed⟩

theorem loadLines_rejected_behind (a : AuthHandler) {pre post : List (List UInt8)}
    {bad : List UInt8} (hls : ∀ l ∈ pre ++ bad :: post, isSkipped l = false)
    (hpre : ∀ l ∈ pre, ConvertibleLine l) (hrej : Rejected bad) :
    (a.loadLines (pre ++ bad :: post)).2 = .ok false := by
  induction pre generalizing a with
  | nil => rw [List.nil_append, loadLines_rejected (hls bad (by simp)) hrej]
  | cons line pre ih =>
    obtain ⟨hskip, hls⟩ := List.forall_mem_cons.1 hls
    obtain ⟨hline, hpre⟩ := List.forall_mem_cons.1 hpre
    obtain ⟨id, token, hparsed⟩ := convertibleLine_iff.1 hline
    rw [List.cons_append, loadLines_parsed hskip hparsed]
    exact ih _ hls hpre

/-- The first line that adds no credential, if there is one, says how the loading ends. -/
theorem loadLines_cases (a : AuthHandler) {ls : List (List UInt8)}
    (hls : ∀ l ∈ ls, isSkipped l = false) :
    (a.loadLines ls).2 = .ok true ∧ (∀ l ∈ ls, ConvertibleLine l) ∨
    ∃ pre bad post, ls = pre ++ bad :: post ∧ (∀ l ∈ pre, ConvertibleLine l) ∧
      ((a.loadLines ls).2 = .ok false ∧ Rejected bad ∨
        (∃ e, (a.loadLines ls).2 = .error e) ∧ ¬ Rejected bad ∧ ¬ ConvertibleLine bad) := by
  induction ls generalizing a with
  | nil => exact .inl ⟨rfl, by simp⟩
  | cons line ls ih =>
    obtain ⟨hskip, hls⟩ := List.forall_mem_cons.1 hls
    by_cases hconv : ConvertibleLine line
    · obtain ⟨id, token, hparsed⟩ := convertibleLine_iff.1 hconv
      rw [loadLines_parsed hskip hparsed]
      rcases ih (a.addCredential id token) hls with ⟨hok, hall⟩ | ⟨pre, bad, post, rfl, hpre, hend⟩
      · exact .inl ⟨hok, List.forall_mem_cons.2 ⟨hconv, hall⟩⟩
      · exact .inr ⟨line :: pre, bad, post, rfl, List.forall_mem_cons.2 ⟨hconv, hpre⟩, hend⟩
    · refine .inr ⟨[], line, ls, rfl, by simp, ?_⟩
      by_cases hrej : Rejected line
      · rw [loadLines_rejected hskip hrej]
        exact .inl ⟨rfl, hrej⟩
      · obtain ⟨e, he⟩ := @loadLines_throws a line ls hskip hrej hconv
        rw [he]
        exact .inr ⟨⟨e, rfl⟩, hrej, hconv⟩

theorem lastFor_cons {line : List UInt8} {ls : List (List UInt8)} {id : Int64} {token : Token} :
    LastFor (line :: ls) id token ↔ LastFor ls id token ∨
      Denotes line id token ∧ ∀ l ∈ ls, ∀ t, ¬ Denotes l id t := by
  constructor
  · intro h
    obtain ⟨pre, line', post, hsplit, hline, hpost⟩ := h
    cases pre with
    | nil =>
      cases hsplit
      exact .inr ⟨hline, hpost⟩
    | cons l pre =>
      cases hsplit
      exact .inl ⟨pre, line', post, rfl, hline, hpost⟩
  · intro h
    rcases h with ⟨pre, line', post, rfl, hline, hpost⟩ | ⟨hline, hnone⟩
    · exact ⟨line :: pre, line', post, rfl, hline, hpost⟩
    · exact ⟨[], line, ls, rfl, hline, hnone⟩

/-- The credentials are those of the last lines. -/
theorem find_loadLines (a : AuthHandler) {ls : List (List UInt8)}
    (hls : ∀ l ∈ ls, isSkipped l = false) (hall : ∀ l ∈ ls, ∃ id token, Denotes l id token)
    (id : Int64) (token : Token) :
    (a.loadLines ls).1.creds.find id.toInt = some token ↔
      LastFor ls id token ∨
        a.creds.find id.toInt = some token ∧ ∀ l ∈ ls, ∀ t, ¬ Denotes l id t := by
  induction ls generalizing a with
  | nil => simp [loadLines, LastFor]
  | cons line ls ih =>
    obtain ⟨hskip, hls⟩ := List.forall_mem_cons.1 hls
    obtain ⟨⟨id', token', hline⟩, hall⟩ := List.forall_mem_cons.1 hall
    rw [loadLines_parsed hskip hline.parsed, ih _ hls hall, lastFor_cons, List.forall_mem_cons]
    simp only [addCredential, SortedMap.find_put]
    by_cases hid : id = id'
    · -- The line is for this participant: what was there before does not matter.
      subst hid
      have hdenotes : Denotes line id token ↔ token' = token := by
        constructor
        · intro h
          exact (hline.parsed.unique h.parsed).2
        · intro h
          exact h ▸ hline
      have hsome : ¬ ∀ t, ¬ Denotes line id t := fun h => h token' hline
      simp [hdenotes, hsome]
    · have hnone : ∀ t, ¬ Denotes line id t := by
        intro t ht
        exact hid (Int64.toInt_inj.1 (ht.parsed.unique hline.parsed).1)
      have hne : id.toInt ≠ id'.toInt := fun h => hid (Int64.toInt_inj.1 h)
      simp [hnone, hne]

/-- What is asked of the loading of a file: no exception; and a file that is loaded has the format,
and lets in whom its last lines say. -/
structure LoadsRight (content : List UInt8) : Prop where
  returns : ∃ b, (create.loadFromFile (some content)).2 = .ok b
  format : (create.loadFromFile (some content)).2 = .ok true →
    ∀ line ∈ significant content, ∃ id token, Denotes line id token
  lets_in : (create.loadFromFile (some content)).2 = .ok true → ∀ id (token : Token),
    (create.loadFromFile (some content)).1.authenticate id token.toList = true ↔
      LastFor (significant content) id token

/-- **A file is loaded right** if and only if it has the format, or a line that is rejected comes
before all lines that cannot be converted. -/
theorem loadFromFile_iff (content : List UInt8) :
    LoadsRight content ↔
      (∀ line ∈ significant content, ∃ id token, Denotes line id token) ∨
      ∃ pre bad post, significant content = pre ++ bad :: post ∧
        (∀ line ∈ pre, ConvertibleLine line) ∧ Rejected bad := by
  have hload : create.loadFromFile (some content) = create.loadLines (significant content) :=
    (loadLines_filter create (lines content)).symm
  have hls : ∀ l ∈ significant content, isSkipped l = false := by
    intro l hl
    simpa using (List.mem_filter.1 hl).2
  have hcases := loadLines_cases create hls
  constructor
  · intro h
    rcases hcases with ⟨hok, -⟩ | ⟨pre, bad, post, hsplit, hpre, hend⟩
    · exact .inl (h.format (by rw [hload, hok]))
    · rcases hend with ⟨-, hrej⟩ | ⟨⟨e, he⟩, -⟩
      · exact .inr ⟨pre, bad, post, hsplit, hpre, hrej⟩
      · obtain ⟨b, hb⟩ := h.returns
        rw [hload, he] at hb
        cases hb
  · intro h
    rcases h with hall | ⟨pre, bad, post, hsplit, hpre, hrej⟩
    · rcases hcases with ⟨hok, -⟩ | ⟨pre, bad, post, hsplit, -, hend⟩
      · refine ⟨⟨true, by rw [hload, hok]⟩, fun _ => hall, ?_⟩
        intro _ id token
        rw [authenticate_iff, hload, find_loadLines create hls hall]
        simp [create]
      · obtain ⟨id, token, hbad⟩ := hall bad (by rw [hsplit]; simp)
        rcases hend with ⟨-, hrej⟩ | ⟨-, -, hconv⟩
        · exact absurd hrej hbad.convertibleLine.not_rejected
        · exact absurd hbad.convertibleLine hconv
    · have hfalse : (create.loadFromFile (some content)).2 = .ok false := by
        rw [hload, hsplit]
        exact loadLines_rejected_behind create (hsplit ▸ hls) hpre hrej
      have hnot : (create.loadFromFile (some content)).2 ≠ .ok true := by simp [hfalse]
      exact ⟨⟨false, hfalse⟩, fun h => absurd h hnot, fun h => absurd h hnot⟩

/-- A letter that is no digit ends the program; a sign for a digit is loaded. -/
theorem not_loads_right :
    (create.loadFromFile (some (text "7 " ++ (List.replicate 32 (text "g0")).flatten))).2 =
      .error .invalidArgument ∧
    (create.loadFromFile (some (text "7 " ++ (List.replicate 32 (text "+f")).flatten))).2 =
      .ok true ∧
    ∀ id token, ¬ Denotes (text "7 " ++ (List.replicate 32 (text "+f")).flatten) id token := by
  refine ⟨by decide +kernel, by decide +kernel, ?_⟩
  intro id token h
  obtain ⟨hex, hfields, -, hdigits, -⟩ := h.fields
  have hread : fields (text "7 " ++ (List.replicate 32 (text "+f")).flatten) =
      some (7, (List.replicate 32 (text "+f")).flatten) := by decide +kernel
  rw [hread] at hfields
  obtain ⟨-, rfl⟩ := Prod.mk.inj (Option.some.inj hfields)
  have hplus := hdigits '+'.toUInt8 (by decide +kernel)
  revert hplus
  decide

end Velox.AuthHandler
