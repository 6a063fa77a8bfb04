import Velox.Lib.Bytes
import Velox.Lib.Framing

/-!
# WebSocket frames

RFC 6455, section 5.2, as a client reads what a server sends: a first byte, a length in the
shortest of its three forms, and the payload. Server frames carry no mask. `codec` says that the
frames which are written are the ones that are read, and that no other bytes are read as a frame.
-/

namespace Velox.WebSocket

/-- The `w` low bytes of `n`, most significant first. -/
def be (w n : Nat) : List UInt8 := (Bytes.le w n).reverse

/-- The number with these bytes. -/
def ofBe (bs : List UInt8) : Nat := Bytes.ofLe bs.reverse

@[simp] theorem length_be (w n : Nat) : (be w n).length = w := by
  rw [be, List.length_reverse, Bytes.length_le]

theorem ofBe_be {w n : Nat} (h : n < 256 ^ w) : ofBe (be w n) = n := by
  rw [ofBe, be, List.reverse_reverse, Bytes.ofLe_le, Nat.mod_eq_of_lt h]

theorem be_ofBe (bs : List UInt8) : be bs.length (ofBe bs) = bs := by
  rw [be, ofBe, ← List.length_reverse, Bytes.le_ofLe, List.reverse_reverse]

theorem ofBe_lt (bs : List UInt8) : ofBe bs < 256 ^ bs.length := by
  rw [ofBe, ← List.length_reverse]
  exact Bytes.ofLe_lt _

theorem ofBe_concat (bs : List UInt8) (b : UInt8) : ofBe (bs ++ [b]) = 256 * ofBe bs + b.toNat := by
  rw [ofBe, List.reverse_concat, Bytes.ofLe, Nat.add_comm, ofBe]

/-! ## Frames -/

/-- The first byte holds the FIN bit and the opcode. -/
structure Frame where
  head : UInt8
  payload : List UInt8
  deriving DecidableEq, Repr

/-- The second byte of a frame, without a mask, and the bytes of the length behind it. -/
def lengthCode (n : Nat) : List UInt8 :=
  if n ≤ 125 then [UInt8.ofNat n] else if n ≤ 0xFFFF then 126 :: be 2 n else 127 :: be 8 n

def Frame.wire (f : Frame) : List UInt8 := f.head :: lengthCode f.payload.length ++ f.payload

inductive Error where
  | masked
  | notMinimal
  | tooLong
  deriving DecidableEq, Repr

/-- The length of the payload, and of the header. -/
def header : List UInt8 → Next Nat Error
  | _ :: code :: rest =>
    if 128 ≤ code then .bad .masked
    else if code ≤ 125 then .ok code.toNat 2
    else if code = 126 then
      if rest.length < 2 then .more
      else if ofBe (rest.take 2) ≤ 125 then .bad .notMinimal
      else .ok (ofBe (rest.take 2)) 4
    else
      if rest.length < 8 then .more
      else if ofBe (rest.take 8) ≤ 0xFFFF then .bad .notMinimal
      else if 2 ^ 63 ≤ ofBe (rest.take 8) then .bad .tooLong
      else .ok (ofBe (rest.take 8)) 10
  | _ => .more

def next (bs : List UInt8) : Next Frame Error :=
  match header bs with
  | .more => .more
  | .bad e => .bad e
  | .ok n size =>
    if bs.length < size + n then .more
    else .ok ⟨bs.headD 0, (bs.drop size).take n⟩ (size + n)

theorem header_append {bs : List UInt8} (cs : List UInt8) (h : header bs ≠ .more) :
    header (bs ++ cs) = header bs := by
  match bs with
  | [] => exact absurd rfl h
  | [_] => exact absurd rfl h
  | head :: code :: rest =>
    rw [List.cons_append, List.cons_append, header, header]
    by_cases hmask : 128 ≤ code
    · rw [if_pos hmask, if_pos hmask]
    by_cases hshort : code ≤ 125
    · rw [if_neg hmask, if_pos hshort, if_neg hmask, if_pos hshort]
    rw [header, if_neg hmask, if_neg hshort] at h
    rw [if_neg hmask, if_neg hshort, if_neg hmask, if_neg hshort]
    -- The bytes of the length are there, and more bytes do not change them.
    have hlen : (rest ++ cs).length = rest.length + cs.length := List.length_append
    by_cases hmid : code = 126
    · rw [if_pos hmid] at h ⊢
      have hfull : ¬ rest.length < 2 := fun hlt => h (if_pos hlt)
      rw [if_neg hfull, if_neg (by omega), List.take_append_of_le_length (by omega), if_pos hmid]
    · rw [if_neg hmid] at h ⊢
      have hfull : ¬ rest.length < 8 := fun hlt => h (if_pos hlt)
      rw [if_neg hfull, if_neg (by omega), List.take_append_of_le_length (by omega), if_neg hmid]

theorem be_take {w : Nat} {rest : List UInt8} (h : ¬ rest.length < w) :
    be w (ofBe (rest.take w)) = rest.take w := by
  have hlen : (rest.take w).length = w := List.length_take_of_le (by omega)
  have hbe := be_ofBe (rest.take w)
  rwa [hlen] at hbe

theorem lengthCode_short {code : UInt8} (h : code ≤ 125) : lengthCode code.toNat = [code] := by
  have hle : code.toNat ≤ 125 := UInt8.le_iff_toNat_le.1 h
  rw [lengthCode, if_pos hle, UInt8.ofNat_toNat]

/-- A header that can be read is one of the three forms. -/
theorem header_cases {bs : List UInt8} {n size : Nat} (h : header bs = .ok n size) :
    ∃ head rest, bs = head :: lengthCode n ++ rest ∧ size = 1 + (lengthCode n).length ∧
      n < 2 ^ 63 := by
  match bs with
  | [] => cases h
  | [_] => cases h
  | head :: code :: rest =>
    rw [header] at h
    by_cases hmask : 128 ≤ code
    · rw [if_pos hmask] at h
      cases h
    by_cases hshort : code ≤ 125
    · rw [if_neg hmask, if_pos hshort] at h
      cases h
      rw [lengthCode_short hshort]
      have hle : code.toNat ≤ 125 := UInt8.le_iff_toNat_le.1 hshort
      exact ⟨head, rest, rfl, rfl, by omega⟩
    rw [if_neg hmask, if_neg hshort] at h
    by_cases hmid : code = 126
    · rw [if_pos hmid] at h
      by_cases hfull : rest.length < 2
      · rw [if_pos hfull] at h
        cases h
      by_cases hmin : ofBe (rest.take 2) ≤ 125
      · rw [if_neg hfull, if_pos hmin] at h
        cases h
      rw [if_neg hfull, if_neg hmin] at h
      obtain ⟨rfl, rfl⟩ := Next.ok.inj h
      have hlt := ofBe_lt (rest.take 2)
      rw [List.length_take_of_le (by omega)] at hlt
      rw [lengthCode, if_neg hmin, if_pos (by omega), be_take hfull, hmid]
      exact ⟨head, rest.drop 2, by simp, by simp; omega, by omega⟩
    · rw [if_neg hmid] at h
      have hcode : code = 127 := by
        rw [UInt8.le_iff_toNat_le, not_le] at hmask hshort
        rw [← UInt8.toNat_inj] at hmid ⊢
        have hmask : code.toNat < 128 := hmask
        have hshort : 125 < code.toNat := hshort
        have hmid : code.toNat ≠ 126 := hmid
        change code.toNat = 127
        omega
      by_cases hfull : rest.length < 8
      · rw [if_pos hfull] at h
        cases h
      by_cases hmin : ofBe (rest.take 8) ≤ 0xFFFF
      · rw [if_neg hfull, if_pos hmin] at h
        cases h
      by_cases hbig : 2 ^ 63 ≤ ofBe (rest.take 8)
      · rw [if_neg hfull, if_neg hmin, if_pos hbig] at h
        cases h
      rw [if_neg hfull, if_neg hmin, if_neg hbig] at h
      obtain ⟨rfl, rfl⟩ := Next.ok.inj h
      rw [lengthCode, if_neg (by omega), if_neg hmin, be_take hfull, hcode]
      exact ⟨head, rest.drop 8, by simp, by simp; omega, not_le.1 hbig⟩

theorem header_wire (head : UInt8) {n : Nat} (rest : List UInt8) (h : n < 2 ^ 63) :
    header (head :: lengthCode n ++ rest) = .ok n (1 + (lengthCode n).length) := by
  by_cases hshort : n ≤ 125
  · have hcode : (UInt8.ofNat n).toNat = n := by
      rw [UInt8.toNat_ofNat', Nat.mod_eq_of_lt (by omega)]
    have hmask : ¬ 128 ≤ UInt8.ofNat n := by
      rw [UInt8.le_iff_toNat_le, hcode]
      exact not_le.2 (by simp; omega)
    have hle : UInt8.ofNat n ≤ 125 := by
      rw [UInt8.le_iff_toNat_le, hcode]
      exact hshort
    rw [lengthCode, if_pos hshort, List.cons_append, List.cons_append, header, if_neg hmask,
      if_pos hle, hcode]
    rfl
  · by_cases hmid : n ≤ 0xFFFF
    · have htake : (be 2 n ++ rest).take 2 = be 2 n := List.take_left' (length_be 2 n)
      rw [lengthCode, if_neg hshort, if_pos hmid, List.cons_append, List.cons_append, header,
        if_neg (by decide), if_neg (by decide), if_pos rfl, if_neg (by simp; omega), htake,
        ofBe_be (by omega), if_neg hshort]
      simp
    · have htake : (be 8 n ++ rest).take 8 = be 8 n := List.take_left' (length_be 8 n)
      rw [lengthCode, if_neg hshort, if_neg hmid, List.cons_append, List.cons_append, header,
        if_neg (by decide), if_neg (by decide), if_neg (by decide), if_neg (by simp), htake,
        ofBe_be (by omega), if_neg hmid, if_neg (by omega)]
      simp

/-! ## The codec -/

theorem Frame.length_wire (f : Frame) :
    f.wire.length = 1 + (lengthCode f.payload.length).length + f.payload.length := by
  simp only [Frame.wire, List.length_append, List.length_cons]
  omega

/-- A frame that is read stands at the front as it is written. -/
theorem next_ok_iff {bs : List UInt8} {f : Frame} {n : Nat} :
    next bs = .ok f n ↔
      f.payload.length < 2 ^ 63 ∧ n = f.wire.length ∧ ∃ rest, bs = f.wire ++ rest := by
  constructor
  · intro h
    rw [next] at h
    cases hheader : header bs with
    | more => simp [hheader] at h
    | bad e => simp [hheader] at h
    | ok len size =>
      by_cases hlen : bs.length < size + len
      · simp [hheader, hlen] at h
      · simp only [hheader, if_neg hlen] at h
        obtain ⟨rfl, rfl⟩ := Next.ok.inj h
        obtain ⟨head, rest, rfl, rfl, hlt⟩ := header_cases hheader
        have hdrop : (head :: lengthCode len ++ rest).drop (1 + (lengthCode len).length) = rest :=
          List.drop_left' (by simp; omega)
        have htake : (rest.take len).length = len := by
          simp only [List.length_append, List.length_cons] at hlen
          exact List.length_take_of_le (by omega)
        rw [hdrop]
        refine ⟨by rwa [htake], ?_, rest.drop len, ?_⟩
        · rw [Frame.length_wire, htake]
        · simp [Frame.wire, htake]
  · intro h
    obtain ⟨hlt, rfl, rest, rfl⟩ := h
    have hheader : header (f.wire ++ rest) =
        .ok f.payload.length (1 + (lengthCode f.payload.length).length) := by
      rw [Frame.wire, List.append_assoc]
      exact header_wire f.head (f.payload ++ rest) hlt
    have hlen : ¬ (f.wire ++ rest).length <
        1 + (lengthCode f.payload.length).length + f.payload.length := by
      rw [List.length_append, Frame.length_wire]
      omega
    have hdrop : (f.wire ++ rest).drop (1 + (lengthCode f.payload.length).length) =
        f.payload ++ rest := by
      rw [Frame.wire, List.append_assoc]
      exact List.drop_left' (by simp; omega)
    rw [next, hheader]
    simp only [if_neg hlen, hdrop, List.take_left, Frame.length_wire]
    rfl

theorem next_bad_iff {bs : List UInt8} {e : Error} : next bs = .bad e ↔ header bs = .bad e := by
  rw [next]
  cases header bs with
  | more => simp
  | bad e' => simp
  | ok len size =>
    by_cases hlen : bs.length < size + len <;> simp [hlen]

/-- Frames as a client reads them. -/
def framing : Framing Frame Error where
  next := next
  size_pos := by
    intro bs f n h
    obtain ⟨-, rfl, -⟩ := next_ok_iff.1 h
    rw [Frame.length_wire]
    omega
  size_le := by
    intro bs f n h
    obtain ⟨-, rfl, rest, rfl⟩ := next_ok_iff.1 h
    simp
  ok_append := by
    intro bs f n cs h
    obtain ⟨hlt, hn, rest, rfl⟩ := next_ok_iff.1 h
    exact next_ok_iff.2 ⟨hlt, hn, rest ++ cs, List.append_assoc ..⟩
  bad_append := by
    intro bs e cs h
    have hheader := next_bad_iff.1 h
    refine next_bad_iff.2 ?_
    rw [header_append cs (by rw [hheader]; simp), hheader]

/-- A frame is read where it was written, and nowhere else. -/
theorem codec : framing.Codec Frame.wire fun f => f.payload.length < 2 ^ 63 where
  next_enc := by
    intro f rest hlt
    exact next_ok_iff.2 ⟨hlt, rfl, rest, rfl⟩
  take_eq := by
    intro bs f n h
    obtain ⟨-, rfl, rest, rfl⟩ := next_ok_iff.1 h
    exact List.take_left
  nil := rfl

end Velox.WebSocket
