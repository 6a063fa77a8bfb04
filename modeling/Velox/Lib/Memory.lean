import Velox.Lib.Bytes

/-!
# A buffer of fixed size

Bytes at an offset of a buffer are loaded and stored only if all of them lie within it; an access
outside of it is `none`. The two ways to use such a buffer are covered by one lemma each: fields
that are read within the part that has been written (`getU64_eq` and its like), and a record written
field by field, each where the one before it ends (`storeAll_adjacent`).
-/

namespace Velox

/-- A buffer of `n` bytes. -/
structure Memory (n : Nat) where
  bytes : List UInt8
  length_eq : bytes.length = n

namespace Memory

variable {n : Nat} (m : Memory n)

def load (off w : Nat) : Option (List UInt8) :=
  if off + w ≤ n then some ((m.bytes.drop off).take w) else none

/-- The bytes from `off` on are replaced. -/
def store (off : Nat) (bs : List UInt8) : Option (Memory n) :=
  if h : off + bs.length ≤ n then
    some ⟨m.bytes.take off ++ bs ++ m.bytes.drop (off + bs.length), by
      have := m.length_eq
      simp only [List.length_append, List.length_take, List.length_drop]
      omega⟩
  else none

/-- Field after field, each with its offset. -/
def storeAll (m : Memory n) : List (Nat × List UInt8) → Option (Memory n)
  | [] => some m
  | f :: fs => do
    let m ← m.store f.1 f.2
    m.storeAll fs

def getU8 (off : Nat) : Option UInt8 := (m.load off 1).map (Bytes.getU8 0)

def getU32 (off : Nat) : Option UInt32 := (m.load off 4).map (Bytes.getU32 0)

def getU64 (off : Nat) : Option UInt64 := (m.load off 8).map (Bytes.getU64 0)

def getI64 (off : Nat) : Option Int64 := (m.load off 8).map (Bytes.getI64 0)

/-! ## Reading -/

section Load

variable {m} {bs : List UInt8} {p off w : Nat}

/-- These bytes are at `p`. -/
def Holds (m : Memory n) (p : Nat) (bs : List UInt8) : Prop :=
  p + bs.length ≤ n ∧ (m.bytes.drop p).take bs.length = bs

theorem Holds.load_eq (h : m.Holds p bs) (hw : off + w ≤ bs.length) :
    m.load (p + off) w = some ((bs.drop off).take w) := by
  have hle := h.1
  rw [load, if_pos (by omega)]
  congr 1
  conv_rhs => rw [← h.2]
  rw [List.drop_take, List.take_take, List.drop_drop, Nat.min_eq_left (by omega)]

theorem get_take_drop (bs : List UInt8) (w off : Nat) :
    Bytes.get w 0 ((bs.drop off).take w) = Bytes.get w off bs := by
  rw [Bytes.get, Bytes.get, List.drop_zero, List.take_take, min_self]

theorem Holds.getU8_eq (h : m.Holds p bs) (off : Nat) (hw : off + 1 ≤ bs.length) :
    m.getU8 (p + off) = some (Bytes.getU8 off bs) := by
  rw [getU8, h.load_eq hw, Option.map_some, Bytes.getU8, get_take_drop, Bytes.getU8]

theorem Holds.getU32_eq (h : m.Holds p bs) (off : Nat) (hw : off + 4 ≤ bs.length) :
    m.getU32 (p + off) = some (Bytes.getU32 off bs) := by
  rw [getU32, h.load_eq hw, Option.map_some, Bytes.getU32, get_take_drop, Bytes.getU32]

theorem Holds.getU64_eq (h : m.Holds p bs) (off : Nat) (hw : off + 8 ≤ bs.length) :
    m.getU64 (p + off) = some (Bytes.getU64 off bs) := by
  rw [getU64, h.load_eq hw, Option.map_some, Bytes.getU64, get_take_drop, Bytes.getU64]

theorem Holds.getI64_eq (h : m.Holds p bs) (off : Nat) (hw : off + 8 ≤ bs.length) :
    m.getI64 (p + off) = some (Bytes.getI64 off bs) := by
  rw [getI64, h.load_eq hw, Option.map_some, Bytes.getI64, Bytes.getU64, get_take_drop,
    Bytes.getI64, Bytes.getU64]

/-- A part of what is there is there. -/
theorem Holds.drop (h : m.Holds p bs) (hk : off ≤ bs.length) :
    m.Holds (p + off) (bs.drop off) := by
  have hle := h.1
  rw [Holds, List.length_drop]
  refine ⟨by omega, ?_⟩
  conv_rhs => rw [← h.2]
  rw [List.drop_take, List.drop_drop]

theorem Holds.take (h : m.Holds p bs) (k : Nat) : m.Holds p (bs.take k) := by
  have hle := h.1
  rw [Holds, List.length_take]
  refine ⟨by omega, ?_⟩
  conv_rhs => rw [← h.2]
  rw [List.take_take]

end Load

/-! ## Writing -/

section Store

variable {m} {bs : List UInt8} {fs : List (Nat × List UInt8)} {off : Nat}

theorem store_eq (h : off + bs.length ≤ n) : ∃ m', m.store off bs = some m' ∧
    m'.bytes = m.bytes.take off ++ bs ++ m.bytes.drop (off + bs.length) :=
  ⟨_, dif_pos h, rfl⟩

/-- What is put behind the bytes at the front joins them. -/
theorem Holds.append (h : m.Holds 0 bs) {cs : List UInt8} (hn : bs.length + cs.length ≤ n) :
    ∃ m', m.store bs.length cs = some m' ∧ m'.Holds 0 (bs ++ cs) := by
  obtain ⟨m', hs, hbytes⟩ : ∃ m', m.store bs.length cs = some m' ∧ _ := store_eq hn
  refine ⟨m', hs, by rw [List.length_append]; omega, ?_⟩
  have hfront : m.bytes.take bs.length = bs := h.2
  rw [hbytes, hfront, List.drop_zero, List.take_left' rfl]

/-- The bytes at the front are moved over the first of them. -/
theorem Holds.move (h : m.Holds 0 bs) {k : Nat} (hk : k ≤ bs.length) :
    m.load k (bs.length - k) = some (bs.drop k) ∧
      ∃ m', m.store 0 (bs.drop k) = some m' ∧ m'.Holds 0 (bs.drop k) := by
  have hload : m.load (0 + k) (bs.length - k) = _ := h.load_eq (by omega)
  rw [Nat.zero_add, List.take_of_length_le (by rw [List.length_drop])] at hload
  have hle := h.1
  have hlen : (bs.drop k).length ≤ n := by
    rw [List.length_drop]
    omega
  obtain ⟨m', hs, hbytes⟩ : ∃ m', m.store 0 (bs.drop k) = some m' ∧ _ :=
    store_eq (by rwa [Nat.zero_add])
  refine ⟨hload, m', hs, by rwa [Nat.zero_add], ?_⟩
  rw [hbytes, List.take_zero, List.nil_append, List.drop_zero, List.take_left' rfl]

/-- Each field begins where the one before it ends. -/
def Adjacent : Nat → List (Nat × List UInt8) → Prop
  | _, [] => True
  | off, f :: fs => f.1 = off ∧ Adjacent (off + f.2.length) fs

/-- Fields that are slices of `bs`, each at its own offset, make up a slice of it. -/
theorem Adjacent.flatMap_eq (h : Adjacent off fs)
    (hf : ∀ f ∈ fs, f.2 = Bytes.slice f.1 f.2.length bs) :
    fs.flatMap Prod.snd = Bytes.slice off (fs.flatMap Prod.snd).length bs := by
  induction fs generalizing off with
  | nil => rw [List.flatMap_nil, List.length_nil, Bytes.slice, List.take_zero]
  | cons f fs ih =>
    obtain ⟨rfl, hrest⟩ := h
    rw [List.flatMap_cons, List.length_append, ← Bytes.slice_append_slice,
      ← ih hrest fun f' hf' => hf f' (List.mem_cons_of_mem _ hf'), ← hf f List.mem_cons_self]

/-- **A record written field by field** is the concatenation of its fields. -/
theorem storeAll_adjacent (h : Adjacent off fs)
    (hn : off + (fs.flatMap Prod.snd).length ≤ n) :
    ∃ m', m.storeAll fs = some m' ∧ m'.bytes =
      m.bytes.take off ++ fs.flatMap Prod.snd ++
        m.bytes.drop (off + (fs.flatMap Prod.snd).length) := by
  induction fs generalizing m off with
  | nil => exact ⟨m, rfl, by simp⟩
  | cons f fs ih =>
    obtain ⟨rfl, hrest⟩ := h
    rw [List.flatMap_cons, List.length_append] at hn
    obtain ⟨m₁, hs, hbytes⟩ : ∃ m₁, m.store f.1 f.2 = some m₁ ∧ _ := store_eq (by omega)
    obtain ⟨m', hall, hbytes'⟩ := ih (m := m₁) hrest (by omega)
    refine ⟨m', by rw [storeAll, hs]; exact hall, ?_⟩
    have hlen : (m.bytes.take f.1 ++ f.2).length = f.1 + f.2.length := by
      have := m.length_eq
      rw [List.length_append, List.length_take]
      omega
    rw [hbytes', hbytes, List.take_left' hlen, List.drop_append, hlen,
      List.drop_eq_nil_of_le (by rw [hlen]; omega), List.nil_append, List.drop_drop,
      List.flatMap_cons, List.length_append]
    simp only [List.append_assoc, List.append_cancel_left_eq]
    congr 1
    omega

end Store

end Memory

end Velox
