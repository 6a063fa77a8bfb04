import Velox.Engine.OrderBook
import Velox.Lib.Bytes

/-!
# Inbound commands

Following `ipc/command.hpp`. A command is a flat struct of 48 bytes: five 64-bit integers, three
one-byte enumerations and five bytes of padding, which travel with the rest whenever the struct
is copied as bytes.

A byte read from a file can be outside its enumeration. The code compares a side with `Buy` only,
so everything else acts as `Sell`; an order type that is none of the four takes the path of an
immediate-or-cancel order; a command kind that is none of the three is a switch without a case.
-/

namespace Velox

open Bytes

inductive CommandKind where
  | new
  | cancel
  | replace
  deriving DecidableEq, Repr

namespace CommandKind

def toByte : CommandKind → UInt8
  | .new => 0
  | .cancel => 1
  | .replace => 2

def ofByte (b : UInt8) : Option CommandKind :=
  if b = 0 then some .new else if b = 1 then some .cancel else if b = 2 then some .replace else none

@[simp] theorem ofByte_toByte (k : CommandKind) : ofByte k.toByte = some k := by
  cases k <;> rfl

theorem toByte_of_ofByte {b : UInt8} {k : CommandKind} (h : ofByte b = some k) : b = k.toByte := by
  unfold ofByte at h
  split_ifs at h with h₀ h₁ h₂ <;> cases h <;> assumption

end CommandKind

namespace Side

def toByte : Side → UInt8
  | .buy => 0
  | .sell => 1

def ofByte (b : UInt8) : Side := if b = 0 then .buy else .sell

@[simp] theorem ofByte_toByte (s : Side) : ofByte s.toByte = s := by
  cases s <;> rfl

end Side

namespace OrderType

def toByte : OrderType → UInt8
  | .limit => 0
  | .market => 1
  | .ioc => 2
  | .fok => 3

def ofByte (b : UInt8) : OrderType :=
  if b = 0 then .limit else if b = 1 then .market else if b = 3 then .fok else .ioc

@[simp] theorem ofByte_toByte (t : OrderType) : ofByte t.toByte = t := by
  cases t <;> rfl

end OrderType

structure Command where
  /-- For a replace, the old id. -/
  id : Int64
  /-- For a replace only. -/
  newId : Int64
  price : Int64
  quantity : Int64
  participant : Int64
  /-- The enumeration as a byte. -/
  kind : UInt8
  side : Side
  type : OrderType
  padding : BitVec 40
  deriving DecidableEq, Repr

namespace Command

def size : Nat := 48

/-- The bytes of the struct. -/
def encode (c : Command) : List UInt8 :=
  putI64 c.id ++ (putI64 c.newId ++ (putI64 c.price ++ (putI64 c.quantity ++
    (putI64 c.participant ++ (putU8 c.kind ++ (putU8 c.side.toByte ++ (putU8 c.type.toByte ++
      le 5 c.padding.toNat)))))))

/-- The struct at the start of these bytes. -/
def decode (bs : List UInt8) : Command where
  id := getI64 0 bs
  newId := getI64 8 bs
  price := getI64 16 bs
  quantity := getI64 24 bs
  participant := getI64 32 bs
  kind := getU8 40 bs
  side := .ofByte (getU8 41 bs)
  type := .ofByte (getU8 42 bs)
  padding := .ofNat 40 (get 5 43 bs)

@[simp] theorem length_encode (c : Command) : c.encode.length = size := by
  simp [encode, size, Bytes.length_le]

theorem decode_encode_append (c : Command) (bs : List UInt8) : decode (c.encode ++ bs) = c := by
  obtain ⟨id, newId, price, quantity, participant, kind, side, type, padding⟩ := c
  have hlt : padding.toNat < 1099511627776 := padding.isLt
  simp [decode, encode, Bytes.get_append, get_le_append, Nat.mod_eq_of_lt hlt]

/-- The struct does not depend on what follows it. -/
theorem decode_take {n : Nat} (h : size ≤ n) (bs : List UInt8) : decode (bs.take n) = decode bs := by
  have h₄₈ : 48 ≤ n := h
  simp (disch := omega) only [decode, getI64_take, getU8_take, get_take]

def toNewOrder (c : Command) : NewOrder :=
  ⟨c.id.toInt, c.price.toInt, c.quantity.toInt, c.participant.toInt, c.side, c.type⟩

/-- The call a command of this kind makes. For a replace, the fresh order takes the new id. -/
def call (c : Command) : CommandKind → Call
  | .new => .submit c.toNewOrder
  | .cancel => .cancel c.id.toInt
  | .replace => .replace c.id.toInt { c.toNewOrder with id := c.newId.toInt }

end Command

end Velox
