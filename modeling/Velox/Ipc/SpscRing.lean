import Mathlib.Logic.Function.Basic
import Mathlib.Data.List.Basic
import Mathlib.Data.Int.ModEq
import Mathlib.Tactic.SplitIfs

/-!
# The ring between two threads

Following `ipc/spsc_ring.hpp`: a fixed array of slots, a write cursor that only the producer
advances and a read cursor that only the consumer advances. The cursors are never wrapped, only the
index of a slot is. Each side also keeps a private copy of the other's cursor and reads the real
one only when the copy says that it has to wait.

Each function here is one access of one side. A release store followed by an acquire load is what
makes a step of one thread visible to the other, so runs of the two threads are interleavings of
these functions.

`SpscRing.Holds` is the abstraction: the elements that are published and not yet consumed, in order.
-/

namespace Velox

structure SpscRing (α : Type) (capacity : Nat) where
  storage : Nat → α
  head : Nat
  tail : Nat
  /-- The producer's copy of `tail`. -/
  cachedTail : Nat
  /-- The consumer's copy of `head`. -/
  cachedHead : Nat

namespace SpscRing

variable {α : Type} {capacity : Nat}

def create (x : α) : SpscRing α capacity := ⟨fun _ => x, 0, 0, 0, 0⟩

/-- The producer reads the consumer's real cursor. -/
def reloadTail (r : SpscRing α capacity) : SpscRing α capacity := { r with cachedTail := r.tail }

/-- The consumer reads the producer's real cursor. -/
def reloadHead (r : SpscRing α capacity) : SpscRing α capacity := { r with cachedHead := r.head }

/-- The slot to write, or nothing if the ring is full. -/
def tryClaim (r : SpscRing α capacity) : Option Nat × SpscRing α capacity :=
  if capacity ≤ r.head - r.cachedTail then
    if capacity ≤ r.head - r.tail then (none, r.reloadTail)
    else (some (r.head % capacity), r.reloadTail)
  else (some (r.head % capacity), r)

/-- The producer writes into the slot it has claimed. -/
def store (r : SpscRing α capacity) (slot : Nat) (x : α) : SpscRing α capacity :=
  { r with storage := Function.update r.storage slot x }

def publish (r : SpscRing α capacity) : SpscRing α capacity := { r with head := r.head + 1 }

/-- The slot to read, or nothing if the ring is empty. -/
def tryPeek (r : SpscRing α capacity) : Option Nat × SpscRing α capacity :=
  if r.tail = r.cachedHead then
    if r.tail = r.head then (none, r.reloadHead)
    else (some (r.tail % capacity), r.reloadHead)
  else (some (r.tail % capacity), r)

def consume (r : SpscRing α capacity) : SpscRing α capacity := { r with tail := r.tail + 1 }

/-- The elements `xs` are published and not consumed. -/
structure Holds (r : SpscRing α capacity) (xs : List α) : Prop where
  head_eq : r.head = r.tail + xs.length
  length_le : xs.length ≤ capacity
  slot : ∀ i x, xs[i]? = some x → r.storage ((r.tail + i) % capacity) = x
  cachedTail_le : r.cachedTail ≤ r.tail
  cachedHead_ge : r.tail ≤ r.cachedHead
  cachedHead_le : r.cachedHead ≤ r.head

theorem holds_create (x : α) : (create x : SpscRing α capacity).Holds [] :=
  ⟨rfl, Nat.zero_le _, nofun, Nat.le_refl _, Nat.le_refl _, Nat.le_refl _⟩

namespace Holds

variable {r : SpscRing α capacity} {xs : List α}

theorem reloadTail (h : r.Holds xs) : r.reloadTail.Holds xs :=
  ⟨h.head_eq, h.length_le, h.slot, Nat.le_refl _, h.cachedHead_ge, h.cachedHead_le⟩

theorem reloadHead (h : r.Holds xs) : r.reloadHead.Holds xs :=
  ⟨h.head_eq, h.length_le, h.slot, h.cachedTail_le,
    Nat.le_trans h.cachedHead_ge h.cachedHead_le, Nat.le_refl _⟩

/-- **A claim.** It fails only on a full ring, and then only the producer's copy of the read cursor
is new. -/
theorem tryClaim (h : r.Holds xs) :
    (r.tryClaim = (none, r.reloadTail) ∧ r.reloadTail.Holds xs) ∨
      ∃ r', r.tryClaim = (some (r.head % capacity), r') ∧ xs.length < capacity ∧ r'.Holds xs ∧
        (r' = r ∨ r' = r.reloadTail) := by
  have hhead := h.head_eq
  have hlen := h.length_le
  have hcached := h.cachedTail_le
  rw [SpscRing.tryClaim]
  split_ifs with hlooks hfull
  · exact Or.inl ⟨rfl, h.reloadTail⟩
  · exact Or.inr ⟨_, rfl, by omega, h.reloadTail, Or.inr rfl⟩
  · exact Or.inr ⟨_, rfl, by omega, h, Or.inl rfl⟩

/-- Fewer slots than the capacity apart, two cursors have different slots. -/
theorem slot_ne {i n tail capacity : Nat} (hi : i < n) (hn : n < capacity) :
    (tail + i) % capacity ≠ (tail + n) % capacity := by
  intro heq
  have hdvd : capacity ∣ (tail + n) - (tail + i) :=
    (Nat.modEq_iff_dvd' (by omega)).1 heq
  have := Nat.le_of_dvd (by omega) hdvd
  omega

/-- The slot behind the published elements is free to write. -/
theorem store (h : r.Holds xs) (hroom : xs.length < capacity) (x : α) :
    (r.store (r.head % capacity) x).Holds xs := by
  refine ⟨h.head_eq, h.length_le, fun i y hy => ?_, h.cachedTail_le, h.cachedHead_ge,
    h.cachedHead_le⟩
  have hi : i < xs.length := (List.getElem?_eq_some_iff.1 hy).1
  have hne : (r.tail + i) % capacity ≠ (r.tail + xs.length) % capacity := slot_ne hi hroom
  rw [← h.head_eq] at hne
  exact (Function.update_of_ne hne x r.storage).trans (h.slot i y hy)

theorem publish (h : r.Holds xs) (hroom : xs.length < capacity) {x : α}
    (hx : r.storage (r.head % capacity) = x) : r.publish.Holds (xs ++ [x]) := by
  have hhead := h.head_eq
  refine ⟨?_, ?_, fun i y hy => ?_, h.cachedTail_le, h.cachedHead_ge,
    Nat.le_succ_of_le h.cachedHead_le⟩
  · rw [List.length_append, List.length_singleton]
    exact congrArg (· + 1) hhead
  · rw [List.length_append, List.length_singleton]
    exact hroom
  · rcases Nat.lt_trichotomy i xs.length with hi | rfl | hi
    · exact h.slot i y (by rwa [List.getElem?_append_left hi] at hy)
    · rw [List.getElem?_concat_length] at hy
      have hslot : r.publish.storage ((r.publish.tail + xs.length) % capacity) = x := by
        rw [← hx, hhead]
        rfl
      exact hslot.trans (Option.some.inj hy)
    · rw [List.getElem?_eq_none (by rw [List.length_append, List.length_singleton]; omega)] at hy
      cases hy

/-- **A look at the ring.** It finds nothing only in an empty ring, and otherwise the first
element. -/
theorem tryPeek (h : r.Holds xs) :
    (∃ r', r.tryPeek = (none, r') ∧ r'.Holds xs ∧ r'.head = r.head ∧ r'.storage = r.storage ∧
      xs = []) ∨
      ∃ r' x rest, r.tryPeek = (some (r.tail % capacity), r') ∧ r'.Holds xs ∧ r'.head = r.head ∧
        r'.storage = r.storage ∧ r'.tail < r'.cachedHead ∧ xs = x :: rest := by
  have hhead := h.head_eq
  have hge := h.cachedHead_ge
  have hle := h.cachedHead_le
  rw [SpscRing.tryPeek]
  cases xs with
  | nil =>
    rw [List.length_nil] at hhead
    rw [if_pos (by omega), if_pos (by omega)]
    exact Or.inl ⟨_, rfl, h.reloadHead, rfl, rfl, rfl⟩
  | cons x rest =>
    rw [List.length_cons] at hhead
    refine Or.inr ?_
    split_ifs with hlooks hempty
    · omega
    · exact ⟨_, x, rest, rfl, h.reloadHead, rfl, rfl, show r.tail < r.head by omega, rfl⟩
    · exact ⟨_, x, rest, rfl, h, rfl, rfl, by omega, rfl⟩

theorem head_slot {x : α} (h : r.Holds (x :: xs)) : r.storage (r.tail % capacity) = x :=
  h.slot 0 x rfl

theorem consume {x : α} (h : r.Holds (x :: xs)) (hseen : r.tail < r.cachedHead) :
    r.consume.Holds xs := by
  have hhead := h.head_eq
  have hlen := h.length_le
  rw [List.length_cons] at hhead hlen
  refine ⟨?_, by omega, fun i y hy => ?_, Nat.le_succ_of_le h.cachedTail_le, hseen,
    h.cachedHead_le⟩
  · change r.head = r.tail + 1 + xs.length
    omega
  · have hslot := h.slot (i + 1) y hy
    rwa [show r.tail + (i + 1) = r.tail + 1 + i by omega] at hslot

end Holds

end SpscRing

end Velox
