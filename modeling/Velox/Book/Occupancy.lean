import Velox.Book.LevelMap

/-!
# The occupancy bitset

The two arrays of words of `book/level_map.hpp`, with their bounds: here a read outside `l0_` or
`l1_` is undefined. The searches of `Bitset` are what these compute, as no read leaves the arrays
(`findSetBitBelow_eq`, `findSetBitAbove_eq`).

`findSetBit_exact` is the contract: for any number of slots and any occupancy whose summary is right
the two searches are linear scans, and the updates keep the summary right.
-/

namespace Velox

namespace LevelMap

/-- A word of `l0_`. -/
def l0At (m : LevelMap) (w : Nat) : Option (BitVec 64) :=
  if w < m.bits.l0Words then some (m.bits.l0 w) else none

/-- A word of `l1_`. -/
def l1At (m : LevelMap) (w : Nat) : Option (BitVec 64) :=
  if w < m.bits.l1Words then some (m.bits.l1 w) else none

def occupiedBit (m : LevelMap) (i : Nat) : Bool := m.bits.mem i

def setOccupied (m : LevelMap) (i : Nat) : LevelMap := m.setBits (m.bits.set i)

def clearOccupied (m : LevelMap) (i : Nat) : LevelMap := m.setBits (m.bits.clear i)

/-- The loop of `findSetBitBelow`, from summary word `curL1` downward. -/
def belowFrom (m : LevelMap) (curL1 : Nat) (l1mask : BitVec 64) : Option (Option Nat) := do
  let l1 ← m.l1At curL1
  let l1word := l1 &&& l1mask
  if l1word ≠ 0 then
    let prevL0 := curL1 * 64 + (63 - countlZero l1word)
    let l0word ← m.l0At prevL0
    some (some (prevL0 * 64 + (63 - countlZero l0word)))
  else
    match curL1 with
    | 0 => some none
    | c + 1 => m.belowFrom c (BitVec.allOnes 64)

/-- The highest occupied slot below `idx`. The inner `none` is `kNotFound`. -/
def findSetBitBelow (m : LevelMap) (idx : Nat) : Option (Option Nat) := do
  let w := idx / 64
  let bitInWord := idx % 64
  let mask := if bitInWord = 0 then 0 else (1#64 <<< bitInWord) - 1
  let l0 ← m.l0At w
  let masked := l0 &&& mask
  if masked ≠ 0 then
    some (some (w * 64 + (63 - countlZero masked)))
  else if w = 0 then
    some none
  else
    let l1Bit := (w - 1) % 64
    let l1mask := if l1Bit = 63 then BitVec.allOnes 64 else (1#64 <<< (l1Bit + 1)) - 1
    m.belowFrom ((w - 1) / 64) l1mask

/-- The loop of `findSetBitAbove`, over at most `n` summary words from `curL1` upward. -/
def aboveFrom (m : LevelMap) : Nat → Nat → BitVec 64 → Option (Option Nat)
  | 0, _, _ => some none
  | n + 1, curL1, l1mask => do
    let l1 ← m.l1At curL1
    let l1word := l1 &&& l1mask
    if l1word ≠ 0 then
      let nextL0 := curL1 * 64 + countrZero l1word
      if nextL0 ≥ m.bits.l0Words then
        some none
      else
        let l0word ← m.l0At nextL0
        some (some (nextL0 * 64 + countrZero l0word))
    else
      m.aboveFrom n (curL1 + 1) (BitVec.allOnes 64)

/-- The lowest occupied slot above `idx`. -/
def findSetBitAbove (m : LevelMap) (idx : Nat) : Option (Option Nat) := do
  let w := idx / 64
  let bitInWord := idx % 64
  let mask := if bitInWord = 63 then 0 else ~~~((2#64 <<< bitInWord) - 1)
  let l0 ← m.l0At w
  let masked := l0 &&& mask
  if masked ≠ 0 then
    some (some (w * 64 + countrZero masked))
  else if w + 1 ≥ m.bits.l0Words then
    some none
  else
    let curL1 := (w + 1) / 64
    let l1mask := ~~~((1#64 <<< ((w + 1) % 64)) - 1)
    m.aboveFrom (m.bits.l1Words - curL1) curL1 l1mask

/-! ## No read leaves the arrays -/

variable {m : LevelMap}

@[simp] theorem l0At_of_lt {w : Nat} (hw : w < m.bits.l0Words) : m.l0At w = some (m.bits.l0 w) :=
  if_pos hw

@[simp] theorem l1At_of_lt {w : Nat} (hw : w < m.bits.l1Words) : m.l1At w = some (m.bits.l1 w) :=
  if_pos hw

/-- A bit of a masked word lies under the mask. -/
theorem highest_le {x mask : BitVec 64} {c : Nat}
    (hmask : ∀ i < 64, mask.getLsbD i = decide (i ≤ c)) (hne : x &&& mask ≠ 0) :
    63 - countlZero (x &&& mask) ≤ c := by
  obtain ⟨hlt, hbit, -⟩ := Bitset.highest_spec hne
  rw [BitVec.getLsbD_and, hmask _ hlt, Bool.and_eq_true, decide_eq_true_eq] at hbit
  exact hbit.2

/-- The walk downward reads no word behind the last one that the mask covers. -/
theorem belowFrom_eq (hwords : m.bits.l0Words ≤ m.bits.l1Words * 64) (curL1 c : Nat)
    (mask : BitVec 64) (hmask : ∀ i < 64, mask.getLsbD i = decide (i ≤ c))
    (hlim : curL1 * 64 + c < m.bits.l0Words) :
    m.belowFrom curL1 mask = some (m.bits.belowLoop curL1 mask) := by
  -- The word under the highest bit of the mask is one of those that the bound covers.
  have hread : ∀ cur, cur * 64 + c < m.bits.l0Words → m.bits.l1 cur &&& mask ≠ 0 →
      cur * 64 + (63 - countlZero (m.bits.l1 cur &&& mask)) < m.bits.l0Words := by
    intro cur hcur hne
    have hle := highest_le hmask hne
    omega
  induction curL1 generalizing c mask with
  | zero =>
    rw [belowFrom, Bitset.belowLoop, l1At_of_lt (by omega)]
    simp only [Option.bind_eq_bind, Option.bind_some]
    by_cases hne : m.bits.l1 0 &&& mask ≠ 0
    · rw [if_pos hne, if_pos hne, l0At_of_lt (hread 0 hlim hne), Option.bind_some]
    · rw [if_neg hne, if_neg hne]
  | succ curL1 ih =>
    rw [belowFrom, Bitset.belowLoop, l1At_of_lt (by omega)]
    simp only [Option.bind_eq_bind, Option.bind_some]
    by_cases hne : m.bits.l1 (curL1 + 1) &&& mask ≠ 0
    · rw [if_pos hne, if_pos hne, l0At_of_lt (hread (curL1 + 1) hlim hne), Option.bind_some]
    · have hfull : ∀ i < 64, (BitVec.allOnes 64).getLsbD i = decide (i ≤ 63) := by
        intro i hi
        rw [BitVec.getLsbD_allOnes]
        exact decide_eq_decide.2 (by omega)
      rw [if_neg hne, if_neg hne]
      refine ih 63 (BitVec.allOnes 64) hfull (by omega) fun cur hcur hne => ?_
      have hle := highest_le hfull hne
      omega

theorem findSetBitBelow_eq (hwords : m.bits.l0Words ≤ m.bits.l1Words * 64) {idx : Nat}
    (hidx : idx / 64 < m.bits.l0Words) :
    m.findSetBitBelow idx = some (m.bits.findBelow idx) := by
  have hmask : ∀ i < 64, (if (idx / 64 - 1) % 64 = 63 then BitVec.allOnes 64
      else (1#64 <<< ((idx / 64 - 1) % 64 + 1)) - 1).getLsbD i =
        decide (i ≤ (idx / 64 - 1) % 64) := by
    intro i hi
    split
    · rw [BitVec.getLsbD_allOnes]
      exact decide_eq_decide.2 (by omega)
    · rw [Bitset.getLsbD_lowMask (by omega)]
      exact decide_eq_decide.2 (by omega)
  rw [findSetBitBelow, Bitset.findBelow, l0At_of_lt hidx]
  simp only [Option.bind_eq_bind, Option.bind_some]
  by_cases hw : idx / 64 = 0
  · simp only [hw, if_true, apply_ite some]
  · rw [belowFrom_eq hwords _ _ _ hmask (by omega)]
    simp only [hw, if_false, apply_ite some]

/-- The walk upward reads summary words only, and one more word that it has compared before. -/
theorem aboveFrom_eq (n curL1 : Nat) (mask : BitVec 64) (hn : curL1 + n ≤ m.bits.l1Words) :
    m.aboveFrom n curL1 mask = some (m.bits.aboveLoop n curL1 mask) := by
  induction n generalizing curL1 mask with
  | zero => rfl
  | succ n ih =>
    rw [aboveFrom, Bitset.aboveLoop, l1At_of_lt (by omega)]
    simp only [Option.bind_eq_bind, Option.bind_some]
    split
    · by_cases hge : curL1 * 64 + countrZero (m.bits.l1 curL1 &&& mask) ≥ m.bits.l0Words
      · simp [hge]
      · simp [hge, l0At_of_lt (Nat.lt_of_not_le hge)]
    · exact ih (curL1 + 1) _ (by omega)

theorem findSetBitAbove_eq (hwords : m.bits.l0Words ≤ m.bits.l1Words * 64) {idx : Nat}
    (hidx : idx / 64 < m.bits.l0Words) :
    m.findSetBitAbove idx = some (m.bits.findAbove idx) := by
  rw [findSetBitAbove, Bitset.findAbove, l0At_of_lt hidx]
  simp only [Option.bind_eq_bind, Option.bind_some]
  by_cases hlast : idx / 64 + 1 ≥ m.bits.l0Words
  · simp only [hlast, if_true, apply_ite some]
  · rw [aboveFrom_eq _ _ _ (by omega)]
    simp only [hlast, if_false, apply_ite some]

/-! ## The contract -/

/-- The words that `numSlots` slots need, with a summary bit for each word that is not zero and no
bit behind the last slot. -/
structure Occupancy (m : LevelMap) : Prop where
  l0Words : m.bits.l0Words = (m.numSlots + 63) / 64
  l1Words : m.bits.l1Words = (m.bits.l0Words + 63) / 64
  summary : m.bits.Summary
  within : ∀ i < m.bits.l0Words * 64, m.occupiedBit i = true → i < m.numSlots

theorem occupancy_create (side : Side) (minPrice maxPrice tick : Int) :
    (create side minPrice maxPrice tick).Occupancy where
  l0Words := rfl
  l1Words := rfl
  summary := Bitset.empty_summary _
  within := by simp [occupiedBit, create, Bitset.empty, Bitset.mem]

theorem Occupancy.setOccupied (h : m.Occupancy) {i : Nat} (hi : i < m.numSlots) :
    (m.setOccupied i).Occupancy where
  l0Words := h.l0Words
  l1Words := h.l1Words
  summary := Bitset.set_summary h.summary i
  within := by
    intro j hj hbit
    change (m.bits.set i).mem j = true at hbit
    rw [Bitset.mem_set, Bool.or_eq_true, decide_eq_true_eq] at hbit
    rcases hbit with rfl | hbit
    · exact hi
    · exact h.within j hj hbit

theorem Occupancy.clearOccupied (h : m.Occupancy) (i : Nat) : (m.clearOccupied i).Occupancy where
  l0Words := h.l0Words
  l1Words := h.l1Words
  summary := Bitset.clear_summary h.summary i
  within := by
    intro j hj hbit
    change (m.bits.clear i).mem j = true at hbit
    rw [Bitset.mem_clear, Bool.and_eq_true] at hbit
    exact h.within j hj hbit.2

/-- The greatest occupied slot below `idx`, if there is one. -/
def IsBelow (m : LevelMap) (idx : Nat) (found : Option Nat) : Prop :=
  (∀ j, found = some j ↔ j < idx ∧ m.occupiedBit j = true ∧
      ∀ k, j < k → k < idx → m.occupiedBit k = false) ∧
    (found = none ↔ ∀ j < idx, m.occupiedBit j = false)

/-- The least occupied slot above `idx`, if there is one. -/
def IsAbove (m : LevelMap) (idx : Nat) (found : Option Nat) : Prop :=
  (∀ j, found = some j ↔ idx < j ∧ j < m.numSlots ∧ m.occupiedBit j = true ∧
      ∀ k, idx < k → k < j → m.occupiedBit k = false) ∧
    (found = none ↔ ∀ j, idx < j → j < m.numSlots → m.occupiedBit j = false)

theorem isBelow_of_greatest {idx : Nat} {found : Option Nat} (h : m.bits.Greatest idx found) :
    m.IsBelow idx found := by
  cases found with
  | none =>
    refine ⟨fun j => ⟨nofun, fun hj => ?_⟩, ⟨fun _ => h, fun _ => rfl⟩⟩
    exact absurd hj.2.1 (Bool.eq_false_iff.1 (h j hj.1))
  | some i =>
    obtain ⟨hi, hbit, hmax⟩ := h
    refine ⟨fun j => ⟨?_, fun hj => ?_⟩, ⟨nofun, fun hno => ?_⟩⟩
    · rintro ⟨⟩
      exact ⟨hi, hbit, hmax⟩
    · obtain ⟨hj, hjbit, hjmax⟩ := hj
      rcases Nat.lt_trichotomy i j with hlt | rfl | hgt
      · exact absurd hjbit (Bool.eq_false_iff.1 (hmax j hlt hj))
      · rfl
      · exact absurd hbit (Bool.eq_false_iff.1 (hjmax i hgt hi))
    · exact absurd hbit (Bool.eq_false_iff.1 (hno i hi))

theorem isAbove_of_least (h : m.Occupancy) {idx : Nat} {found : Option Nat}
    (hl : m.bits.Least (idx + 1) found) : m.IsAbove idx found := by
  have hwords := h.l0Words
  cases found with
  | none =>
    refine ⟨fun j => ⟨nofun, fun hj => ?_⟩, ⟨fun _ j hlow hhigh => hl j hlow (by omega),
      fun _ => rfl⟩⟩
    exact absurd hj.2.2.1 (Bool.eq_false_iff.1 (hl j hj.1 (by omega)))
  | some i =>
    obtain ⟨hi, hword, hbit, hmin⟩ := hl
    have hlim := h.within i hword hbit
    refine ⟨fun j => ⟨?_, fun hj => ?_⟩, ⟨nofun, fun hno => ?_⟩⟩
    · rintro ⟨⟩
      exact ⟨hi, hlim, hbit, hmin⟩
    · obtain ⟨hj, -, hjbit, hjmin⟩ := hj
      rcases Nat.lt_trichotomy i j with hlt | rfl | hgt
      · exact absurd hbit (Bool.eq_false_iff.1 (hjmin i hi hlt))
      · rfl
      · exact absurd hjbit (Bool.eq_false_iff.1 (hmin j hj hgt))
    · exact absurd hbit (Bool.eq_false_iff.1 (hno i hi hlim))

/-- **The searches are linear scans** that stay inside the arrays, and the updates keep the
summary. -/
theorem findSetBit_exact (h : m.Occupancy) {idx : Nat} (hidx : idx < m.numSlots) :
    (∃ found, m.findSetBitBelow idx = some found ∧ m.IsBelow idx found) ∧
    (∃ found, m.findSetBitAbove idx = some found ∧ m.IsAbove idx found) ∧
    (m.setOccupied idx).Occupancy ∧ (m.clearOccupied idx).Occupancy := by
  have hl0 := h.l0Words
  have hl1 := h.l1Words
  have hword : idx / 64 < m.bits.l0Words := by omega
  have hwords : m.bits.l0Words ≤ m.bits.l1Words * 64 := by omega
  refine ⟨⟨_, findSetBitBelow_eq hwords hword, ?_⟩, ⟨_, findSetBitAbove_eq hwords hword, ?_⟩,
    h.setOccupied hidx, h.clearOccupied idx⟩
  · exact isBelow_of_greatest (Bitset.findBelow_spec h.summary hword)
  · exact isAbove_of_least h (Bitset.findAbove_spec h.summary hwords hword)

/-- Of 201 slots the last one is occupied. -/
theorem findSetBit_exact_lastSlot : ∃ m : LevelMap, m.numSlots = 201 ∧
    (∃ found, m.findSetBitBelow 70 = some found ∧ m.IsBelow 70 found) ∧
    (∃ found, m.findSetBitAbove 70 = some found ∧ m.IsAbove 70 found) ∧
    (m.setOccupied 70).Occupancy ∧ (m.clearOccupied 70).Occupancy ∧
    m.findSetBitAbove 70 = some (some 200) := by
  have hslots : (create .sell 100 300 1).numSlots = 201 := by decide
  have hocc : ((create .sell 100 300 1).setOccupied 200).Occupancy :=
    (occupancy_create .sell 100 300 1).setOccupied (by rw [hslots]; decide)
  obtain ⟨hbelow, habove, hset, hclear⟩ :=
    findSetBit_exact hocc (show 70 < ((create .sell 100 300 1).setOccupied 200).numSlots by decide)
  exact ⟨(create .sell 100 300 1).setOccupied 200, hslots, hbelow, habove, hset, hclear,
    by decide +kernel⟩

end LevelMap

end Velox
