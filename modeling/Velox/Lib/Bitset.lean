import Mathlib.Tactic

/-!
# A two-level bitset

`l0` has one bit per element, `l1` one bit per word of `l0`. The summary level lets the search
for the next element above or below a position skip empty words without reading them.

* `findBelow_spec`, `findAbove_spec` — the searches return the nearest element, or none if there
  is none; the first needs nothing but the summary relation `Summary`.
* `set_summary`, `clear_summary` — the two updates keep the relation.
-/

namespace Velox

/-- The number of leading zero bits. -/
def countlZero (x : BitVec 64) : Nat := ((List.range 64).find? fun i => x.getMsbD i).getD 64

/-- The number of trailing zero bits. -/
def countrZero (x : BitVec 64) : Nat := ((List.range 64).find? fun i => x.getLsbD i).getD 64

/-- The set, in words of 64 bits. -/
structure Bitset where
  l0Words : Nat
  l1Words : Nat
  l0 : Nat → BitVec 64
  l1 : Nat → BitVec 64

namespace Bitset

/-- The empty set over `n` positions. -/
def empty (n : Nat) : Bitset where
  l0Words := (n + 63) / 64
  l1Words := ((n + 63) / 64 + 63) / 64
  l0 := fun _ => 0
  l1 := fun _ => 0

/-- Is position `i` in the set? -/
def mem (b : Bitset) (i : Nat) : Bool := (b.l0 (i / 64)).getLsbD (i % 64)

/-- Add position `i`: its bit, and the summary bit of its word. -/
def set (b : Bitset) (i : Nat) : Bitset :=
  let w := i / 64
  { b with
    l0 := Function.update b.l0 w (b.l0 w ||| (1#64 <<< (i % 64)))
    l1 := Function.update b.l1 (w / 64) (b.l1 (w / 64) ||| (1#64 <<< (w % 64))) }

/-- Remove position `i`; the summary bit goes when its word has become zero. -/
def clear (b : Bitset) (i : Nat) : Bitset :=
  let w := i / 64
  let word := b.l0 w &&& ~~~(1#64 <<< (i % 64))
  { b with
    l0 := Function.update b.l0 w word
    l1 := if word = 0 then
        Function.update b.l1 (w / 64) (b.l1 (w / 64) &&& ~~~(1#64 <<< (w % 64)))
      else b.l1 }

/-- The downward walk over summary words, from word `curL1`. -/
def belowLoop (b : Bitset) (curL1 : Nat) (l1mask : BitVec 64) : Option Nat :=
  let l1word := b.l1 curL1 &&& l1mask
  if l1word ≠ 0 then
    let prevL0 := curL1 * 64 + (63 - countlZero l1word)
    some (prevL0 * 64 + (63 - countlZero (b.l0 prevL0)))
  else
    match curL1 with
    | 0 => none
    | c + 1 => b.belowLoop c (BitVec.allOnes 64)

/-- The greatest element strictly below `idx`. -/
def findBelow (b : Bitset) (idx : Nat) : Option Nat :=
  let w := idx / 64
  let bitInWord := idx % 64
  let mask := if bitInWord = 0 then 0 else (1#64 <<< bitInWord) - 1
  let masked := b.l0 w &&& mask
  if masked ≠ 0 then
    some (w * 64 + (63 - countlZero masked))
  else if w = 0 then
    none
  else
    let l1Bit := (w - 1) % 64
    let l1mask := if l1Bit = 63 then BitVec.allOnes 64 else (1#64 <<< (l1Bit + 1)) - 1
    b.belowLoop ((w - 1) / 64) l1mask

/-- The upward walk over at most `n` summary words, from word `curL1`. -/
def aboveLoop (b : Bitset) : Nat → Nat → BitVec 64 → Option Nat
  | 0, _, _ => none
  | n + 1, curL1, l1mask =>
    let l1word := b.l1 curL1 &&& l1mask
    if l1word ≠ 0 then
      let nextL0 := curL1 * 64 + countrZero l1word
      if nextL0 ≥ b.l0Words then none
      else some (nextL0 * 64 + countrZero (b.l0 nextL0))
    else
      b.aboveLoop n (curL1 + 1) (BitVec.allOnes 64)

/-- The least element strictly above `idx`. -/
def findAbove (b : Bitset) (idx : Nat) : Option Nat :=
  let w := idx / 64
  let bitInWord := idx % 64
  let mask := if bitInWord = 63 then 0 else ~~~((2#64 <<< bitInWord) - 1)
  let masked := b.l0 w &&& mask
  if masked ≠ 0 then
    some (w * 64 + countrZero masked)
  else if w + 1 ≥ b.l0Words then
    none
  else
    let curL1 := (w + 1) / 64
    let l1mask := ~~~((1#64 <<< ((w + 1) % 64)) - 1)
    b.aboveLoop (b.l1Words - curL1) curL1 l1mask

/-! ## Words -/

theorem eq_zero_iff {x : BitVec 64} : x = 0 ↔ ∀ i < 64, x.getLsbD i = false := by
  constructor
  · rintro rfl i _
    simp
  · intro h
    exact BitVec.eq_of_getLsbD_eq fun i hi => by simpa using h i hi

/-- The highest set bit of a non-zero word. -/
theorem highest_spec {x : BitVec 64} (hx : x ≠ 0) :
    63 - countlZero x < 64 ∧ x.getLsbD (63 - countlZero x) = true ∧
      ∀ j, 63 - countlZero x < j → j < 64 → x.getLsbD j = false := by
  have hex : ∃ i, (List.range 64).find? (fun i => x.getMsbD i) = some i := by
    rw [← Option.isSome_iff_exists, List.find?_isSome]
    by_contra hno
    refine hx (eq_zero_iff.2 fun i hi => ?_)
    by_contra hb
    refine hno ⟨63 - i, by simp; omega, ?_⟩
    rw [BitVec.getMsbD_eq_getLsbD]
    simp [show 64 - 1 - (63 - i) = i by omega, show 63 - i < 64 by omega]
    simpa using hb
  obtain ⟨i, hi⟩ := hex
  have hc : countlZero x = i := by simp [countlZero, hi]
  rw [List.find?_range_eq_some] at hi
  obtain ⟨hbit, hlt, hmin⟩ := hi
  rw [List.mem_range] at hlt
  rw [BitVec.getMsbD_eq_getLsbD] at hbit
  rw [hc]
  refine ⟨by omega, ?_, fun j hj hj64 => ?_⟩
  · simpa [hlt] using hbit
  · have := hmin (63 - j) (by omega)
    rw [BitVec.getMsbD_eq_getLsbD] at this
    simpa [show 63 - j < 64 by omega, show 64 - 1 - (63 - j) = j by omega] using this

/-- The lowest set bit of a non-zero word. -/
theorem lowest_spec {x : BitVec 64} (hx : x ≠ 0) :
    countrZero x < 64 ∧ x.getLsbD (countrZero x) = true ∧
      ∀ j < countrZero x, x.getLsbD j = false := by
  have hex : ∃ i, (List.range 64).find? (fun i => x.getLsbD i) = some i := by
    rw [← Option.isSome_iff_exists, List.find?_isSome]
    by_contra hno
    refine hx (eq_zero_iff.2 fun i hi => ?_)
    by_contra hb
    exact hno ⟨i, by simpa using hi, by simpa using hb⟩
  obtain ⟨i, hi⟩ := hex
  have hc : countrZero x = i := by simp [countrZero, hi]
  rw [List.find?_range_eq_some] at hi
  obtain ⟨hbit, hlt, hmin⟩ := hi
  rw [hc]
  exact ⟨List.mem_range.1 hlt, hbit, fun j hj => by simpa using hmin j hj⟩

/-- The mask of the bits below `b`. -/
theorem getLsbD_lowMask {b : Nat} (hb : b < 64) (i : Nat) :
    ((1#64 <<< b) - 1).getLsbD i = decide (i < b) := by
  have hpow : 2 ^ b < 2 ^ 64 := Nat.pow_lt_pow_right (by decide) hb
  have h1 : 1 ≤ 2 ^ b := Nat.one_le_two_pow
  have hval : ((1#64 <<< b) - 1).toNat = 2 ^ b - 1 := by
    have hshift : (1#64 <<< b).toNat = 2 ^ b := by
      rw [BitVec.toNat_shiftLeft, Nat.shiftLeft_eq, BitVec.toNat_ofNat, Nat.one_mod_two_pow_eq_one.2
        (by decide), Nat.one_mul, Nat.mod_eq_of_lt hpow]
    have hone : (1 : BitVec 64).toNat = 1 := rfl
    rw [BitVec.toNat_sub, hshift, hone]
    omega
  rw [BitVec.getLsbD, hval, Nat.testBit_two_pow_sub_one]

/-- The mask of the bits above `b`. -/
theorem getLsbD_highMask {b i : Nat} (hb : b < 63) (hi : i < 64) :
    (~~~((2#64 <<< b) - 1)).getLsbD i = decide (b < i) := by
  have hshift : (2#64 <<< b) = 1#64 <<< (b + 1) := by
    rw [Nat.add_comm, BitVec.shiftLeft_add]
    rfl
  rw [hshift, BitVec.getLsbD_not, getLsbD_lowMask (by omega)]
  simp only [hi, decide_true, Bool.true_and]
  by_cases h : b < i
  · simp [h, show ¬ i < b + 1 by omega]
  · simp [h, show i < b + 1 by omega]

/-! ## Membership after an update -/

@[simp] theorem getLsbD_bit {b i : Nat} (hi : i < 64) :
    (1#64 <<< b).getLsbD i = decide (i = b) := by
  rw [BitVec.getLsbD_shiftLeft]
  simp only [hi, decide_true, Bool.true_and, BitVec.getLsbD_one]
  by_cases h : i < b
  · simp [h, show i ≠ b by omega]
  · by_cases he : i = b
    · simp [he]
    · simp [h, he, show i - b ≠ 0 by omega]

theorem mem_set (b : Bitset) (i j : Nat) : (b.set i).mem j = (decide (j = i) || b.mem j) := by
  have hj : j % 64 < 64 := Nat.mod_lt _ (by decide)
  simp only [mem, set, Function.update_apply]
  by_cases hw : j / 64 = i / 64
  · rw [if_pos hw, BitVec.getLsbD_or, getLsbD_bit hj, ← hw, Bool.or_comm]
    congr 1
    exact decide_eq_decide.2 (by omega)
  · simp [hw, show j ≠ i by rintro rfl; exact hw rfl]

theorem mem_clear (b : Bitset) (i j : Nat) :
    (b.clear i).mem j = (!decide (j = i) && b.mem j) := by
  have hj : j % 64 < 64 := Nat.mod_lt _ (by decide)
  simp only [mem, clear, Function.update_apply]
  by_cases hw : j / 64 = i / 64
  · rw [if_pos hw, BitVec.getLsbD_and, BitVec.getLsbD_not, getLsbD_bit hj, ← hw]
    simp only [hj, decide_true, Bool.true_and]
    rw [Bool.and_comm]
    congr 2
    exact decide_eq_decide.2 (by omega)
  · simp [hw, show j ≠ i by rintro rfl; exact hw rfl]

/-! ## The summary level -/

/-- Summary bit `w` is set exactly when word `w` is not zero. -/
def Summary (b : Bitset) : Prop :=
  ∀ w < b.l0Words, (b.l1 (w / 64)).getLsbD (w % 64) = true ↔ b.l0 w ≠ 0

theorem empty_summary (n : Nat) : (empty n).Summary := by
  intro w _
  simp [empty]

theorem set_summary {b : Bitset} (h : b.Summary) (i : Nat) : (b.set i).Summary := by
  intro w hw
  have h64 : w % 64 < 64 := Nat.mod_lt _ (by decide)
  simp only [set, Function.update_apply]
  by_cases he : w = i / 64
  · subst he
    simp only [if_true, BitVec.getLsbD_or, getLsbD_bit h64, decide_true, Bool.or_true, true_iff]
    intro hz
    have := eq_zero_iff.1 hz (i % 64) (Nat.mod_lt _ (by decide))
    simp [BitVec.getLsbD_or, getLsbD_bit (Nat.mod_lt i (show 0 < 64 by decide))] at this
  · rw [if_neg he, ← h w hw]
    by_cases hq : w / 64 = i / 64 / 64
    · rw [if_pos hq, BitVec.getLsbD_or, getLsbD_bit h64, hq]
      simp [show w % 64 ≠ i / 64 % 64 by omega]
    · rw [if_neg hq]

theorem clear_summary {b : Bitset} (h : b.Summary) (i : Nat) : (b.clear i).Summary := by
  intro w hw
  have h64 : w % 64 < 64 := Nat.mod_lt _ (by decide)
  have hw' := h w hw
  simp only [clear, Function.update_apply]
  by_cases he : w = i / 64
  · subst he
    rw [if_pos rfl]
    by_cases hz : b.l0 (i / 64) &&& ~~~(1#64 <<< (i % 64)) = 0
    · simp [hz, BitVec.getLsbD_and, getLsbD_bit h64]
    · simp only [hz, if_false, not_false_eq_true, iff_true, ne_eq]
      refine hw'.2 fun hz' => hz ?_
      rw [hz']
      simp
  · rw [if_neg he, ← hw']
    split
    · rw [Function.update_apply]
      split
      · next hq =>
        rw [BitVec.getLsbD_and, BitVec.getLsbD_not, getLsbD_bit h64, hq]
        simp [h64, show w % 64 ≠ i / 64 % 64 by omega]
      · rfl
    · rfl

/-! ## The searches -/

/-- `r` is the greatest element below `lim`. -/
def Greatest (b : Bitset) (lim : Nat) : Option Nat → Prop
  | some j => j < lim ∧ b.mem j = true ∧ ∀ m, j < m → m < lim → b.mem m = false
  | none => ∀ m < lim, b.mem m = false

/-- `r` is the least element from `start` on. -/
def Least (b : Bitset) (start : Nat) : Option Nat → Prop
  | some j => start ≤ j ∧ j < b.l0Words * 64 ∧ b.mem j = true ∧
      ∀ m, start ≤ m → m < j → b.mem m = false
  | none => ∀ m, start ≤ m → m < b.l0Words * 64 → b.mem m = false

theorem mem_of_word_zero {b : Bitset} {m : Nat} (h : b.l0 (m / 64) = 0) : b.mem m = false := by
  simp [mem, h]

theorem mem_word (b : Bitset) (w i : Nat) (hi : i < 64) :
    b.mem (w * 64 + i) = (b.l0 w).getLsbD i := by
  rw [mem, show (w * 64 + i) / 64 = w by omega, show (w * 64 + i) % 64 = i by omega]

/-- The highest element of the last non-zero word before word `n`. -/
theorem greatest_of_word {b : Bitset} {w n : Nat} (hw : w < n) (hne : b.l0 w ≠ 0)
    (hzero : ∀ v, w < v → v < n → b.l0 v = 0) :
    b.Greatest (n * 64) (some (w * 64 + (63 - countlZero (b.l0 w)))) := by
  obtain ⟨hlt, hbit, hmax⟩ := highest_spec hne
  refine ⟨by omega, by rw [mem_word b _ _ hlt]; exact hbit, fun m hm hmn => ?_⟩
  by_cases hmw : m / 64 = w
  · rw [mem, hmw]
    exact hmax _ (by omega) (Nat.mod_lt _ (by decide))
  · exact mem_of_word_zero (hzero (m / 64) (by omega) (by omega))

/-- The lowest element of the first non-zero word from word `n` on. -/
theorem least_of_word {b : Bitset} {w n : Nat} (hw : n ≤ w) (hlim : w < b.l0Words)
    (hne : b.l0 w ≠ 0) (hzero : ∀ v, n ≤ v → v < w → b.l0 v = 0) :
    b.Least (n * 64) (some (w * 64 + countrZero (b.l0 w))) := by
  obtain ⟨hlt, hbit, hmin⟩ := lowest_spec hne
  refine ⟨by omega, by omega, by rw [mem_word b _ _ hlt]; exact hbit, fun m hm hmn => ?_⟩
  by_cases hmw : m / 64 = w
  · rw [mem, hmw]
    exact hmin _ (by omega)
  · exact mem_of_word_zero (hzero (m / 64) (by omega) (by omega))

/-- A masked summary word that is zero: the words the mask covers are all zero. -/
theorem words_zero {b : Bitset} (h : b.Summary) {curL1 : Nat} {mask : BitVec 64}
    (hz : b.l1 curL1 &&& mask = 0) {w : Nat} (hw : w / 64 = curL1) (hlim : w < b.l0Words)
    (hmask : mask.getLsbD (w % 64) = true) : b.l0 w = 0 := by
  by_contra hne
  have hbit := (h w hlim).2 hne
  have hzero := eq_zero_iff.1 hz (w % 64) (Nat.mod_lt _ (by decide))
  rw [BitVec.getLsbD_and, hmask, ← hw, hbit] at hzero
  cases hzero

/-- The summary word has a bit under the mask: the answer is in the word of the highest one. -/
theorem below_found {b : Bitset} (h : b.Summary) {curL1 c : Nat} {mask : BitVec 64} (hc : c < 64)
    (hmask : ∀ i < 64, mask.getLsbD i = decide (i ≤ c)) (hlim : curL1 * 64 + c < b.l0Words)
    (hnz : b.l1 curL1 &&& mask ≠ 0) :
    b.Greatest ((curL1 * 64 + c + 1) * 64)
      (some ((curL1 * 64 + (63 - countlZero (b.l1 curL1 &&& mask))) * 64 +
        (63 - countlZero (b.l0 (curL1 * 64 + (63 - countlZero (b.l1 curL1 &&& mask))))))) := by
  obtain ⟨hlt, hbit, hmax⟩ := highest_spec hnz
  generalize 63 - countlZero (b.l1 curL1 &&& mask) = t at *
  rw [BitVec.getLsbD_and, hmask t hlt] at hbit
  simp only [Bool.and_eq_true, decide_eq_true_eq] at hbit
  refine greatest_of_word (by omega) ?_ fun v hv hvn => ?_
  · refine (h _ (by omega)).1 ?_
    rw [show (curL1 * 64 + t) / 64 = curL1 by omega, show (curL1 * 64 + t) % 64 = t by omega]
    exact hbit.1
  · by_contra hne
    have hsum := (h v (by omega)).2 hne
    have hoff := hmax (v % 64) (by omega) (Nat.mod_lt _ (by decide))
    rw [BitVec.getLsbD_and, hmask _ (Nat.mod_lt _ (by decide)),
      decide_eq_true (show v % 64 ≤ c by omega), ← show v / 64 = curL1 by omega, hsum] at hoff
    cases hoff

/-- The summary word has no bit under the mask: its words hold no element. -/
theorem below_skipped {b : Bitset} (h : b.Summary) {curL1 c : Nat} {mask : BitVec 64}
    (hc : c < 64) (hmask : ∀ i < 64, mask.getLsbD i = decide (i ≤ c))
    (hlim : curL1 * 64 + c < b.l0Words) (hz : b.l1 curL1 &&& mask = 0) {m : Nat}
    (hm : curL1 * 64 * 64 ≤ m) (hml : m < (curL1 * 64 + c + 1) * 64) : b.mem m = false := by
  refine mem_of_word_zero (words_zero h hz (by omega) (by omega) ?_)
  rw [hmask _ (Nat.mod_lt _ (by decide))]
  exact decide_eq_true (by omega)

/-- Positions without elements can be added at the top. -/
theorem Greatest.extend {b : Bitset} {lim lim' : Nat} {r : Option Nat} (h : b.Greatest lim r)
    (hle : lim ≤ lim') (hno : ∀ m, lim ≤ m → m < lim' → b.mem m = false) :
    b.Greatest lim' r := by
  have hcase : ∀ m, m < lim' → (m < lim → b.mem m = false) → b.mem m = false := by
    intro m hm hlow
    by_cases hml : m < lim
    · exact hlow hml
    · exact hno m (by omega) hm
  cases r with
  | none => exact fun m hm => hcase m hm (h m)
  | some j => exact ⟨by have := h.1; omega, h.2.1, fun m hm hml => hcase m hml (h.2.2 m hm)⟩

/-- The summary walk downward finds the greatest element of the words up to the mask's end. -/
theorem belowLoop_spec {b : Bitset} (h : b.Summary) :
    ∀ (curL1 c : Nat) (mask : BitVec 64), c < 64 →
      (∀ i < 64, mask.getLsbD i = decide (i ≤ c)) → curL1 * 64 + c < b.l0Words →
      b.Greatest ((curL1 * 64 + c + 1) * 64) (b.belowLoop curL1 mask) := by
  intro curL1
  induction curL1 with
  | zero =>
    intro c mask hc hmask hlim
    rw [belowLoop]
    split
    · next hnz => exact below_found h hc hmask hlim hnz
    · next hz =>
      intro m hm
      exact below_skipped h hc hmask hlim (not_not.1 hz) (by omega) hm
  | succ curL1 ih =>
    intro c mask hc hmask hlim
    rw [belowLoop]
    split
    · next hnz => exact below_found h hc hmask hlim hnz
    · next hz =>
      have hrec := ih 63 (BitVec.allOnes 64) (by omega)
        (fun i hi => by rw [BitVec.getLsbD_allOnes]; exact decide_eq_decide.2 (by omega)) (by omega)
      rw [show (curL1 * 64 + 63 + 1) * 64 = (curL1 + 1) * 64 * 64 by ring] at hrec
      exact hrec.extend (by omega) fun m hm hml =>
        below_skipped h hc hmask hlim (not_not.1 hz) hm hml

/-- **The downward search** returns the greatest element below `idx`. -/
theorem findBelow_spec {b : Bitset} (h : b.Summary) {idx : Nat} (hidx : idx / 64 < b.l0Words) :
    b.Greatest idx (b.findBelow idx) := by
  have hbit : idx % 64 < 64 := Nat.mod_lt _ (by decide)
  -- The bits of the word of `idx` that the mask keeps are those below `idx`.
  have hmask : ∀ i < 64, (if idx % 64 = 0 then 0 else (1#64 <<< (idx % 64)) - 1).getLsbD i =
      decide (i < idx % 64) := by
    intro i _
    split
    · next h0 => simp [h0]
    · exact getLsbD_lowMask hbit i
  rw [findBelow]
  generalize (if idx % 64 = 0 then 0 else (1#64 <<< (idx % 64)) - 1) = mask at hmask ⊢
  have hword : ∀ m, idx / 64 * 64 ≤ m → m < idx →
      b.mem m = (b.l0 (idx / 64) &&& mask).getLsbD (m % 64) := by
    intro m hm hml
    rw [BitVec.getLsbD_and, hmask _ (Nat.mod_lt _ (by decide)), decide_eq_true (by omega),
      Bool.and_true, mem, show m / 64 = idx / 64 by omega]
  split
  · next hnz =>
    obtain ⟨hlt, htop, hmax⟩ := highest_spec hnz
    generalize 63 - countlZero (b.l0 (idx / 64) &&& mask) = t at *
    have ht : t < idx % 64 := by
      rw [BitVec.getLsbD_and, hmask t hlt] at htop
      simp only [Bool.and_eq_true, decide_eq_true_eq] at htop
      exact htop.2
    refine ⟨by omega, ?_, fun m hm hml => ?_⟩
    · rw [hword _ (by omega) (by omega), show (idx / 64 * 64 + t) % 64 = t by omega]
      exact htop
    · rw [hword m (by omega) hml]
      exact hmax _ (by omega) (Nat.mod_lt _ (by decide))
  · next hz =>
    have hzero : ∀ m, idx / 64 * 64 ≤ m → m < idx → b.mem m = false := by
      intro m hm hml
      rw [hword m hm hml, not_not.1 hz]
      simp
    split
    · next hw => exact fun m hm => hzero m (by omega) hm
    · next hw =>
      have hl1 : ∀ i < 64, (if (idx / 64 - 1) % 64 = 63 then BitVec.allOnes 64
          else (1#64 <<< ((idx / 64 - 1) % 64 + 1)) - 1).getLsbD i =
          decide (i ≤ (idx / 64 - 1) % 64) := by
        intro i hi
        split
        · rw [BitVec.getLsbD_allOnes]
          exact decide_eq_decide.2 (by omega)
        · rw [getLsbD_lowMask (by omega)]
          exact decide_eq_decide.2 (by omega)
      have hrec := belowLoop_spec h ((idx / 64 - 1) / 64) ((idx / 64 - 1) % 64) _
        (Nat.mod_lt _ (by decide)) hl1 (by omega)
      exact hrec.extend (by omega) fun m hm hml => hzero m (by omega) hml

/-! ## The search upward -/

/-- The summary word has a bit under the mask: the answer is in the word of the lowest one. -/
theorem above_found {b : Bitset} (h : b.Summary) {curL1 c : Nat} {mask : BitVec 64}
    (hmask : ∀ i < 64, mask.getLsbD i = decide (c ≤ i)) (hnz : b.l1 curL1 &&& mask ≠ 0)
    (hlim : curL1 * 64 + countrZero (b.l1 curL1 &&& mask) < b.l0Words) :
    b.Least ((curL1 * 64 + c) * 64)
      (some ((curL1 * 64 + countrZero (b.l1 curL1 &&& mask)) * 64 +
        countrZero (b.l0 (curL1 * 64 + countrZero (b.l1 curL1 &&& mask))))) := by
  obtain ⟨hlt, hbit, hmin⟩ := lowest_spec hnz
  generalize countrZero (b.l1 curL1 &&& mask) = t at *
  rw [BitVec.getLsbD_and, hmask t hlt] at hbit
  simp only [Bool.and_eq_true, decide_eq_true_eq] at hbit
  refine least_of_word (by omega) hlim ?_ fun v hv hvn => ?_
  · refine (h _ hlim).1 ?_
    rw [show (curL1 * 64 + t) / 64 = curL1 by omega, show (curL1 * 64 + t) % 64 = t by omega]
    exact hbit.1
  · by_contra hne
    have hsum := (h v (by omega)).2 hne
    have hoff := hmin (v % 64) (by omega)
    rw [BitVec.getLsbD_and, hmask _ (Nat.mod_lt _ (by decide)),
      decide_eq_true (show c ≤ v % 64 by omega), ← show v / 64 = curL1 by omega, hsum] at hoff
    cases hoff

/-- No word under the mask before `lim` is non-zero: there is no element there. -/
theorem above_skipped {b : Bitset} (h : b.Summary) {curL1 c lim : Nat} {mask : BitVec 64}
    (hmask : ∀ i < 64, mask.getLsbD i = decide (c ≤ i))
    (hz : ∀ i < lim, (b.l1 curL1 &&& mask).getLsbD i = false) {m : Nat} (hlim : lim ≤ 64)
    (hm : (curL1 * 64 + c) * 64 ≤ m) (hml : m < (curL1 * 64 + lim) * 64)
    (hword : m < b.l0Words * 64) : b.mem m = false := by
  refine mem_of_word_zero ?_
  by_contra hne
  have hsum := (h (m / 64) (by omega)).2 hne
  have hoff := hz (m / 64 % 64) (by omega)
  rw [BitVec.getLsbD_and, hmask _ (Nat.mod_lt _ (by decide)), decide_eq_true (by omega),
    ← show m / 64 / 64 = curL1 by omega, hsum] at hoff
  cases hoff

/-- Positions without elements can be added at the bottom. -/
theorem Least.extend {b : Bitset} {start start' : Nat} {r : Option Nat} (h : b.Least start r)
    (hle : start' ≤ start)
    (hno : ∀ m, start' ≤ m → m < start → m < b.l0Words * 64 → b.mem m = false) :
    b.Least start' r := by
  have hcase : ∀ m, start' ≤ m → m < b.l0Words * 64 → (start ≤ m → b.mem m = false) →
      b.mem m = false := by
    intro m hm hml hhigh
    by_cases hms : start ≤ m
    · exact hhigh hms
    · exact hno m hm (by omega) hml
  cases r with
  | none => exact fun m hm hml => hcase m hm hml fun hs => h m hs hml
  | some j =>
    obtain ⟨h₁, h₂, h₃, h₄⟩ := h
    exact ⟨by omega, h₂, h₃, fun m hm hml => hcase m hm (by omega) fun hs => h₄ m hs hml⟩

/-- The summary walk upward finds the least element from the mask's start on. -/
theorem aboveLoop_spec {b : Bitset} (h : b.Summary) (hwords : b.l0Words ≤ b.l1Words * 64) :
    ∀ (n curL1 c : Nat) (mask : BitVec 64), c < 64 →
      (∀ i < 64, mask.getLsbD i = decide (c ≤ i)) → b.l1Words ≤ curL1 + n →
      b.Least ((curL1 * 64 + c) * 64) (b.aboveLoop n curL1 mask) := by
  intro n
  induction n with
  | zero =>
    intro curL1 c mask _ _ hn m hm hml
    omega
  | succ n ih =>
    intro curL1 c mask hc hmask hn
    rw [aboveLoop]
    split
    · next hnz =>
      obtain ⟨hlt, hbit, hmin⟩ := lowest_spec hnz
      dsimp only
      split
      · next hge =>
        intro m hm hml
        exact above_skipped h hmask hmin (by omega) hm (by omega) hml
      · next hlim => exact above_found h hmask hnz (by omega)
    · next hz =>
      have hrec := ih (curL1 + 1) 0 (BitVec.allOnes 64) (by omega)
        (fun i hi => by rw [BitVec.getLsbD_allOnes]; exact decide_eq_decide.2 (by omega)) (by omega)
      exact hrec.extend (by omega) fun m hm hms hml =>
        above_skipped h hmask (eq_zero_iff.1 (not_not.1 hz)) le_rfl hm (by omega) hml

/-- **The upward search** returns the least element above `idx`. -/
theorem findAbove_spec {b : Bitset} (h : b.Summary) (hwords : b.l0Words ≤ b.l1Words * 64)
    {idx : Nat} (hidx : idx / 64 < b.l0Words) : b.Least (idx + 1) (b.findAbove idx) := by
  have hbit : idx % 64 < 64 := Nat.mod_lt _ (by decide)
  have hmask : ∀ i < 64, (if idx % 64 = 63 then 0 else ~~~((2#64 <<< (idx % 64)) - 1)).getLsbD i =
      decide (idx % 64 < i) := by
    intro i hi
    split
    · next h63 =>
      rw [h63, decide_eq_false (by omega)]
      simp
    · exact getLsbD_highMask (by omega) hi
  rw [findAbove]
  generalize (if idx % 64 = 63 then 0 else ~~~((2#64 <<< (idx % 64)) - 1)) = mask at hmask ⊢
  have hword : ∀ m, idx < m → m < (idx / 64 + 1) * 64 →
      b.mem m = (b.l0 (idx / 64) &&& mask).getLsbD (m % 64) := by
    intro m hm hml
    rw [BitVec.getLsbD_and, hmask _ (Nat.mod_lt _ (by decide)), decide_eq_true (by omega),
      Bool.and_true, mem, show m / 64 = idx / 64 by omega]
  split
  · next hnz =>
    obtain ⟨hlt, hlow, hmin⟩ := lowest_spec hnz
    generalize countrZero (b.l0 (idx / 64) &&& mask) = t at *
    have ht : idx % 64 < t := by
      rw [BitVec.getLsbD_and, hmask t hlt] at hlow
      simp only [Bool.and_eq_true, decide_eq_true_eq] at hlow
      exact hlow.2
    refine ⟨by omega, by omega, ?_, fun m hm hml => ?_⟩
    · rw [hword _ (by omega) (by omega), show (idx / 64 * 64 + t) % 64 = t by omega]
      exact hlow
    · rw [hword m (by omega) (by omega)]
      exact hmin _ (by omega)
  · next hz =>
    have hzero : ∀ m, idx < m → m < (idx / 64 + 1) * 64 → b.mem m = false := by
      intro m hm hml
      rw [hword m hm hml, not_not.1 hz]
      simp
    split
    · next hw => exact fun m hm hml => hzero m hm (by omega)
    · next hw =>
      have hl1 : ∀ i < 64, (~~~((1#64 <<< ((idx / 64 + 1) % 64)) - 1)).getLsbD i =
          decide ((idx / 64 + 1) % 64 ≤ i) := by
        intro i hi
        rw [BitVec.getLsbD_not, getLsbD_lowMask (Nat.mod_lt _ (by decide))]
        simp only [hi, decide_true, Bool.true_and]
        rw [← decide_not]
        exact decide_eq_decide.2 (by omega)
      have hrec := aboveLoop_spec h hwords (b.l1Words - (idx / 64 + 1) / 64) ((idx / 64 + 1) / 64)
        ((idx / 64 + 1) % 64) _ (Nat.mod_lt _ (by decide)) hl1 (by omega)
      exact hrec.extend (by omega) fun m hm hms _ => hzero m (by omega) (by omega)

end Bitset

end Velox
