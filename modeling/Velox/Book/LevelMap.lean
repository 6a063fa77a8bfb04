import Velox.Engine.PriceLevel
import Velox.Lib.Bitset

/-!
# The levels of one side

Following `book/level_map.hpp`: an array of price levels indexed by `(price - minPrice) / tick`,
a two-level bitset of the occupied slots, and the tracked best price.

The index truncates, and no caller checks that a price is a multiple of the tick. So a slot holds
every price of its tick interval, and `best` is the exact price of some order after `addOrder`
but the slot's own price after `onLevelEmptied`.

* `LevelMap.Holds` — the map links exactly the orders `ps` of its side, level by level, and the
  bitset is exact. One slot may be excepted (`dirty`): a level that has just been emptied and is
  not yet reported.
* `addOrder_holds`, `unlinkAt_holds`, `reduceAt_holds`, `onLevelEmptied_holds` — the operations.
* `nextOccupied_spec` — the bitset search finds the nearest occupied slot.
-/

namespace Velox

/-- Slot `j` lies beyond slot `i`, toward worse prices. -/
def Side.beyond : Side → Nat → Nat → Prop
  | .buy, i, j => j < i
  | .sell, i, j => i < j

structure LevelMap where
  side : Side
  minPrice : Int
  maxPrice : Int
  tick : Int
  numSlots : Nat
  levels : Nat → PriceLevel
  bits : Bitset
  best : Int

namespace LevelMap

def create (side : Side) (minPrice maxPrice tick : Int) : LevelMap :=
  let numSlots := (((maxPrice - minPrice).tdiv tick) % 2 ^ 64).toNat + 1
  { side := side
    minPrice := minPrice
    maxPrice := maxPrice
    tick := tick
    numSlots := numSlots
    levels := fun i => PriceLevel.init (minPrice + i * tick)
    bits := Bitset.empty numSlots
    best := emptySentinel side }

def inRange (m : LevelMap) (p : Int) : Bool := decide (m.minPrice ≤ p ∧ p ≤ m.maxPrice)

def hasBest (m : LevelMap) : Bool := decide (m.best ≠ emptySentinel m.side)

/-- The array index of a price: truncating division, then a cast to an unsigned type. -/
def index (m : LevelMap) (p : Int) : Nat :=
  ((wrap64 (p - m.minPrice)).tdiv m.tick % 2 ^ 64).toNat

/-- Where the level of a price lies; no level for a price out of range. -/
def levelAt (m : LevelMap) (p : Int) : Option Nat :=
  if m.inRange p then some (m.index p) else none

def setLevel (m : LevelMap) (i : Nat) (lvl : PriceLevel) : LevelMap :=
  { m with levels := Function.update m.levels i lvl }

def setBits (m : LevelMap) (bits : Bitset) : LevelMap := { m with bits := bits }

def setBest (m : LevelMap) (best : Int) : LevelMap := { m with best := best }

/-- Add an order at its price. Undefined when the index lies outside the array. -/
def addOrder (m : LevelMap) (h : Heap) (o : Ptr) : Option (LevelMap × Heap) :=
  let i := m.index (h o).price
  if i < m.numSlots then
    let wasEmpty := (m.levels i).empty
    let (lvl, h') := (m.levels i).enqueue ⟨m.side, i⟩ h o
    let m := m.setLevel i lvl
    let m := if wasEmpty then m.setBits (m.bits.set i) else m
    let m := if m.side.isBetter (h' o).price m.best then m.setBest (h' o).price else m
    some (m, h')
  else
    none

/-- The price of the next occupied level beyond `start`, walking toward worse prices. -/
def nextOccupied (m : LevelMap) (start : Int) : Int :=
  let idx := m.index start
  let found := match m.side with
    | .buy => m.bits.findBelow idx
    | .sell => m.bits.findAbove idx
  match found with
  | none => emptySentinel m.side
  | some i => (m.levels i).price

/-- The level of `p` has become empty: clear its bit, and recover the best price if it was `p`. -/
def onLevelEmptied (m : LevelMap) (p : Int) : LevelMap :=
  let m := m.setBits (m.bits.clear (m.index p))
  if p ≠ m.best then m else m.setBest (m.nextOccupied p)

/-- Take `qty` from the total of the level at index `i`. -/
def reduceAt (m : LevelMap) (i : Nat) (qty : Int) : LevelMap :=
  m.setLevel i ((m.levels i).reduceQuantity qty)

/-- Remove an order from the level at index `i`. -/
def unlinkAt (m : LevelMap) (i : Nat) (h : Heap) (o : Ptr) : LevelMap × Heap :=
  let (lvl, h') := (m.levels i).unlink h o
  (m.setLevel i lvl, h')

/-! ## Slots -/

/-- The slot of a price, without the machine arithmetic. -/
def slot (m : LevelMap) (p : Int) : Nat := ((p - m.minPrice) / m.tick).toNat

/-- A range that a book can be built over. -/
structure Sound (m : LevelMap) : Prop where
  tick : 0 < m.tick
  ordered : m.minPrice ≤ m.maxPrice
  fits : m.maxPrice - m.minPrice < 2 ^ 63
  numSlots : m.numSlots = ((m.maxPrice - m.minPrice) / m.tick).toNat + 1

theorem index_of_inRange {m : LevelMap} (hs : m.Sound) {p : Int} (hp : m.inRange p = true) :
    m.index p = m.slot p := by
  rw [inRange, decide_eq_true_eq] at hp
  have htick := hs.tick
  have hfits := hs.fits
  have h0 : 0 ≤ p - m.minPrice := by omega
  have hle : (p - m.minPrice) / m.tick ≤ p - m.minPrice := Int.ediv_le_self _ h0
  have hge : 0 ≤ (p - m.minPrice) / m.tick := Int.ediv_nonneg h0 htick.le
  rw [index, slot, wrap64_of_fits (by omega) (by omega), Int.tdiv_eq_ediv_of_nonneg h0,
    Int.emod_eq_of_lt hge (by omega)]

theorem slot_lt {m : LevelMap} (hs : m.Sound) {p : Int} (hp : m.inRange p = true) :
    m.slot p < m.numSlots := by
  rw [inRange, decide_eq_true_eq] at hp
  have hmono : (p - m.minPrice) / m.tick ≤ (m.maxPrice - m.minPrice) / m.tick :=
    Int.ediv_le_ediv hs.tick (by omega)
  have hge : 0 ≤ (p - m.minPrice) / m.tick := Int.ediv_nonneg (by omega) hs.tick.le
  rw [hs.numSlots, slot]
  omega

/-- The two maps are over the same prices. -/
structure SameGrid (m m' : LevelMap) : Prop where
  side : m'.side = m.side
  minPrice : m'.minPrice = m.minPrice
  maxPrice : m'.maxPrice = m.maxPrice
  tick : m'.tick = m.tick
  numSlots : m'.numSlots = m.numSlots

section SameGrid

variable {m m' : LevelMap}

theorem SameGrid.refl (m : LevelMap) : SameGrid m m := ⟨rfl, rfl, rfl, rfl, rfl⟩

theorem SameGrid.setBest (hg : SameGrid m m') (best : Int) : SameGrid m (m'.setBest best) :=
  ⟨hg.side, hg.minPrice, hg.maxPrice, hg.tick, hg.numSlots⟩

theorem SameGrid.slot (hg : SameGrid m m') (p : Int) : m'.slot p = m.slot p := by
  rw [LevelMap.slot, LevelMap.slot, hg.minPrice, hg.tick]

end SameGrid

/-! ## What a side holds -/

/-- The orders among `ps` that belong in slot `i` of this side, in their order in `ps`. -/
def chain (m : LevelMap) (h : Heap) (ps : List Ptr) (i : Nat) : List Ptr :=
  ps.filter fun p => decide ((h p).side = m.side ∧ m.slot (h p).price = i)

/-- The side links exactly its orders among `ps`; the bits are exact but for the slot `dirty`,
whose bit is still set. -/
structure Holds (m : LevelMap) (h : Heap) (ps : List Ptr) (dirty : Option Nat) : Prop where
  sound : m.Sound
  levels : ∀ i < m.numSlots, (m.levels i).Holds ⟨m.side, i⟩ h (m.chain h ps i)
  prices : ∀ i < m.numSlots, (m.levels i).price = m.minPrice + i * m.tick
  l0Words : m.bits.l0Words = (m.numSlots + 63) / 64
  l1Words : m.bits.l1Words = (m.bits.l0Words + 63) / 64
  summary : m.bits.Summary
  bits : ∀ i, m.bits.mem i = true ↔ i < m.numSlots ∧ (m.chain h ps i ≠ [] ∨ dirty = some i)

section Chain

variable {m : LevelMap} {h h' : Heap} {ps : List Ptr} {o : Ptr} {i : Nat}

theorem mem_chain {p : Ptr} : p ∈ m.chain h ps i ↔
    p ∈ ps ∧ (h p).side = m.side ∧ m.slot (h p).price = i := by
  rw [chain, List.mem_filter, decide_eq_true_eq]

theorem chain_nodup (hnd : ps.Nodup) : (m.chain h ps i).Nodup := hnd.filter _

/-- Only side and price place an order. -/
theorem chain_congr (hs : ∀ p ∈ ps, (h' p).side = (h p).side)
    (hp : ∀ p ∈ ps, (h' p).price = (h p).price) : m.chain h' ps i = m.chain h ps i :=
  List.filter_congr fun p hp' => by rw [hs p hp', hp p hp']

theorem chain_congr_data (hd : ∀ p ∈ ps, (h' p).data = (h p).data) :
    m.chain h' ps i = m.chain h ps i :=
  chain_congr (fun p hp => congrArg RestingOrder.side (hd p hp))
    fun p hp => congrArg RestingOrder.price (hd p hp)

theorem chain_append : m.chain h (ps ++ [o]) i =
    if (h o).side = m.side ∧ m.slot (h o).price = i then m.chain h ps i ++ [o]
    else m.chain h ps i := by
  rw [chain, List.filter_append]
  by_cases hc : (h o).side = m.side ∧ m.slot (h o).price = i
  · simp [chain, hc]
  · simp [chain, hc]

theorem chain_remove : m.chain h (ps.filter (· ≠ o)) i = (m.chain h ps i).filter (· ≠ o) := by
  rw [chain, chain, List.filter_filter, List.filter_filter]
  exact List.filter_congr fun p _ => Bool.and_comm ..

theorem chain_remove_of_not_mem (ho : o ∉ m.chain h ps i) :
    m.chain h (ps.filter (· ≠ o)) i = m.chain h ps i := by
  rw [chain_remove, List.filter_eq_self]
  intro p hp
  rw [decide_eq_true_eq]
  rintro rfl
  exact ho hp

/-- Taking `o` out of a list without repetitions. -/
theorem remove_middle {ys zs : List Ptr} (hnd : (ys ++ o :: zs).Nodup) :
    (ys ++ o :: zs).filter (· ≠ o) = ys ++ zs := by
  have ho := (List.nodup_cons.1 (List.perm_middle.nodup_iff.1 hnd)).1
  rw [List.mem_append, not_or] at ho
  rw [List.filter_append, List.filter_cons_of_neg (by simp), List.filter_eq_self.2,
    List.filter_eq_self.2]
  · intro p hp
    rw [decide_eq_true_eq]
    rintro rfl
    exact ho.2 hp
  · intro p hp
    rw [decide_eq_true_eq]
    rintro rfl
    exact ho.1 hp

end Chain

section Holds

variable {m : LevelMap} {h h' : Heap} {ps ps' : List Ptr} {o : Ptr} {i : Nat} {dirty : Option Nat}

/-- A heap and a list of orders that agree on this side. -/
theorem Holds.congr (hm : m.Holds h ps dirty) (hc : ∀ i, m.chain h' ps' i = m.chain h ps i)
    (heq : ∀ i < m.numSlots, ∀ p ∈ m.chain h ps i, h' p = h p) : m.Holds h' ps' dirty where
  sound := hm.sound
  levels := fun i hi => by
    rw [hc i]
    exact (hm.levels i hi).congr (heq i hi)
  prices := hm.prices
  l0Words := hm.l0Words
  l1Words := hm.l1Words
  summary := hm.summary
  bits := fun i => by rw [hc i]; exact hm.bits i

theorem holds_create (side : Side) {minPrice maxPrice tick : Int} (htick : 0 < tick)
    (hle : minPrice ≤ maxPrice) (hfits : maxPrice - minPrice < 2 ^ 63) (h : Heap) :
    (create side minPrice maxPrice tick).Holds h [] none where
  sound := by
    refine ⟨htick, hle, hfits, ?_⟩
    have h0 : 0 ≤ maxPrice - minPrice := by omega
    have hle' : (maxPrice - minPrice) / tick ≤ maxPrice - minPrice := Int.ediv_le_self _ h0
    have hge : 0 ≤ (maxPrice - minPrice) / tick := Int.ediv_nonneg h0 htick.le
    change ((maxPrice - minPrice).tdiv tick % 2 ^ 64).toNat + 1 = _
    rw [Int.tdiv_eq_ediv_of_nonneg h0, Int.emod_eq_of_lt hge (by omega)]
    rfl
  levels := fun i _ => PriceLevel.holds_init _ _ _
  prices := fun _ _ => rfl
  l0Words := rfl
  l1Words := rfl
  summary := Bitset.empty_summary _
  bits := fun i => by simp [create, Bitset.empty, Bitset.mem, chain]

/-- Different slots hold different orders. -/
theorem not_mem_chain_of_ne {j : Nat} (hne : j ≠ i) {p : Ptr} (hp : p ∈ m.chain h ps j) :
    p ∉ m.chain h ps i := by
  rw [mem_chain] at hp ⊢
  rintro ⟨-, -, hi⟩
  exact hne (hp.2.2.symm.trans hi)

theorem Holds.setBest (hm : m.Holds h ps dirty) (best : Int) :
    (m.setBest best).Holds h ps dirty :=
  ⟨⟨hm.sound.tick, hm.sound.ordered, hm.sound.fits, hm.sound.numSlots⟩, hm.levels, hm.prices,
    hm.l0Words, hm.l1Words, hm.summary, hm.bits⟩

/-- A change confined to one level: the new level has to hold its new orders, the other slots
keep theirs, and the bits have to be right again. -/
theorem Holds.update (hm : m.Holds h ps dirty) (bits : Bitset) {lvl : PriceLevel}
    {dirty' : Option Nat} (hlvl : lvl.Holds ⟨m.side, i⟩ h' (m.chain h' ps' i))
    (hprice : lvl.price = (m.levels i).price)
    (hother : ∀ j < m.numSlots, j ≠ i → m.chain h' ps' j = m.chain h ps j ∧
      ∀ p ∈ m.chain h ps j, h' p = h p)
    (hl0 : bits.l0Words = m.bits.l0Words) (hl1 : bits.l1Words = m.bits.l1Words)
    (hsum : bits.Summary)
    (hbits : ∀ j, bits.mem j = true ↔
      j < m.numSlots ∧ (m.chain h' ps' j ≠ [] ∨ dirty' = some j)) :
    ((m.setLevel i lvl).setBits bits).Holds h' ps' dirty' where
  sound := ⟨hm.sound.tick, hm.sound.ordered, hm.sound.fits, hm.sound.numSlots⟩
  levels := fun j hj => by
    change (Function.update m.levels i lvl j).Holds ⟨m.side, j⟩ h' (m.chain h' ps' j)
    by_cases hji : j = i
    · subst hji
      rw [Function.update_self]
      exact hlvl
    · obtain ⟨hc, heq⟩ := hother j hj hji
      rw [Function.update_of_ne hji, hc]
      exact (hm.levels j hj).congr heq
  prices := fun j hj => by
    change (Function.update m.levels i lvl j).price = m.minPrice + j * m.tick
    rw [← hm.prices j hj, Function.update_apply]
    split
    · next heq => rw [heq, hprice]
    · rfl
  l0Words := hl0.trans hm.l0Words
  l1Words := by
    change bits.l1Words = (bits.l0Words + 63) / 64
    rw [hl1, hl0]
    exact hm.l1Words
  summary := hsum
  bits := hbits

/-- **Adding an order** puts it at the back of its slot. -/
theorem addOrder_holds (hm : m.Holds h ps none) (hnd : ps.Nodup) (ho : o ∉ ps)
    (hr : m.inRange (h o).price = true) (hside : (h o).side = m.side) :
    ∃ m' h', m.addOrder h o = some (m', h') ∧ m'.Holds h' (ps ++ [o]) none ∧
      PriceLevel.Touches (o :: m.chain h ps (m.slot (h o).price)) h h' ∧ SameGrid m m' ∧
      m'.best = if m.side.isBetter (h o).price m.best then (h o).price else m.best := by
  have hlt := slot_lt hm.sound hr
  have hidx := index_of_inRange hm.sound hr
  generalize hi : m.slot (h o).price = i at *
  have hlvl := hm.levels i hlt
  have hoc : o ∉ m.chain h ps i := fun hoc => ho (mem_chain.1 hoc).1
  have hto := PriceLevel.enqueue_touches (o := o) hlvl
  have hnew := PriceLevel.enqueue_holds hlvl (chain_nodup hnd) hoc
  rw [addOrder, hidx]
  dsimp only
  rw [if_pos hlt]
  have hprice : ((m.levels i).enqueue ⟨m.side, i⟩ h o).1.price = (m.levels i).price := rfl
  generalize he : (m.levels i).enqueue ⟨m.side, i⟩ h o = e at *
  obtain ⟨lvl, h'⟩ := e
  dsimp only at hto hnew hprice ⊢
  have hpo : (h' o).price = (h o).price := congrArg RestingOrder.price (hto.data o)
  -- The new order changes the chain of its own slot only.
  have hchain : ∀ j, m.chain h' (ps ++ [o]) j =
      if j = i then m.chain h ps i ++ [o] else m.chain h ps j := by
    intro j
    rw [chain_congr_data fun p _ => hto.data p, chain_append, hi]
    by_cases hji : j = i
    · subst hji
      rw [if_pos ⟨hside, rfl⟩, if_pos rfl]
    · rw [if_neg fun hc => hji hc.2.symm, if_neg hji]
  have hother : ∀ j < m.numSlots, j ≠ i → m.chain h' (ps ++ [o]) j = m.chain h ps j ∧
      ∀ p ∈ m.chain h ps j, h' p = h p := by
    intro j _ hji
    refine ⟨by rw [hchain, if_neg hji], fun p hp => hto.frame p ?_⟩
    rw [List.mem_cons, not_or]
    refine ⟨?_, not_mem_chain_of_ne hji hp⟩
    rintro rfl
    exact ho (mem_chain.1 hp).1
  have hlvl' : lvl.Holds ⟨m.side, i⟩ h' (m.chain h' (ps ++ [o]) i) := by
    rw [hchain, if_pos rfl]
    exact hnew
  have hbits : ∀ (bits : Bitset), (∀ j, bits.mem j = (decide (j = i) || m.bits.mem j)) → ∀ j,
      bits.mem j = true ↔ j < m.numSlots ∧ (m.chain h' (ps ++ [o]) j ≠ [] ∨ none = some j) := by
    intro bits hmem j
    rw [hmem, Bool.or_eq_true, decide_eq_true_eq, hm.bits j, hchain]
    by_cases hji : j = i
    · subst hji
      simp [hlt]
    · simp [hji]
  -- Setting the bit of a slot that was occupied already would change nothing.
  have hset : ((m.setLevel i lvl).setBits
      (if (m.levels i).empty then m.bits.set i else m.bits)).Holds h' (ps ++ [o]) none := by
    by_cases hempty : (m.levels i).empty = true
    · rw [if_pos hempty]
      exact hm.update _ hlvl' hprice hother rfl rfl (Bitset.set_summary hm.summary i)
        (hbits _ (Bitset.mem_set m.bits i))
    · rw [if_neg hempty]
      have hocc : m.bits.mem i = true :=
        (hm.bits i).2 ⟨hlt, Or.inl fun hc => hempty (hlvl.empty_iff.2 hc)⟩
      refine hm.update _ hlvl' hprice hother rfl rfl hm.summary (hbits _ fun j => ?_)
      by_cases hji : j = i
      · simp [hji, hocc]
      · simp [hji]
  have hcode : (if (m.levels i).empty then
      (m.setLevel i lvl).setBits ((m.setLevel i lvl).bits.set i) else m.setLevel i lvl) =
      (m.setLevel i lvl).setBits (if (m.levels i).empty then m.bits.set i else m.bits) := by
    split <;> rfl
  rw [hcode, hpo]
  generalize hg : (m.setLevel i lvl).setBits (if (m.levels i).empty then m.bits.set i else m.bits) =
    m₂ at hset
  have hgrid : SameGrid m m₂ := by
    subst hg
    exact ⟨rfl, rfl, rfl, rfl, rfl⟩
  have hbest : m₂.best = m.best := by
    subst hg
    rfl
  rw [hgrid.side, hbest]
  by_cases hb : m.side.isBetter (h o).price m.best = true
  · rw [if_pos hb, if_pos hb]
    exact ⟨_, h', rfl, hset.setBest _, hto, hgrid.setBest _, rfl⟩
  · rw [if_neg hb, if_neg hb]
    exact ⟨_, h', rfl, hset, hto, hgrid, hbest⟩

/-- **Removing an order** from its slot. The slot is dirty if that was its last order. -/
theorem unlinkAt_holds (hm : m.Holds h ps none) (hnd : ps.Nodup) (hi : i < m.numSlots)
    (ho : o ∈ m.chain h ps i) :
    (m.unlinkAt i h o).1.Holds (m.unlinkAt i h o).2 (ps.filter (· ≠ o))
        (if m.chain h (ps.filter (· ≠ o)) i = [] then some i else none) ∧
      PriceLevel.Touches (m.chain h ps i) h (m.unlinkAt i h o).2 ∧
      SameGrid m (m.unlinkAt i h o).1 ∧ (m.unlinkAt i h o).1.best = m.best := by
  obtain ⟨ys, zs, hc⟩ := List.append_of_mem ho
  have hnd' : (ys ++ o :: zs).Nodup := hc ▸ chain_nodup hnd
  have hlvl : (m.levels i).Holds ⟨m.side, i⟩ h (ys ++ o :: zs) := hc ▸ hm.levels i hi
  have hto : PriceLevel.Touches (m.chain h ps i) h ((m.levels i).unlink h o).2 := by
    rw [hc]
    exact PriceLevel.unlink_touches hlvl hnd'
  have hnew := PriceLevel.unlink_holds hlvl hnd'
  have hprice : ((m.levels i).unlink h o).1.price = (m.levels i).price := rfl
  rw [unlinkAt]
  generalize (m.levels i).unlink h o = u at *
  obtain ⟨lvl, h'⟩ := u
  dsimp only at hto hnew hprice ⊢
  refine ⟨?_, hto, ⟨rfl, rfl, rfl, rfl, rfl⟩, rfl⟩
  have hchain : ∀ j, m.chain h' (ps.filter (· ≠ o)) j =
      if j = i then ys ++ zs else m.chain h ps j := by
    intro j
    rw [chain_congr_data fun p _ => hto.data p]
    by_cases hji : j = i
    · subst hji
      rw [chain_remove, hc, remove_middle hnd', if_pos rfl]
    · rw [if_neg hji, chain_remove_of_not_mem (not_mem_chain_of_ne (Ne.symm hji) ho)]
  have hself : m.chain h (ps.filter (· ≠ o)) i = ys ++ zs := by
    rw [chain_remove, hc, remove_middle hnd']
  rw [hself]
  refine hm.update m.bits ?_ hprice (fun j _ hji => ⟨by rw [hchain, if_neg hji], ?_⟩) rfl
    rfl hm.summary fun j => ?_
  · rw [hchain, if_pos rfl]
    exact hnew
  · exact fun p hp => hto.frame p (not_mem_chain_of_ne hji hp)
  · rw [hm.bits j, hchain]
    by_cases hji : j = i
    · subst hji
      by_cases hnil : ys ++ zs = []
      · simp [hnil, hc]
      · simp [hnil, hc]
    · have hne : i ≠ j := Ne.symm hji
      by_cases hnil : ys ++ zs = [] <;> simp [hnil, hji, hne]

/-- **A fill** of an order of slot `i`. -/
theorem reduceAt_holds (hm : m.Holds h ps dirty) (hnd : ps.Nodup) (hi : i < m.numSlots)
    (ho : o ∈ m.chain h ps i) (qty : Int) :
    (m.reduceAt i qty).Holds (modify h o (·.fill qty)) ps dirty := by
  obtain ⟨ys, zs, hc⟩ := List.append_of_mem ho
  have hnd' : (ys ++ o :: zs).Nodup := hc ▸ chain_nodup hnd
  have hlvl : (m.levels i).Holds ⟨m.side, i⟩ h (ys ++ o :: zs) := hc ▸ hm.levels i hi
  have hchain : ∀ j, m.chain (modify h o (·.fill qty)) ps j = m.chain h ps j := fun j =>
    chain_congr (fun p _ => modify_keeps Order.side rfl p)
      fun p _ => modify_keeps Order.price rfl p
  refine hm.update m.bits ?_ rfl (fun j _ hji => ⟨hchain j, fun p hp => ?_⟩) rfl rfl
    hm.summary fun j => by rw [hm.bits j, hchain]
  · rw [hchain, hc]
    exact PriceLevel.reduce_holds hlvl hnd' qty
  · refine modify_of_ne _ _ ?_
    rintro rfl
    exact not_mem_chain_of_ne hji hp ho

theorem setBits_clear_holds (hm : m.Holds h ps dirty) (hd : dirty = none ∨ dirty = some i)
    (hempty : m.chain h ps i = []) : (m.setBits (m.bits.clear i)).Holds h ps none where
  sound := ⟨hm.sound.tick, hm.sound.ordered, hm.sound.fits, hm.sound.numSlots⟩
  levels := hm.levels
  prices := hm.prices
  l0Words := hm.l0Words
  l1Words := hm.l1Words
  summary := Bitset.clear_summary hm.summary i
  bits := fun j => by
    change (m.bits.clear i).mem j = true ↔ j < m.numSlots ∧ (m.chain h ps j ≠ [] ∨ none = some j)
    rw [Bitset.mem_clear]
    by_cases hji : j = i
    · subst hji
      simp [hempty]
    · have hmem := hm.bits j
      rcases hd with rfl | rfl
      · simp [hji, hmem]
      · simp [hji, hmem, Ne.symm hji]

/-- **An emptied level is reported.** The bits are exact again, whether or not the slot had been
reported before. -/
theorem onLevelEmptied_holds (hm : m.Holds h ps dirty) {p : Int} (hp : m.inRange p = true)
    (hd : dirty = none ∨ dirty = some (m.slot p)) (hempty : m.chain h ps (m.slot p) = []) :
    (m.onLevelEmptied p).Holds h ps none ∧ SameGrid m (m.onLevelEmptied p) := by
  have hclear := setBits_clear_holds hm hd hempty
  rw [onLevelEmptied, index_of_inRange hm.sound hp]
  split
  · exact ⟨hclear, ⟨rfl, rfl, rfl, rfl, rfl⟩⟩
  · exact ⟨hclear.setBest _, ⟨rfl, rfl, rfl, rfl, rfl⟩⟩

/-! ## The next occupied level -/

theorem bits_lt (hm : m.Holds h ps dirty) {j : Nat} (hj : m.bits.mem j = true) : j < m.numSlots :=
  ((hm.bits j).1 hj).1

/-- A slot other than the dirty one is occupied exactly when its bit is set. -/
theorem chain_eq_nil_of_bit (hm : m.Holds h ps dirty) {j : Nat} (hj : j < m.numSlots)
    (hbit : m.bits.mem j = false) : m.chain h ps j = [] := by
  by_contra hne
  rw [(hm.bits j).2 ⟨hj, Or.inl hne⟩] at hbit
  cases hbit

theorem chain_ne_nil_of_bit (hm : m.Holds h ps dirty) {j : Nat} (hd : dirty ≠ some j)
    (hbit : m.bits.mem j = true) : m.chain h ps j ≠ [] :=
  ((hm.bits j).1 hbit).2.resolve_right hd

/-- **The next occupied level**: the nearest occupied slot beyond that of `start`, or the
sentinel. -/
theorem nextOccupied_spec (hm : m.Holds h ps dirty) {start : Int}
    (hp : m.inRange start = true) (hd : dirty = none ∨ dirty = some (m.slot start)) :
    (m.nextOccupied start = emptySentinel m.side ∧
      ∀ j < m.numSlots, m.side.beyond (m.slot start) j → m.chain h ps j = []) ∨
    ∃ j < m.numSlots, m.nextOccupied start = m.minPrice + j * m.tick ∧
      m.side.beyond (m.slot start) j ∧ m.chain h ps j ≠ [] ∧
      ∀ k < m.numSlots, m.side.beyond (m.slot start) k → m.side.beyond k j →
        m.chain h ps k = [] := by
  have hlt := slot_lt hm.sound hp
  have hl0 := hm.l0Words
  have hclean : ∀ j, j ≠ m.slot start → dirty ≠ some j := by
    rintro j hj rfl
    rcases hd with hd | hd
    · cases hd
    · exact hj (Option.some.inj hd)
  rw [nextOccupied, index_of_inRange hm.sound hp]
  cases hside : m.side with
  | buy =>
    have hspec := Bitset.findBelow_spec hm.summary (show m.slot start / 64 < _ by omega)
    dsimp only
    cases hf : m.bits.findBelow (m.slot start) with
    | none =>
      rw [hf] at hspec
      exact Or.inl ⟨rfl, fun j hj hb => chain_eq_nil_of_bit hm hj (hspec j hb)⟩
    | some j =>
      rw [hf] at hspec
      obtain ⟨hj, hmem, hmax⟩ := hspec
      have hjn := bits_lt hm hmem
      exact Or.inr ⟨j, hjn, hm.prices j hjn, hj, chain_ne_nil_of_bit hm (hclean j (by omega)) hmem,
        fun k hk hb hkj => chain_eq_nil_of_bit hm hk (hmax k hkj hb)⟩
  | sell =>
    have hl1 := hm.l1Words
    have hspec := Bitset.findAbove_spec hm.summary (by omega)
      (show m.slot start / 64 < _ by omega)
    dsimp only
    cases hf : m.bits.findAbove (m.slot start) with
    | none =>
      rw [hf] at hspec
      exact Or.inl ⟨rfl, fun j hj hb => chain_eq_nil_of_bit hm hj (hspec j hb (by omega))⟩
    | some j =>
      rw [hf] at hspec
      obtain ⟨hj, -, hmem, hmin⟩ := hspec
      have hjn := bits_lt hm hmem
      exact Or.inr ⟨j, hjn, hm.prices j hjn, hj, chain_ne_nil_of_bit hm (hclean j (by omega)) hmem,
        fun k hk hb hkj => chain_eq_nil_of_bit hm hk (hmin k hb hkj)⟩

end Holds

end LevelMap

end Velox
