import Velox.Engine.QueueCalls

/-!
# The heap represents the queues

`Repr b ps dirty` is the representation invariant of the book. `ps` are the pointers to the
resting orders, in the order they joined; everything else is determined by them: the free list
is the rest of the pool, each level links the orders of its slot, the id map holds their ids. The
level `dirty`, if any, has just been emptied and its bit is still set.

`view b ps` is the state of the queues. Each primitive the calls are made of is shown to keep
`Repr` and to act on the view as the operation of the same name acts on `QueueBook`:
`repr_remove`, `repr_levelEmptied`, `repr_fill`, `repr_restResidual`.
-/

namespace Velox

/-- The map is the one of side `s` of a book with this configuration. -/
structure LevelMap.IsSide (m : LevelMap) (cfg : BookConfig) (s : Side) : Prop where
  side : m.side = s
  minPrice : m.minPrice = cfg.minPrice
  maxPrice : m.maxPrice = cfg.maxPrice
  tick : m.tick = cfg.tick

section IsSide

variable {m m' : LevelMap} {cfg : BookConfig} {s : Side}

theorem LevelMap.IsSide.slot (hi : m.IsSide cfg s) (p : Int) : m.slot p = cfg.slot p := by
  rw [LevelMap.slot, BookConfig.slot, hi.minPrice, hi.tick]

theorem LevelMap.IsSide.inRange (hi : m.IsSide cfg s) (p : Int) : m.inRange p = cfg.inRange p := by
  rw [LevelMap.inRange, BookConfig.inRange, hi.minPrice, hi.maxPrice]

theorem LevelMap.IsSide.numSlots (hi : m.IsSide cfg s) (hs : m.Sound) :
    m.numSlots = cfg.numSlots := by
  rw [hs.numSlots, BookConfig.numSlots, hi.minPrice, hi.maxPrice, hi.tick]

theorem LevelMap.IsSide.slotPrice (hi : m.IsSide cfg s) (i : Nat) :
    m.minPrice + i * m.tick = cfg.slotPrice i := by
  rw [BookConfig.slotPrice, hi.minPrice, hi.tick]

theorem LevelMap.IsSide.sameGrid (hi : m.IsSide cfg s) (hg : SameGrid m m') : m'.IsSide cfg s :=
  ⟨hg.side.trans hi.side, hg.minPrice.trans hi.minPrice, hg.maxPrice.trans hi.maxPrice,
    hg.tick.trans hi.tick⟩

end IsSide

namespace OrderBook

/-- The slot of side `s` whose bit is not yet cleared. -/
def dirtyIn (dirty : Option LevelPtr) (s : Side) : Option Nat :=
  dirty.bind fun d => if d.side = s then some d.index else none

@[simp] theorem dirtyIn_none (s : Side) : dirtyIn none s = none := rfl

@[simp] theorem dirtyIn_self (s : Side) (i : Nat) : dirtyIn (some ⟨s, i⟩) s = some i := by
  simp [dirtyIn]

theorem dirtyIn_of_ne {s t : Side} (i : Nat) (h : s ≠ t) : dirtyIn (some ⟨t, i⟩) s = none := by
  simp [dirtyIn, Ne.symm h]

/-- The representation invariant. -/
structure Repr (b : OrderBook) (ps : List Ptr) (dirty : Option LevelPtr) : Prop where
  live : b.pool.Live ps
  capacity : b.pool.capacity = b.cfg.maxOrders
  isSide : ∀ s, (b.sideOf s).IsSide b.cfg s
  side : ∀ s, (b.sideOf s).Holds b.heap ps (dirtyIn dirty s)
  idInv : b.idMap.Inv idHash
  idRoom : b.cfg.maxOrders < b.idMap.capacity
  idSize : b.idMap.size = ps.length
  idMem : ∀ id p, b.idMap.Mem id p ↔ p ∈ ps ∧ (b.heap p).id = id

/-- The queues the heap stands for. -/
def view (b : OrderBook) (ps : List Ptr) : QueueBook where
  cfg := b.cfg
  orders := ps.map fun p => (b.heap p).data
  bestBid := b.bids.best
  bestAsk := b.asks.best
  seq := b.seq
  nextTradeId := b.nextTradeId

section View

variable {b b' : OrderBook} {ps ps' : List Ptr} {dirty : Option LevelPtr} {s : Side} {p : Ptr}

theorem view_best (b : OrderBook) (ps : List Ptr) (s : Side) :
    (b.view ps).best s = (b.sideOf s).best := by
  cases s <;> rfl

theorem sideOf_setSide (b : OrderBook) (s t : Side) (m : LevelMap) :
    (b.setSide s m).sideOf t = if t = s then m else b.sideOf t := by
  cases s <;> cases t <;> rfl

@[simp] theorem setSide_cfg (m : LevelMap) : (b.setSide s m).cfg = b.cfg := by cases s <;> rfl
@[simp] theorem setSide_pool (m : LevelMap) : (b.setSide s m).pool = b.pool := by cases s <;> rfl
@[simp] theorem setSide_heap (m : LevelMap) : (b.setSide s m).heap = b.heap := by cases s <;> rfl
@[simp] theorem setSide_idMap (m : LevelMap) : (b.setSide s m).idMap = b.idMap := by
  cases s <;> rfl
@[simp] theorem setSide_seq (m : LevelMap) : (b.setSide s m).seq = b.seq := by cases s <;> rfl
@[simp] theorem setSide_nextTradeId (m : LevelMap) :
    (b.setSide s m).nextTradeId = b.nextTradeId := by cases s <;> rfl

@[simp] theorem setHeap_sideOf (h : Heap) : (b.setHeap h).sideOf s = b.sideOf s := by
  cases s <;> rfl
@[simp] theorem setHeap_heap (h : Heap) : (b.setHeap h).heap = h := rfl

theorem Repr.numSlots (hr : b.Repr ps dirty) (s : Side) : (b.sideOf s).numSlots = b.cfg.numSlots :=
  (hr.isSide s).numSlots (hr.side s).sound

/-- The queue of a slot is what the level links. -/
theorem Repr.queue_eq (hr : b.Repr ps dirty) (s : Side) (i : Nat) :
    (b.view ps).queue s i = ((b.sideOf s).chain b.heap ps i).map fun p => (b.heap p).data := by
  rw [QueueBook.queue, view, LevelMap.chain, List.filter_map]
  congr 1
  refine List.filter_congr fun p _ => ?_
  have hs := hr.isSide s
  rw [hs.side]
  simp only [Function.comp, hs.slot]
  rfl

theorem Repr.queue_eq_nil (hr : b.Repr ps dirty) {i : Nat} :
    (b.view ps).queue s i = [] ↔ (b.sideOf s).chain b.heap ps i = [] := by
  rw [hr.queue_eq, List.map_eq_nil_iff]

/-- Two resting orders with one id are one order. -/
theorem Repr.eq_of_id (hr : b.Repr ps dirty) {p p' : Ptr} (hp : p ∈ ps) (hp' : p' ∈ ps)
    (hid : (b.heap p).id = (b.heap p').id) : p = p' :=
  Probing.Table.mem_unique hr.idInv ((hr.idMem _ p).2 ⟨hp, hid⟩) ((hr.idMem _ p').2 ⟨hp', rfl⟩)

theorem Repr.size_lt (hr : b.Repr ps dirty) : b.idMap.size < b.idMap.capacity := by
  have hle := hr.live.length_le
  rw [hr.capacity] at hle
  rw [hr.idSize]
  exact hle.trans_lt hr.idRoom

/-- **The id map finds what rests.** -/
theorem Repr.find_eq_some (hr : b.Repr ps dirty) {id : Int} :
    b.idMap.find idHash id = some p ↔ p ∈ ps ∧ (b.heap p).id = id := by
  rw [Probing.Table.find_iff hr.idInv hr.size_lt, hr.idMem]

theorem Repr.find_eq_none (hr : b.Repr ps dirty) {id : Int} :
    b.idMap.find idHash id = none ↔ ∀ x ∈ (b.view ps).orders, x.id ≠ id := by
  rw [Probing.Table.find_eq_none hr.idInv hr.size_lt]
  constructor
  · intro hno x hx
    obtain ⟨p, hp, rfl⟩ := List.mem_map.1 hx
    exact fun hid => hno p ((hr.idMem _ _).2 ⟨hp, hid⟩)
  · intro hno p hmem
    obtain ⟨hp, hid⟩ := (hr.idMem _ _).1 hmem
    exact hno _ (List.mem_map.2 ⟨p, hp, rfl⟩) hid

theorem Repr.find_isSome (hr : b.Repr ps dirty) {id : Int} :
    (b.idMap.find idHash id).isSome =
      (b.view ps).orders.any fun x => decide (x.id = id) := by
  rw [Bool.eq_iff_iff, List.any_eq_true, Option.isSome_iff_ne_none, ne_eq, hr.find_eq_none]
  simp

end View

/-! ## The empty book -/

theorem nextPowerOfTwo_spec (n : Nat) : (∃ k, nextPowerOfTwo n = 2 ^ k) ∧ n ≤ nextPowerOfTwo n := by
  rw [nextPowerOfTwo]
  split
  · next h => exact ⟨⟨0, rfl⟩, h⟩
  · have hlt : n - 1 < 2 ^ (Nat.log2 (n - 1) + 1) := Nat.lt_log2_self
    exact ⟨⟨_, rfl⟩, by omega⟩

/-- What a fresh book looks like. -/
def emptyView (cfg : BookConfig) : QueueBook := ⟨cfg, [], kBidEmpty, kAskEmpty, 0, 0⟩

theorem emptyView_wf (cfg : BookConfig) : (emptyView cfg).Wf where
  inRange := by simp [emptyView]
  positive := by simp [emptyView]
  ids := by simp [emptyView]
  room := by simp [emptyView]
  seqs := by simp [emptyView, QueueBook.queue]
  seq_le := by simp [emptyView]
  best := fun s => by cases s <;> exact Or.inl rfl
  ahead := by simp [emptyView]

theorem repr_create {cfg : BookConfig} {b : OrderBook} (h : create cfg = some b) :
    b.Repr [] none ∧ b.view [] = emptyView cfg := by
  rw [create] at h
  split at h
  · next hfits =>
    replace hfits := hfits.1
    obtain ⟨⟨k, hk⟩, hle⟩ := nextPowerOfTwo_spec (cfg.maxOrders * 2)
    have hholds := fun s hp => LevelMap.holds_create s cfg.tick_pos cfg.ordered hfits hp
    cases h
    refine ⟨⟨ObjectPool.live_create _ _, rfl, fun s => ?_, fun s => ?_, ?_, ?_, rfl, ?_⟩, rfl⟩
    · cases s <;> exact ⟨rfl, rfl, rfl, rfl⟩
    · cases s <;> exact hholds _ _
    · change (Probing.Table.empty _).Inv idHash
      rw [hk]
      exact Probing.Table.inv_empty idHash k
    · change cfg.maxOrders < nextPowerOfTwo (cfg.maxOrders * 2)
      rcases Nat.eq_zero_or_pos cfg.maxOrders with h0 | hpos
      · rw [h0]
        decide
      · omega
    · intro id p
      simp [Probing.Table.Mem, Probing.Table.empty]
  · cases h

theorem maxOrders_le_of_create {cfg : BookConfig} {b : OrderBook} (h : create cfg = some b) :
    cfg.maxOrders ≤ maxPool := by
  rw [create] at h
  split at h
  · next hfits => exact hfits.2
  · cases h

section Primitives

variable {b b' : OrderBook} {ps ps' : List Ptr} {dirty : Option LevelPtr} {s : Side} {p : Ptr}

/-- The view after a change that keeps the best price. -/
theorem view_setSide_setHeap {m : LevelMap} (ps ps' : List Ptr) (h : Heap)
    (hbest : m.best = (b.sideOf s).best) : ((b.setSide s m).setHeap h).view ps' =
      { b.view ps with orders := ps'.map fun p => (h p).data } := by
  cases s
  · change QueueBook.mk _ _ m.best _ _ _ = _
    rw [hbest]
    rfl
  · change QueueBook.mk _ _ _ m.best _ _ = _
    rw [hbest]
    rfl

/-- Where a resting order is linked. -/
theorem Repr.mem_chain (hr : b.Repr ps dirty) (hp : p ∈ ps) :
    p ∈ (b.sideOf (b.heap p).side).chain b.heap ps (b.cfg.slot (b.heap p).price) := by
  rw [LevelMap.mem_chain]
  exact ⟨hp, (hr.isSide _).side.symm, (hr.isSide _).slot _⟩

/-- The other side is not touched by a change confined to one level. -/
theorem Repr.other_side (hr : b.Repr ps dirty) (extra : List Ptr) {t : Side} (hts : t ≠ s)
    {h' : Heap} {i : Nat} (hto : PriceLevel.Touches (extra ++ (b.sideOf s).chain b.heap ps i) b.heap h')
    (hextra : ∀ p ∈ extra, p ∉ ps) (hc : ∀ j, (b.sideOf t).chain b.heap ps' j =
      (b.sideOf t).chain b.heap ps j) :
    (b.sideOf t).Holds h' ps' (dirtyIn dirty t) := by
  refine (hr.side t).congr (fun j => ?_) fun j _ q hq => hto.frame q ?_
  · rw [LevelMap.chain_congr_data fun q _ => hto.data q]
    exact hc j
  · rw [LevelMap.mem_chain] at hq
    rw [List.mem_append, not_or, LevelMap.mem_chain]
    refine ⟨fun hqe => hextra q hqe hq.1, fun hqs => hts ?_⟩
    rw [← (hr.isSide t).side, ← (hr.isSide s).side, ← hq.2.1, hqs.2.1]

/-- The pointers that stay, seen through the ids. -/
theorem Repr.filter_id (hr : b.Repr ps dirty) (hp : p ∈ ps) :
    ps.filter (fun p' => decide ((b.heap p').id ≠ (b.heap p).id)) = ps.filter (· ≠ p) := by
  refine List.filter_congr fun p' hp' => decide_eq_decide.2 (not_congr ⟨fun hid => ?_, fun h => ?_⟩)
  · exact hr.eq_of_id hp' hp hid
  · rw [h]

/-- **An order leaves the book**: unlinked, erased from the id map, its slot released. -/
theorem repr_remove (hr : b.Repr ps none) (hp : p ∈ ps)
    (hrange : b.cfg.inRange (b.heap p).price = true) :
    ∃ b₁, (b.unlinkOrder (b.heap p).side (b.cfg.slot (b.heap p).price) p).eraseId (b.heap p).id =
        some b₁ ∧
      (b₁.release p).Repr (ps.filter (· ≠ p))
        (if ((b.view ps).remove (b.heap p).id).queue (b.heap p).side
            (b.cfg.slot (b.heap p).price) = []
          then some ⟨(b.heap p).side, b.cfg.slot (b.heap p).price⟩ else none) ∧
      (b₁.release p).view (ps.filter (· ≠ p)) = (b.view ps).remove (b.heap p).id := by
  have hchain := hr.mem_chain hp
  generalize hs : (b.heap p).side = s at *
  generalize hi : b.cfg.slot (b.heap p).price = i at *
  have hlt : i < (b.sideOf s).numSlots := by
    rw [hr.numSlots, ← hi]
    exact BookConfig.slot_lt hrange
  obtain ⟨hholds, hto, hgrid, hbest⟩ := LevelMap.unlinkAt_holds (hr.side s) hr.live.nodup hlt hchain
  obtain ⟨t, herase, htinv, htcap, htsize, htmem⟩ :=
    Probing.Table.erase_present hr.idInv hr.size_lt ((hr.idMem _ p).2 ⟨hp, rfl⟩)
  have hlive := ObjectPool.release_live hr.live hp
  have hlen : (ps.filter (· ≠ p)).length = ps.length - 1 := by
    rw [← hr.live.inUse]
    exact hlive.inUse.symm
  generalize hu : (b.sideOf s).unlinkAt i b.heap p = u at *
  obtain ⟨m, h'⟩ := u
  dsimp only at hholds hto hgrid hbest
  have hview : (ps.filter (· ≠ p)).map (fun p => (h' p).data) =
      ((b.view ps).remove (b.heap p).id).orders := by
    rw [QueueBook.remove, view, List.filter_map, List.map_congr_left fun p _ => hto.data p]
    congr 1
    exact (hr.filter_id hp).symm
  -- The queue of the slot empties exactly when its chain does.
  have hqueue : ((b.view ps).remove (b.heap p).id).queue s i = [] ↔
      (b.sideOf s).chain b.heap (ps.filter (· ≠ p)) i = [] := by
    rw [QueueBook.remove_queue, hr.queue_eq, LevelMap.chain_remove, List.filter_map,
      List.map_eq_nil_iff]
    refine iff_of_eq (congrArg (· = []) (List.filter_congr fun p' hp' => ?_))
    have hp'' := (LevelMap.mem_chain.1 hp').1
    refine decide_eq_decide.2 (not_congr ⟨fun hid => hr.eq_of_id hp'' hp hid, fun heq => ?_⟩)
    subst heq
    rfl
  refine ⟨{ (b.setSide s m).setHeap h' with idMap := t }, ?_, ⟨?_, ?_, ?_, ?_, ?_, ?_, ?_, ?_⟩, ?_⟩
  · rw [unlinkOrder, hu]
    simp [eraseId, setHeap, herase]
  · refine hlive.congr ?_ ?_ ?_ ?_ <;> cases s <;> rfl
  · cases s <;> exact hr.capacity
  · intro r
    change ((b.setSide s m).sideOf r).IsSide (b.setSide s m).cfg r
    rw [sideOf_setSide, setSide_cfg]
    split
    · next hrs => rw [hrs]; exact (hr.isSide s).sameGrid hgrid
    · exact hr.isSide r
  · intro r
    change ((b.setSide s m).sideOf r).Holds h' (ps.filter (· ≠ p)) _
    rw [sideOf_setSide]
    split
    · next hrs =>
      subst hrs
      convert hholds using 1
      by_cases hnil : (b.sideOf r).chain b.heap (ps.filter (· ≠ p)) i = []
      · rw [if_pos (hqueue.2 hnil), if_pos hnil, dirtyIn_self]
      · rw [if_neg (mt hqueue.1 hnil), if_neg hnil, dirtyIn_none]
    · next hrs =>
      convert hr.other_side [] hrs hto (by simp) (fun j => ?_) using 1
      · split
        · rw [dirtyIn_of_ne i hrs, dirtyIn_none]
        · rfl
      · refine LevelMap.chain_remove_of_not_mem fun hpj => hrs ?_
        rw [← (hr.isSide r).side, ← (LevelMap.mem_chain.1 hpj).2.1, hs]
  · exact htinv
  · change (b.setSide s m).cfg.maxOrders < t.capacity
    rw [setSide_cfg, htcap]
    exact hr.idRoom
  · change t.size = _
    rw [htsize, hr.idSize, hlen]
  · intro id' p'
    change t.Mem id' p' ↔ p' ∈ ps.filter (· ≠ p) ∧ (h' p').id = id'
    rw [htmem, hr.idMem, List.mem_filter, decide_eq_true_eq,
      show (h' p').id = (b.heap p').id from congrArg RestingOrder.id (hto.data p')]
    constructor
    · rintro ⟨⟨hp', hid⟩, hne⟩
      exact ⟨⟨hp', fun heq => hne (by rw [← hid, heq])⟩, hid⟩
    · rintro ⟨⟨hp', hne⟩, hid⟩
      exact ⟨⟨hp', hid⟩, fun heq => hne (hr.eq_of_id hp' hp (hid.trans heq))⟩
  · change ((b.setSide s m).setHeap h').view (ps.filter (· ≠ p)) = _
    rw [view_setSide_setHeap ps _ h' hbest, hview]
    rfl

/-- A change of one side only, with the heap as it is. -/
theorem Repr.setSide (hr : b.Repr ps dirty) {m : LevelMap} {dirty' : Option LevelPtr}
    (hgrid : LevelMap.SameGrid (b.sideOf s) m) (hm : m.Holds b.heap ps (dirtyIn dirty' s))
    (hd : ∀ t, t ≠ s → dirtyIn dirty' t = dirtyIn dirty t) : (b.setSide s m).Repr ps dirty' where
  live := by rw [setSide_pool]; exact hr.live
  capacity := by rw [setSide_pool, setSide_cfg]; exact hr.capacity
  isSide := fun t => by
    rw [sideOf_setSide, setSide_cfg]
    split
    · next hts => rw [hts]; exact (hr.isSide s).sameGrid hgrid
    · exact hr.isSide t
  side := fun t => by
    rw [sideOf_setSide, setSide_heap]
    split
    · next hts => rw [hts]; exact hm
    · next hts => rw [hd t hts]; exact hr.side t
  idInv := by rw [setSide_idMap]; exact hr.idInv
  idRoom := by rw [setSide_idMap, setSide_cfg]; exact hr.idRoom
  idSize := by rw [setSide_idMap]; exact hr.idSize
  idMem := by rw [setSide_idMap, setSide_heap]; exact hr.idMem

theorem view_setSide (b : OrderBook) (ps : List Ptr) (s : Side) (m : LevelMap) :
    (b.setSide s m).view ps = (b.view ps).setBest s m.best := by
  cases s <;> rfl

/-- The bitset search finds the next occupied queue. -/
theorem Repr.nextOccupied_eq (hr : b.Repr ps dirty) (hw : (b.view ps).Wf) {m : LevelMap}
    {price : Int} {d : Option Nat} (hgrid : LevelMap.SameGrid (b.sideOf s) m)
    (hm : m.Holds b.heap ps d) (hd : d = none ∨ d = some (b.cfg.slot price))
    (hp : b.cfg.inRange price = true) :
    m.nextOccupied price = (b.view ps).nextOccupied s price := by
  have hs := (hr.isSide s).sameGrid hgrid
  have hocc : ∀ j, (b.view ps).queue s j ≠ [] ↔ m.chain b.heap ps j ≠ [] := by
    intro j
    have hchain : m.chain b.heap ps j = (b.sideOf s).chain b.heap ps j := by
      rw [LevelMap.chain, LevelMap.chain, hgrid.side]
      exact List.filter_congr fun p _ => by rw [hgrid.slot]
    rw [hchain]
    exact not_congr hr.queue_eq_nil
  have hlt : ∀ j, (b.view ps).queue s j ≠ [] → j < m.numSlots := by
    intro j hj
    obtain ⟨x, hx, -, rfl⟩ := QueueBook.queue_ne_nil_iff.1 hj
    rw [hs.numSlots hm.sound]
    exact BookConfig.slot_lt (hw.inRange x hx)
  have hspec := LevelMap.nextOccupied_spec hm (by rw [hs.inRange]; exact hp)
    (by rw [hs.slot]; exact hd)
  rw [hs.side, hs.slot] at hspec
  refine IsNext.unique ?_ ((b.view ps).nextOccupied_isNext s price)
  rcases hspec with ⟨hr', hno⟩ | ⟨j, hj, hr', hb, hne, hmin⟩
  · exact Or.inl ⟨hr', fun j hj hq => (hocc j).1 hq (hno j (hlt j hq) hj)⟩
  · refine Or.inr ⟨j, ?_, hb, (hocc j).2 hne, fun k hk hkj hq => ?_⟩
    · rw [hr']
      exact hs.slotPrice j
    · exact (hocc k).1 hq (hmin k (hlt k hq) hk hkj)

/-- **An emptied level is reported.** -/
theorem repr_levelEmptied (hr : b.Repr ps dirty) (hw : (b.view ps).Wf) {price : Int}
    (hd : dirty = none ∨ dirty = some ⟨s, b.cfg.slot price⟩) (hp : b.cfg.inRange price = true)
    (hempty : (b.view ps).queue s (b.cfg.slot price) = []) :
    (b.levelEmptied s price).Repr ps none ∧
      (b.levelEmptied s price).view ps = (b.view ps).levelEmptied s price := by
  have hs := hr.isSide s
  have hdirty : dirtyIn dirty s = none ∨ dirtyIn dirty s = some (b.cfg.slot price) := by
    rcases hd with rfl | rfl
    · exact Or.inl rfl
    · exact Or.inr (dirtyIn_self ..)
  have hp' : (b.sideOf s).inRange price = true := by rw [hs.inRange]; exact hp
  have hempty' : (b.sideOf s).chain b.heap ps ((b.sideOf s).slot price) = [] := by
    rw [hs.slot]
    exact hr.queue_eq_nil.1 hempty
  have hdirty' := hdirty
  rw [← hs.slot] at hdirty'
  obtain ⟨hholds, hgrid⟩ := LevelMap.onLevelEmptied_holds (hr.side s) hp' hdirty' hempty'
  have hclear := LevelMap.setBits_clear_holds (hr.side s) hdirty' hempty'
  refine ⟨hr.setSide hgrid hholds fun t ht => ?_, ?_⟩
  · rcases hd with rfl | rfl
    · rfl
    · rw [dirtyIn_of_ne _ ht, dirtyIn_none]
  · rw [levelEmptied, view_setSide, QueueBook.levelEmptied, view_best, LevelMap.onLevelEmptied,
      LevelMap.index_of_inRange (hr.side s).sound hp']
    have hbest : ((b.sideOf s).setBits ((b.sideOf s).bits.clear ((b.sideOf s).slot price))).best =
        (b.sideOf s).best := rfl
    rw [hbest]
    by_cases heq : price = (b.sideOf s).best
    · rw [if_pos heq, if_neg (not_not.2 heq)]
      congr 1
      exact hr.nextOccupied_eq hw ⟨rfl, rfl, rfl, rfl, rfl⟩ hclear (Or.inl rfl) hp
    · rw [if_neg heq, if_pos heq, hbest, ← view_best b ps s]
      cases s <;> rfl

theorem levelIsEmpty_iff (hr : b.Repr ps dirty) {i : Nat} (hi : i < b.cfg.numSlots) :
    b.levelIsEmpty s i = true ↔ (b.view ps).queue s i = [] := by
  rw [levelIsEmpty, ((hr.side s).levels i (by rw [hr.numSlots]; exact hi)).empty_iff,
    hr.queue_eq_nil]

/-- The head of a level is the head of its queue. -/
theorem Repr.head_eq (hr : b.Repr ps dirty) {i : Nat} (hi : i < b.cfg.numSlots) :
    ((b.sideOf s).levels i).head = ((b.sideOf s).chain b.heap ps i).head? :=
  ((hr.side s).levels i (by rw [hr.numSlots]; exact hi)).head_eq

/-- The level of a price in range. -/
theorem Repr.levelAt_eq (hr : b.Repr ps dirty) (s : Side) {price : Int}
    (hp : b.cfg.inRange price = true) : (b.sideOf s).levelAt price = some (b.cfg.slot price) := by
  have hin : (b.sideOf s).inRange price = true := by
    rw [(hr.isSide s).inRange]
    exact hp
  rw [LevelMap.levelAt, if_pos hin, LevelMap.index_of_inRange (hr.side s).sound hin,
    (hr.isSide s).slot]

/-- **A fill** of a resting order. -/
theorem repr_fill (hr : b.Repr ps none) (hp : p ∈ ps)
    (hrange : b.cfg.inRange (b.heap p).price = true) (qty : Int) :
    (b.fillOrder (b.heap p).side (b.cfg.slot (b.heap p).price) p qty).Repr ps none ∧
      (b.fillOrder (b.heap p).side (b.cfg.slot (b.heap p).price) p qty).view ps =
        (b.view ps).reduce (b.heap p).id qty := by
  have hchain := hr.mem_chain hp
  generalize hs : (b.heap p).side = s at *
  generalize hi : b.cfg.slot (b.heap p).price = i at *
  have hlt : i < (b.sideOf s).numSlots := by
    rw [hr.numSlots, ← hi]
    exact BookConfig.slot_lt hrange
  have hholds := LevelMap.reduceAt_holds (hr.side s) hr.live.nodup hlt hchain qty
  have hid : ∀ q, (modify b.heap p (·.fill qty) q).id = (b.heap q).id :=
    modify_keeps Order.id rfl
  have hside : ∀ q, (modify b.heap p (·.fill qty) q).side = (b.heap q).side :=
    modify_keeps Order.side rfl
  have hprice : ∀ q, (modify b.heap p (·.fill qty) q).price = (b.heap q).price :=
    modify_keeps Order.price rfl
  rw [fillOrder]
  refine ⟨⟨?_, ?_, ?_, ?_, ?_, ?_, ?_, ?_⟩, ?_⟩
  · refine hr.live.congr ?_ ?_ ?_ ?_ <;> cases s <;> rfl
  · cases s <;> exact hr.capacity
  · intro t
    change ((b.setSide s _).sideOf t).IsSide (b.setSide s _).cfg t
    rw [sideOf_setSide, setSide_cfg]
    split
    · next hts => rw [hts]; exact (hr.isSide s).sameGrid ⟨rfl, rfl, rfl, rfl, rfl⟩
    · exact hr.isSide t
  · intro t
    change ((b.setSide s _).sideOf t).Holds (modify b.heap p (·.fill qty)) ps none
    rw [sideOf_setSide]
    split
    · exact hholds
    · next hts =>
      refine (hr.side t).congr (fun j => ?_) fun j _ q hq => modify_of_ne _ _ ?_
      · exact LevelMap.chain_congr (fun q _ => hside q) fun q _ => hprice q
      · rintro rfl
        rw [LevelMap.mem_chain, (hr.isSide t).side, hs] at hq
        exact hts hq.2.1.symm
  · cases s <;> exact hr.idInv
  · cases s <;> exact hr.idRoom
  · cases s <;> exact hr.idSize
  · intro id q
    change (b.setSide s _).idMap.Mem id q ↔ q ∈ ps ∧ (modify b.heap p (·.fill qty) q).id = id
    rw [setSide_idMap, hid]
    exact hr.idMem id q
  · have horders : (ps.map fun q => (modify b.heap p (·.fill qty) q).data) =
        ((b.view ps).reduce (b.heap p).id qty).orders := by
      rw [QueueBook.reduce, view, List.map_map]
      refine List.map_congr_left fun q hq => ?_
      by_cases hqp : q = p
      · subst hqp
        simp [Order.data, Order.fill]
      · have hne : (b.heap q).id ≠ (b.heap p).id := fun heq => hqp (hr.eq_of_id hq hp heq)
        have hne' : (b.heap q).data.id ≠ (b.heap p).id := hne
        rw [modify_of_ne _ _ hqp]
        simp [hne']
    have hbest : ((b.sideOf s).reduceAt i qty).best = (b.sideOf s).best := rfl
    rw [view_setSide_setHeap ps ps _ hbest, horders]
    rfl

/-- **An order joins the book**: a fresh node is linked at its price and indexed. The pool has
been asked for a slot `p` already. -/
theorem repr_link (hr : b.Repr ps none) {pool : ObjectPool Order} {x : Order} (hp : p ∉ ps)
    (hlive : pool.Live (ps ++ [p])) (hcap : pool.capacity = b.pool.capacity)
    (hval : pool.value = b.heap) (hrange : b.cfg.inRange x.price = true)
    (hid : ∀ y ∈ (b.view ps).orders, y.id ≠ x.id) :
    ∃ m h' t, (b.sideOf x.side).addOrder (Function.update pool.value p x) p = some (m, h') ∧
      b.idMap.insert idHash x.id p = (true, t) ∧
      ({ ({ b with pool := pool }.setSide x.side m).setHeap h' with idMap := t } : OrderBook).Repr
        (ps ++ [p]) none ∧
      ({ ({ b with pool := pool }.setSide x.side m).setHeap h' with idMap := t } : OrderBook).view
        (ps ++ [p]) = (b.view ps).add x.data := by
  have hs := hr.isSide x.side
  have hself : Function.update b.heap p x p = x := Function.update_self ..
  have hold : ∀ q ∈ ps, Function.update b.heap p x q = b.heap q := by
    intro q hq
    refine Function.update_of_ne ?_ ..
    rintro rfl
    exact hp hq
  -- Writing the fresh node changes nothing for the orders at rest.
  have hside : ∀ t, (b.sideOf t).Holds (Function.update b.heap p x) ps none := by
    intro t
    refine (hr.side t).congr (fun j => ?_) fun j _ q hq => hold q (LevelMap.mem_chain.1 hq).1
    exact LevelMap.chain_congr (fun q hq => by rw [hold q hq]) fun q hq => by rw [hold q hq]
  obtain ⟨m, h', hadd, hholds, hto, hgrid, hbest⟩ :=
    LevelMap.addOrder_holds (hside x.side) hr.live.nodup hp
      (by rw [hself, hs.inRange]; exact hrange) (by rw [hself, hs.side])
  have habs : ∀ v, ¬ b.idMap.Mem x.id v := by
    intro v hv
    obtain ⟨hv, hvid⟩ := (hr.idMem _ _).1 hv
    exact hid _ (List.mem_map.2 ⟨v, hv, rfl⟩) hvid
  obtain ⟨t, hins, htinv, htcap, htsize, htmem⟩ :=
    Probing.Table.insert_fresh hr.idInv hr.size_lt p habs
  have hdata : ∀ q ∈ ps, (h' q).data = (b.heap q).data := fun q hq => by
    rw [hto.data, hold q hq]
  have hdatap : (h' p).data = x.data := by rw [hto.data, hself]
  rw [hself, hs.side] at hbest
  rw [hval]
  refine ⟨m, h', t, hadd, hins, ⟨?_, ?_, ?_, ?_, htinv, ?_, ?_, ?_⟩, ?_⟩
  · refine hlive.congr ?_ ?_ ?_ ?_ <;> cases x.side <;> rfl
  · have hc : pool.capacity = b.cfg.maxOrders := hcap.trans hr.capacity
    cases x.side <;> exact hc
  · intro r
    change (({ b with pool := pool } : OrderBook).setSide x.side m |>.sideOf r).IsSide
      (({ b with pool := pool } : OrderBook).setSide x.side m).cfg r
    rw [sideOf_setSide, setSide_cfg]
    split
    · next hrs => rw [hrs]; exact hs.sameGrid hgrid
    · exact hr.isSide r
  · intro r
    change (({ b with pool := pool } : OrderBook).setSide x.side m |>.sideOf r).Holds h' (ps ++ [p])
      none
    rw [sideOf_setSide]
    split
    · exact hholds
    · next hrs =>
      have hrside := (hr.isSide r).side
      refine (hr.side r).congr (fun j => ?_) fun j _ q hq => ?_
      · have hpside : ¬ ((h' p).side = (b.sideOf r).side ∧ (b.sideOf r).slot (h' p).price = j) := by
          intro hc
          rw [hrside] at hc
          exact hrs (hc.1.symm.trans (congrArg RestingOrder.side hdatap))
        rw [LevelMap.chain_append, if_neg hpside]
        exact LevelMap.chain_congr_data hdata
      · rw [LevelMap.mem_chain, hrside] at hq
        rw [← hold q hq.1]
        refine hto.frame q ?_
        rw [List.mem_cons, not_or, LevelMap.mem_chain, hs.side, hold q hq.1]
        refine ⟨?_, fun hc => hrs (hq.2.1.symm.trans hc.2.1)⟩
        rintro rfl
        exact hp hq.1
  · change (({ b with pool := pool } : OrderBook).setSide x.side m).cfg.maxOrders < t.capacity
    rw [setSide_cfg, htcap]
    exact hr.idRoom
  · change t.size = _
    rw [htsize, hr.idSize, List.length_append, List.length_singleton]
  · intro id' q
    change t.Mem id' q ↔ q ∈ ps ++ [p] ∧ (h' q).id = id'
    rw [htmem, hr.idMem, List.mem_append, List.mem_singleton]
    have hidp : (h' p).id = x.id := congrArg RestingOrder.id hdatap
    have hidq : ∀ q ∈ ps, (h' q).id = (b.heap q).id := fun q hq =>
      congrArg RestingOrder.id (hdata q hq)
    constructor
    · rintro (⟨rfl, rfl⟩ | ⟨hq, hqid⟩)
      · exact ⟨Or.inr rfl, hidp⟩
      · exact ⟨Or.inl hq, (hidq q hq).trans hqid⟩
    · rintro ⟨hq | rfl, hqid⟩
      · exact Or.inr ⟨hq, (hidq q hq).symm.trans hqid⟩
      · exact Or.inl ⟨hqid.symm.trans hidp, rfl⟩
  · have horders : ((ps ++ [p]).map fun q => (h' q).data) = (b.view ps).orders ++ [x.data] := by
      rw [List.map_append, List.map_singleton, hdatap, List.map_congr_left hdata]
      rfl
    have hview : ({ ({ b with pool := pool }.setSide x.side m).setHeap h' with
        idMap := t } : OrderBook).view (ps ++ [p]) =
        ({ b.view ps with orders := (b.view ps).orders ++ [x.data] } : QueueBook).setBest x.side
          m.best := by
      rw [← horders]
      cases x.side <;> rfl
    have hadd' : (b.view ps).add x.data =
        ({ b.view ps with orders := (b.view ps).orders ++ [x.data] } : QueueBook).setBest x.side
          (if x.side.isBetter x.price ((b.view ps).best x.side) = true then x.price
            else (b.view ps).best x.side) := by
      rw [QueueBook.add]
      change (if x.side.isBetter x.price ((b.view ps).best x.side) = true then _ else _) = _
      split
      · rfl
      · cases x.side <;> rfl
    rw [hview, hadd', hbest, view_best]

/-- **A residual comes to rest**, if the pool has room for it. -/
theorem repr_restResidual (hr : b.Repr ps none) {o : NewOrder} (seq rem : Int)
    (hrange : b.cfg.inRange o.price = true) (hid : ∀ y ∈ (b.view ps).orders, y.id ≠ o.id)
    (hroom : (b.view ps).orders.length < b.cfg.maxOrders) :
    ∃ b' p, b.restResidual o seq rem = some (true, b') ∧ b'.Repr (ps ++ [p]) none ∧
      b'.view (ps ++ [p]) = (b.view ps).add (o.resting seq rem) := by
  obtain ⟨p, pool, hacq, hp, hlive, hval, hcap⟩ := ObjectPool.acquire_available hr.live
    (by rw [hr.capacity]; simpa [view] using hroom)
  let node : Order := ⟨rem, o.participant, o.price, o.id, none, none, o.side, o.quantity, seq, none⟩
  obtain ⟨m, h', t, hadd, hins, hrepr, hview⟩ :=
    repr_link (x := node) hr hp hlive hcap hval hrange hid
  refine ⟨_, p, ?_, hrepr, hview⟩
  rw [restResidual, hacq]
  have hside : ({ b with pool := pool } : OrderBook).sideOf o.side = b.sideOf o.side := by
    cases o.side <;> rfl
  change ((({ b with pool := pool } : OrderBook).sideOf o.side).addOrder
    (Function.update pool.value p node) p).bind _ = _
  rw [hside, show (b.sideOf o.side).addOrder _ p = some (m, h') from hadd]
  have hidMap : ((({ b with pool := pool } : OrderBook).setSide o.side m).setHeap h').idMap =
      b.idMap := setSide_idMap m
  simp only [Option.bind_some, hidMap]
  rw [show b.idMap.insert idHash o.id p = (true, t) from hins]

/-- An exhausted pool leaves the book as it is. -/
theorem restResidual_exhausted (hr : b.Repr ps none) (o : NewOrder) (seq rem : Int)
    (hroom : b.cfg.maxOrders ≤ (b.view ps).orders.length) :
    b.restResidual o seq rem = some (false, b) := by
  have hfull : b.pool.capacity ≤ ps.length := by
    rw [hr.capacity]
    simpa [view] using hroom
  rw [restResidual, ObjectPool.acquire_exhausted hr.live hfull]

end Primitives

end OrderBook

end Velox
