import Velox.Book.LevelMap
import Velox.Common.ObjectPool
import Velox.Lib.Probing

/-!
# The order book

Following `engine/order_book.hpp` and `engine/order_book.cpp`, with the trade buffer of
`engine/trade.hpp` and the id map of `book/order_id_map.hpp`.

The book is passed explicitly. A function that the source may leave undefined returns `none`
there: a null level is dereferenced, an array is indexed out of bounds, or a loop does not end
(the loops carry a bound on their iterations that no call reaches). That this never happens is a
theorem, not an assumption.

Signed overflow is modelled as wrap-around where the source only adds up quantities. In the
constructor it is taken as undefined: with a price span that does not fit, the index of a level
means nothing. The constructor also throws when the pool is larger than an allocation can be.
-/

namespace Velox

inductive OrderType where
  | limit
  | market
  | ioc
  | fok
  deriving DecidableEq, Repr

inductive StpPolicy where
  | cancelAggressor
  | cancelPassive
  | cancelBoth
  deriving DecidableEq, Repr

/-- The configuration of a book, with 64-bit prices. -/
structure BookConfig where
  minPrice : Int
  maxPrice : Int
  tick : Int
  maxOrders : Nat
  stp : StpPolicy
  tick_pos : 0 < tick
  ordered : minPrice ≤ maxPrice
  minPrice_fits : kBidEmpty ≤ minPrice
  maxPrice_fits : maxPrice ≤ kAskEmpty

/-- The book of every instrument of `apps/velox_gateway.cpp`. -/
def gatewayConfig : BookConfig where
  minPrice := 1 * 10000
  maxPrice := 10000 * 10000
  tick := 10000 / 100
  maxOrders := 2 ^ 20
  stp := .cancelAggressor
  tick_pos := by decide
  ordered := by decide
  minPrice_fits := by decide
  maxPrice_fits := by decide

structure NewOrder where
  id : Int
  price : Int
  quantity : Int
  participant : Int
  side : Side
  type : OrderType
  deriving DecidableEq, Repr

inductive SubmitStatus where
  | ok
  | rejectedPriceOutOfRange
  | rejectedInvalidQuantity
  | rejectedDuplicateId
  | rejectedPoolExhausted
  | rejectedUnknownOrder
  | rejectedMarketIntoEmptyBook
  | rejectedFokUnfillable
  | cancelledBySelfTradePrevention
  | cancelledResidual
  deriving DecidableEq, Repr

structure OrderResult where
  status : SubmitStatus := .ok
  filled : Int := 0
  remaining : Int := 0
  rested : Bool := false
  price : Int := 0
  quantity : Int := 0
  participant : Int := 0
  seq : Int := 0
  side : Side := .buy
  deriving DecidableEq, Repr

structure Trade where
  id : Int
  aggressorId : Int
  passiveId : Int
  price : Int
  quantity : Int
  aggressorSide : Side
  deriving DecidableEq, Repr

/-! ## The caller's buffers -/

/-- A caller-provided buffer. Pushing beyond the capacity only counts. -/
structure Buffer (α : Type) where
  capacity : Nat
  data : List α
  count : Nat
  stored : data.length = min count capacity
  deriving DecidableEq

namespace Buffer

variable {α : Type}

def empty (capacity : Nat) : Buffer α := ⟨capacity, [], 0, (Nat.zero_min _).symm⟩

def push (b : Buffer α) (x : α) : Buffer α where
  capacity := b.capacity
  data := if b.count < b.capacity then b.data ++ [x] else b.data
  count := b.count + 1
  stored := by
    have := b.stored
    split
    · rw [List.length_append, List.length_singleton]
      omega
    · omega

/-- Pushing a list of values, first to last. -/
def pushAll (b : Buffer α) (xs : List α) : Buffer α := xs.foldl push b

@[simp] theorem pushAll_nil (b : Buffer α) : b.pushAll [] = b := rfl

@[simp] theorem pushAll_cons (b : Buffer α) (x : α) (xs : List α) :
    b.pushAll (x :: xs) = (b.push x).pushAll xs := rfl

theorem push_data (b : Buffer α) (x : α) :
    (b.push x).data = if b.count < b.capacity then b.data ++ [x] else b.data := rfl

/-- A full buffer stays as it is. -/
theorem pushAll_data_of_full (b : Buffer α) (xs : List α) (h : b.capacity ≤ b.count) :
    (b.pushAll xs).data = b.data := by
  induction xs generalizing b with
  | nil => rfl
  | cons x xs ih =>
    rw [pushAll_cons, ih (b.push x) (Nat.le_succ_of_le h), push_data, if_neg (Nat.not_lt.2 h)]

/-- What was pushed is appended, as far as it fits. -/
theorem pushAll_data (b : Buffer α) (xs : List α) :
    ∃ n, (b.pushAll xs).data = b.data ++ xs.take n := by
  induction xs generalizing b with
  | nil => exact ⟨0, (List.append_nil _).symm⟩
  | cons x xs ih =>
    by_cases h : b.count < b.capacity
    · obtain ⟨n, hn⟩ := ih (b.push x)
      refine ⟨n + 1, ?_⟩
      rw [pushAll_cons, hn, push_data, if_pos h, List.take_succ_cons, List.append_assoc]
      rfl
    · refine ⟨0, ?_⟩
      rw [pushAll_data_of_full b _ (Nat.not_lt.1 h), List.take_zero, List.append_nil]

end Buffer

abbrev TradeBuffer := Buffer Trade

/-- A resting order removed by self-trade prevention: the same seven fields. -/
abbrev StpVictim := RestingOrder

abbrev StpVictimBuffer := Buffer StpVictim

/-- The two buffers a call writes to. The one for victims may be null. -/
structure Sinks where
  trades : TradeBuffer
  victims : Option StpVictimBuffer
  deriving DecidableEq

namespace Sinks

/-- Empty buffers of this capacity. -/
def empty (capacity : Nat) : Sinks := ⟨.empty capacity, some (.empty capacity)⟩

def pushTrade (s : Sinks) (t : Trade) : Sinks := { s with trades := s.trades.push t }

def pushVictim (s : Sinks) (v : StpVictim) : Sinks := { s with victims := s.victims.map (·.push v) }

/-- The buffers after a call that pushed these trades and these victims. -/
def pushAll (s : Sinks) (ts : List Trade) (vs : List StpVictim) : Sinks :=
  ⟨s.trades.pushAll ts, s.victims.map (·.pushAll vs)⟩

@[simp] theorem pushAll_nil (s : Sinks) : s.pushAll [] [] = s := by
  obtain ⟨t, v⟩ := s
  cases v <;> rfl

theorem pushAll_pushAll (s : Sinks) (ts ts' : List Trade) (vs vs' : List StpVictim) :
    (s.pushAll ts vs).pushAll ts' vs' = s.pushAll (ts ++ ts') (vs ++ vs') := by
  obtain ⟨t, v⟩ := s
  cases v <;> simp [pushAll, Buffer.pushAll, List.foldl_append]

@[simp] theorem pushTrade_pushAll (s : Sinks) (t : Trade) (ts : List Trade) (vs : List StpVictim) :
    (s.pushTrade t).pushAll ts vs = s.pushAll (t :: ts) vs := rfl

@[simp] theorem pushVictim_pushAll (s : Sinks) (v : StpVictim) (ts : List Trade)
    (vs : List StpVictim) : (s.pushVictim v).pushAll ts vs = s.pushAll ts (v :: vs) := by
  obtain ⟨t, w⟩ := s
  cases w <;> rfl

end Sinks

/-! ## The id map -/

/-- Fibonacci hashing; the table masks the result. -/
def idHash (id : Int) : Nat := ((id % 2 ^ 64).toNat * 0x9E3779B97F4A7C15 % 2 ^ 64) >>> 32

abbrev OrderIdMap := Probing.Table Int Ptr

def nextPowerOfTwo (n : Nat) : Nat := if n ≤ 1 then 1 else 2 ^ (Nat.log2 (n - 1) + 1)

/-! ## The book -/

structure OrderBook where
  cfg : BookConfig
  bids : LevelMap
  asks : LevelMap
  idMap : OrderIdMap
  pool : ObjectPool Order
  seq : Int
  nextTradeId : Int

/-- What an unused pool slot holds. -/
def blankOrder : Order := ⟨0, 0, 0, 0, none, none, .buy, 0, 0, none⟩

namespace OrderBook

/-- The largest pool: an order takes 80 bytes, and one allocation at most `PTRDIFF_MAX`. -/
def maxPool : Nat := (2 ^ 63 - 1) / 80

def create (cfg : BookConfig) : Option OrderBook :=
  if cfg.maxPrice - cfg.minPrice < 2 ^ 63 ∧ cfg.maxOrders ≤ maxPool then
    some {
      cfg := cfg
      bids := LevelMap.create .buy cfg.minPrice cfg.maxPrice cfg.tick
      asks := LevelMap.create .sell cfg.minPrice cfg.maxPrice cfg.tick
      idMap := Probing.Table.empty (nextPowerOfTwo (cfg.maxOrders * 2))
      pool := ObjectPool.create blankOrder cfg.maxOrders
      seq := 0
      nextTradeId := 0 }
  else
    none

def sideOf (b : OrderBook) : Side → LevelMap
  | .buy => b.bids
  | .sell => b.asks

def setSide (b : OrderBook) : Side → LevelMap → OrderBook
  | .buy, m => { b with bids := m }
  | .sell, m => { b with asks := m }

def setHeap (b : OrderBook) (h : Heap) : OrderBook := { b with pool := { b.pool with value := h } }

def heap (b : OrderBook) : Heap := b.pool.value

/-- `level->unlink(p)` for the level at index `i` of side `s`. -/
def unlinkOrder (b : OrderBook) (s : Side) (i : Nat) (p : Ptr) : OrderBook :=
  let (m, h) := (b.sideOf s).unlinkAt i b.heap p
  (b.setSide s m).setHeap h

/-- `idMap_.erase(id)`; the source ignores whether the id was there. -/
def eraseId (b : OrderBook) (id : Int) : Option OrderBook := do
  let (_, t) ← b.idMap.erase idHash id
  some { b with idMap := t }

def release (b : OrderBook) (p : Ptr) : OrderBook := { b with pool := b.pool.release p }

def levelEmptied (b : OrderBook) (s : Side) (price : Int) : OrderBook :=
  b.setSide s ((b.sideOf s).onLevelEmptied price)

def levelIsEmpty (b : OrderBook) (s : Side) (i : Nat) : Bool := ((b.sideOf s).levels i).empty

/-- `resting->remaining -= qty` and `level->reduceQuantity(qty)`. -/
def fillOrder (b : OrderBook) (s : Side) (i : Nat) (p : Ptr) (qty : Int) : OrderBook :=
  (b.setSide s ((b.sideOf s).reduceAt i qty)).setHeap (modify b.heap p (·.fill qty))

end OrderBook

/-- Does an incoming order at `price` cross a resting order at `restingPrice`? -/
def crosses (type : OrderType) (side : Side) (price restingPrice : Int) : Bool :=
  if type = .market then true
  else match side with
    | .buy => decide (restingPrice ≤ price)
    | .sell => decide (price ≤ restingPrice)

inductive MatchOutcome where
  | exhausted
  | noLongerCrosses
  | stpFired
  deriving DecidableEq, Repr

/-- What `matchInto` works on: the book, the caller's buffers, the aggressor's `remaining`. -/
structure MatchState where
  book : OrderBook
  out : Sinks
  remaining : Int

namespace OrderBook

def bumpTradeId (b : OrderBook) : OrderBook := { b with nextTradeId := b.nextTradeId + 1 }

/-- A fully filled order leaves the book. -/
def removeFilled (b : OrderBook) (s : Side) (i : Nat) (p : Ptr) (id : Int) : Option OrderBook :=
  if (b.heap p).remaining = 0 then do
    let b ← (b.unlinkOrder s i p).eraseId id
    some (b.release p)
  else some b

/-- One trade against the order at `p`, the head of the level at index `i`. -/
def trade (o : NewOrder) (i : Nat) (p : Ptr) (st : MatchState) : Option MatchState := do
  let s := o.side.opposite
  let resting := st.book.heap p
  let qty := min st.remaining resting.remaining
  let t : Trade := ⟨st.book.nextTradeId, o.id, resting.id, resting.price, qty, o.side⟩
  let b ← (st.book.bumpTradeId.fillOrder s i p qty).removeFilled s i p resting.id
  some ⟨b, st.out.pushTrade t, st.remaining - qty⟩

/-- The removal of the resting order at `p` by self-trade prevention. -/
def removeVictim (o : NewOrder) (bestOpp : Int) (i : Nat) (p : Ptr) (st : MatchState) :
    Option MatchState := do
  let s := o.side.opposite
  let resting := st.book.heap p
  let b ← (st.book.unlinkOrder s i p).eraseId resting.id
  let b := b.release p
  let b := if b.levelIsEmpty s i then b.levelEmptied s bestOpp else b
  some ⟨b, st.out.pushVictim resting.data, st.remaining⟩

/-- The inner loop of `matchInto`, over the level at index `i`; `true` when self-trade
prevention ended the matching. -/
def matchLevel (o : NewOrder) (bestOpp : Int) (i : Nat) : Nat → MatchState → Option (Bool × MatchState)
  | 0, _ => none
  | fuel + 1, st =>
    if 0 < st.remaining then
      match ((st.book.sideOf o.side.opposite).levels i).head with
      | none => some (false, st)
      | some p =>
        if (st.book.heap p).participant = o.participant then
          match st.book.cfg.stp with
          | .cancelAggressor => some (true, st)
          | .cancelPassive => do
            let st ← removeVictim o bestOpp i p st
            matchLevel o bestOpp i fuel st
          | .cancelBoth => do
            let st ← removeVictim o bestOpp i p st
            some (true, st)
        else do
          let st ← trade o i p st
          matchLevel o bestOpp i fuel st
    else
      some (false, st)

/-- The outer loop of `matchInto`. -/
def matchLoop (o : NewOrder) : Nat → MatchState → Option (MatchOutcome × MatchState)
  | 0, _ => none
  | fuel + 1, st =>
    let s := o.side.opposite
    let opposite := st.book.sideOf s
    if 0 < st.remaining ∧ opposite.hasBest = true then
      let bestOpp := opposite.best
      if crosses o.type o.side o.price bestOpp then do
        let i ← opposite.levelAt bestOpp
        let (stp, st) ← matchLevel o bestOpp i (st.book.pool.inUse + 1) st
        if stp then
          some (.stpFired, st)
        else
          let b := if st.book.levelIsEmpty s i then st.book.levelEmptied s bestOpp else st.book
          matchLoop o fuel { st with book := b }
      else
        some (.noLongerCrosses, st)
    else
      some (.exhausted, st)

def matchInto (b : OrderBook) (o : NewOrder) (out : Sinks) (remaining : Int) :
    Option (MatchOutcome × MatchState) :=
  matchLoop o (b.bids.numSlots + 2) ⟨b, out, remaining⟩

/-- The walk of the fill-or-kill pre-scan along one level, from the order at `cur`; `true` when
the pre-scan returns from inside it. -/
def scanLevel (b : OrderBook) (o : NewOrder) : Nat → Option Ptr → Int → Option (Bool × Int)
  | _, none, sum => some (false, sum)
  | 0, some _, _ => none
  | fuel + 1, some p, sum =>
    let resting := b.heap p
    if resting.participant = o.participant then
      if b.cfg.stp = .cancelPassive then b.scanLevel o fuel resting.next sum
      else some (true, sum)
    else
      let sum := wrap64 (sum + resting.remaining)
      if o.quantity ≤ sum then some (true, sum) else b.scanLevel o fuel resting.next sum

/-- The walk of the pre-scan over the levels, from the one at price `p`. -/
def scanLoop (b : OrderBook) (o : NewOrder) : Nat → Int → Int → Option Int
  | 0, _, _ => none
  | fuel + 1, p, sum =>
    let opposite := b.sideOf o.side.opposite
    if p ≠ emptySentinel o.side.opposite then
      if crosses o.type o.side o.price p then do
        let i ← opposite.levelAt p
        let (returned, sum) ← b.scanLevel o (b.pool.inUse + 1) (opposite.levels i).head sum
        if returned then some sum else b.scanLoop o fuel (opposite.nextOccupied p) sum
      else
        some sum
    else
      some sum

/-- How much a fill-or-kill order could take, up to its own quantity. -/
def availableAgainst (b : OrderBook) (o : NewOrder) : Option Int :=
  b.scanLoop o (b.bids.numSlots + 2) (b.sideOf o.side.opposite).best 0

/-- Fill a pool slot, link it at its price and index it. `false` when the pool is exhausted. The
source does not look at the result of the insertion. -/
def restResidual (b : OrderBook) (o : NewOrder) (mySeq remaining : Int) :
    Option (Bool × OrderBook) :=
  match b.pool.acquire with
  | (none, _) => some (false, b)
  | (some p, pool) => do
    let node : Order := ⟨remaining, o.participant, o.price, o.id, none, none, o.side, o.quantity,
      mySeq, none⟩
    let b := { b with pool := pool }
    let (m, h) ← (b.sideOf o.side).addOrder (Function.update b.heap p node) p
    let b := (b.setSide o.side m).setHeap h
    some (true, { b with idMap := (b.idMap.insert idHash o.id p).2 })

/-- What happens to what matching left of the order. -/
def disposeResidual (b : OrderBook) (o : NewOrder) (mySeq remaining : Int) (r : OrderResult) :
    Option (OrderResult × OrderBook) :=
  match o.type with
  | .limit =>
    if 0 < remaining then do
      let (rested, b) ← b.restResidual o mySeq remaining
      if rested then some ({ r with status := .ok, rested := true }, b)
      else some ({ r with status := .rejectedPoolExhausted }, b)
    else
      some ({ r with status := .ok }, b)
  | .market | .ioc =>
    some ({ r with status := if 0 < remaining then .cancelledResidual else .ok }, b)
  | .fok =>
    some ({ r with status := if 0 < remaining then .rejectedFokUnfillable else .ok }, b)

/-- `submitEx` from the assignment of the arrival number on. -/
def accept (b : OrderBook) (o : NewOrder) (out : Sinks) (r : OrderResult) :
    Option (OrderResult × Sinks × OrderBook) := do
  let mySeq := b.seq + 1
  let (outcome, st) ← { b with seq := mySeq }.matchInto o out o.quantity
  let r := { r with seq := mySeq, filled := o.quantity - st.remaining, remaining := st.remaining }
  if outcome = .stpFired then
    some ({ r with status := .cancelledBySelfTradePrevention }, st.out, st.book)
  else do
    let (r, b) ← st.book.disposeResidual o mySeq st.remaining r
    some (r, st.out, b)

def submitEx (b : OrderBook) (o : NewOrder) (out : Sinks) :
    Option (OrderResult × Sinks × OrderBook) :=
  let r : OrderResult :=
    { price := o.price, quantity := o.quantity, participant := o.participant, side := o.side }
  let reject (status : SubmitStatus) := some ({ r with status := status }, out, b)
  if o.quantity ≤ 0 then reject .rejectedInvalidQuantity
  else if o.type ≠ .market ∧ b.bids.inRange o.price = false then reject .rejectedPriceOutOfRange
  else if (b.idMap.find idHash o.id).isSome then reject .rejectedDuplicateId
  else if o.type = .market ∧ (b.sideOf o.side.opposite).hasBest = false then
    reject .rejectedMarketIntoEmptyBook
  else if o.type = .fok then do
    let available ← b.availableAgainst o
    if available < o.quantity then reject .rejectedFokUnfillable else b.accept o out r
  else b.accept o out r

def cancel (b : OrderBook) (id : Int) : Option (OrderResult × OrderBook) :=
  match b.idMap.find idHash id with
  | none => some ({ status := .rejectedUnknownOrder }, b)
  | some p => do
    let o := b.heap p
    let r : OrderResult :=
      { status := .ok, remaining := o.remaining, filled := o.quantity - o.remaining,
        price := o.price, quantity := o.quantity, participant := o.participant, seq := o.seq,
        side := o.side }
    let level ← o.level
    let b := b.unlinkOrder level.side level.index p
    let b := if b.levelIsEmpty level.side level.index then b.levelEmptied o.side o.price else b
    let b ← b.eraseId id
    some (r, b.release p)

/-- Cancel `oldId` and submit `fresh` as a new arrival. The second result is what the internal
cancel returned, when it got that far. -/
def replace (b : OrderBook) (oldId : Int) (fresh : NewOrder) (out : Sinks) :
    Option (OrderResult × Option OrderResult × Sinks × OrderBook) :=
  let reject (status : SubmitStatus) := some ({ status := status }, none, out, b)
  if (b.idMap.find idHash oldId).isNone then reject .rejectedUnknownOrder
  else if fresh.quantity ≤ 0 then reject .rejectedInvalidQuantity
  else if fresh.type ≠ .market ∧ b.bids.inRange fresh.price = false then
    reject .rejectedPriceOutOfRange
  else if fresh.id ≠ oldId ∧ (b.idMap.find idHash fresh.id).isSome then
    reject .rejectedDuplicateId
  else do
    let (oldResult, b) ← b.cancel oldId
    let (r, out, b) ← b.submitEx fresh out
    some (r, some oldResult, out, b)

/-! ## The restore path -/

/-- Rest an order read from a snapshot, without matching. The insertion into the id map is
checked before the level is touched. -/
def restoreResting (b : OrderBook) (o : NewOrder) (remaining seq : Int) :
    Option (Bool × OrderBook) :=
  match b.pool.acquire with
  | (none, _) => some (false, b)
  | (some p, pool) =>
    let node : Order := ⟨remaining, o.participant, o.price, o.id, none, none, o.side, o.quantity,
      seq, none⟩
    let h := Function.update pool.value p node
    let b := { b with pool := { pool with value := h } }
    match b.idMap.insert idHash o.id p with
    | (false, _) => some (false, b.release p)
    | (true, t) => do
      let b := { b with idMap := t }
      let (m, h) ← (b.sideOf o.side).addOrder b.heap p
      some (true, (b.setSide o.side m).setHeap h)

def restoreCounters (b : OrderBook) (lastSeq nextTradeId : Int) : OrderBook :=
  { b with seq := lastSeq, nextTradeId := nextTradeId }

/-! ## Whole runs -/

end OrderBook

/-- A call on the book. -/
inductive Call where
  | submit (o : NewOrder)
  | cancel (id : Int)
  | replace (oldId : Int) (fresh : NewOrder)
  deriving DecidableEq, Repr

/-- The order a call brings. -/
def Call.order : Call → Option NewOrder
  | .submit o => some o
  | .cancel _ => none
  | .replace _ fresh => some fresh

/-- What the caller gets back, with its buffers. -/
structure Reply where
  result : OrderResult
  oldResult : Option OrderResult
  out : Sinks
  deriving DecidableEq

namespace OrderBook

/-- One call, with the buffers the caller hands in; a cancel does not take any. -/
def call (b : OrderBook) (c : Call) (out : Sinks) : Option (Reply × OrderBook) :=
  match c with
  | .submit o => do
    let (r, out, b) ← b.submitEx o out
    some (⟨r, none, out⟩, b)
  | .cancel id => do
    let (r, b) ← b.cancel id
    some (⟨r, none, out⟩, b)
  | .replace oldId fresh => do
    let (r, old, out, b) ← b.replace oldId fresh out
    some (⟨r, old, out⟩, b)

def run (b : OrderBook) : List (Call × Sinks) → Option (List Reply × OrderBook)
  | [] => some ([], b)
  | (c, out) :: cs => do
    let (r, b) ← b.call c out
    let (rs, b) ← b.run cs
    some (r :: rs, b)

/-- The resting orders, read off the id map. -/
def resting (b : OrderBook) : List RestingOrder :=
  (List.range b.idMap.capacity).filterMap fun i =>
    (b.idMap.slots i).map fun entry => (b.heap entry.2).data

/-- `P` holds of each call of the run and the book it is made on. -/
def Along (P : OrderBook → Call → Prop) (b : OrderBook) : List (Call × Sinks) → Prop
  | [] => True
  | (c, out) :: cs => P b c ∧ ∀ after ∈ b.call c out, Along P after.2 cs

instance decidableAlong (P : OrderBook → Call → Prop) [∀ b c, Decidable (P b c)] :
    ∀ (cs : List (Call × Sinks)) (b : OrderBook), Decidable (b.Along P cs)
  | [], _ => isTrue trivial
  | (c, out) :: cs, b =>
    have : ∀ after : Reply × OrderBook, Decidable (Along P after.2 cs) :=
      fun after => decidableAlong P cs after.2
    inferInstanceAs (Decidable (P b c ∧ ∀ after ∈ b.call c out, Along P after.2 cs))

end OrderBook

end Velox
