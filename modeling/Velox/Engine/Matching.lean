import Velox.Engine.Represents

/-!
# The match loop refines the queues

`matchInto` is defined on every represented book, keeps the representation invariant and does to
the view what `QueueBook.Match` says. The loops are shown to end within their bounds: an
iteration of the inner loop removes an order or exhausts the aggressor, one of the outer loop
moves the best price beyond its slot.

* `matchLevel_spec` — the inner loop, over the orders of one level.
* `matchLoop_spec`, `matchInto_spec` — the two nested loops are one `QueueBook.Match`.
-/

namespace Velox

/-- The number of slots from slot `i` on, of `n` slots, toward worse prices. -/
def Side.slotsFrom : Side → Nat → Nat → Nat
  | .buy, _, i => i + 1
  | .sell, n, i => n - i

namespace QueueBook

/-- How many slots a walk toward worse prices can still visit, from price `p`. -/
def distanceFrom (q : QueueBook) (s : Side) (p : Int) : Nat :=
  if p = emptySentinel s then 0 else s.slotsFrom q.cfg.numSlots (q.cfg.slot p)

/-- How far the best price of side `s` can still move. -/
def distance (q : QueueBook) (s : Side) : Nat := q.distanceFrom s (q.best s)

theorem distanceFrom_le (q : QueueBook) {s : Side} {p : Int}
    (hp : p = emptySentinel s ∨ q.cfg.inRange p = true) :
    q.distanceFrom s p ≤ q.cfg.numSlots := by
  rw [distanceFrom]
  split
  · exact Nat.zero_le _
  · next hne =>
    have hlt := BookConfig.slot_lt (hp.resolve_left hne)
    cases s
    · exact hlt
    · exact Nat.sub_le ..

theorem distanceFrom_pos (q : QueueBook) {s : Side} {p : Int} (hp : q.cfg.inRange p = true)
    (hne : p ≠ emptySentinel s) : 0 < q.distanceFrom s p := by
  have hlt := BookConfig.slot_lt hp
  rw [distanceFrom, if_neg hne]
  cases s <;> simp only [Side.slotsFrom] <;> omega

/-- The next occupied price is the sentinel or the price of a slot of the book. -/
theorem nextOccupied_inRange {q : QueueBook} (hw : q.Wf) (s : Side) (p : Int) :
    q.nextOccupied s p = emptySentinel s ∨ q.cfg.inRange (q.nextOccupied s p) = true := by
  rcases q.nextOccupied_isNext s p with ⟨h, -⟩ | ⟨j, h, -, hocc, -⟩
  · exact Or.inl h
  · obtain ⟨x, hx, -, rfl⟩ := queue_ne_nil_iff.1 hocc
    rw [h]
    exact Or.inr (BookConfig.slotPrice_inRange (BookConfig.slot_lt (hw.inRange x hx)))

theorem distanceFrom_nextOccupied {q : QueueBook} (hw : q.Wf) {s : Side} {p : Int}
    (hp : q.cfg.inRange p = true) (hne : p ≠ emptySentinel s) :
    q.distanceFrom s (q.nextOccupied s p) < q.distanceFrom s p := by
  have hlt := BookConfig.slot_lt hp
  have hpos := q.distanceFrom_pos hp hne
  rw [distanceFrom]
  split
  · exact hpos
  · next hne' =>
    rcases q.nextOccupied_isNext s p with ⟨h, -⟩ | ⟨j, h, hb, hocc, -⟩
    · exact absurd h hne'
    · obtain ⟨x, hx, -, rfl⟩ := queue_ne_nil_iff.1 hocc
      have hj := BookConfig.slot_lt (hw.inRange x hx)
      rw [distanceFrom, if_neg hne, h, BookConfig.slot_slotPrice]
      cases s <;> simp only [Side.beyond, Side.slotsFrom] at hb ⊢ <;> omega

theorem distance_le {q : QueueBook} (hw : q.Wf) (s : Side) : q.distance s ≤ q.cfg.numSlots :=
  q.distanceFrom_le (hw.best s)

theorem distance_pos {q : QueueBook} (hw : q.Wf) {s : Side} (hne : q.best s ≠ emptySentinel s) :
    0 < q.distance s :=
  q.distanceFrom_pos ((hw.best s).resolve_left hne) hne

theorem distance_levelEmptied {q : QueueBook} (hw : q.Wf) {s : Side}
    (hne : q.best s ≠ emptySentinel s) :
    (q.levelEmptied s (q.best s)).distance s < q.distance s := by
  have hbest : (q.levelEmptied s (q.best s)).best s = q.nextOccupied s (q.best s) := by
    rw [levelEmptied, if_pos rfl, setBest_best, if_pos rfl]
  rw [distance, hbest, distanceFrom, levelEmptied_cfg]
  exact distanceFrom_nextOccupied hw ((hw.best s).resolve_left hne) hne

/-- After an emptied best level is reported, the best price lies beyond it. -/
theorem best_levelEmptied (q : QueueBook) {s : Side} {p : Int} (hp : p = q.best s) :
    (q.levelEmptied s p).best s = emptySentinel s ∨
      ∃ j, (q.levelEmptied s p).best s = q.cfg.slotPrice j ∧ s.beyond (q.cfg.slot p) j ∧
        q.queue s j ≠ [] := by
  rw [levelEmptied, if_pos hp, setBest_best, if_pos rfl]
  rcases q.nextOccupied_isNext s p with ⟨h, -⟩ | ⟨j, h, hb, hocc, -⟩
  · exact Or.inl h
  · exact Or.inr ⟨j, h, hb, hocc⟩

/-- Reporting an emptied level twice is reporting it once. -/
theorem levelEmptied_levelEmptied (q : QueueBook) {s : Side} {p : Int}
    (hne : p ≠ emptySentinel s) : (q.levelEmptied s p).levelEmptied s p = q.levelEmptied s p := by
  by_cases hp : p = q.best s
  · have hmoved : p ≠ (q.levelEmptied s p).best s := by
      rcases q.best_levelEmptied hp with h | ⟨j, h, hb, -⟩
      · rw [h]
        exact hne
      · intro heq
        rw [heq.trans h, BookConfig.slot_slotPrice] at hb
        exact s.beyond_irrefl j hb
    rw [levelEmptied, if_neg hmoved]
  · rw [show q.levelEmptied s p = q by rw [levelEmptied, if_neg hp], levelEmptied, if_neg hp]

theorem remove_reduce (q : QueueBook) (id qty : Int) : (q.reduce id qty).remove id = q.remove id := by
  have horders : ((q.reduce id qty).remove id).orders = (q.remove id).orders := by
    rw [remove, reduce, remove, List.filter_map]
    have hkeep : ∀ y ∈ q.orders.filter fun y => decide (y.id ≠ id),
        (if y.id = id then { y with remaining := y.remaining - qty } else y) = y := by
      intro y hy
      rw [List.mem_filter, decide_eq_true_eq] at hy
      rw [if_neg hy.2]
    have hsame : q.orders.filter ((fun y => decide (y.id ≠ id)) ∘ fun y : RestingOrder =>
        if y.id = id then { y with remaining := y.remaining - qty } else y) =
        q.orders.filter fun y => decide (y.id ≠ id) := by
      refine List.filter_congr fun y _ => ?_
      simp only [Function.comp]
      split <;> rfl
    rw [hsame, List.map_congr_left hkeep, List.map_id']
  exact congrArg (fun os => { q with orders := os }) horders

end QueueBook

namespace OrderBook

variable {b b' : OrderBook} {ps ps' : List Ptr} {p : Ptr} {o : NewOrder}
  {rem price : Int} {i : Nat}

/-! ## The steps of the inner loop -/

/-- What it means to have found the head of the best level at `p`. -/
structure AtHead (b : OrderBook) (ps : List Ptr) (o : NewOrder) (i : Nat) (p : Ptr) : Prop where
  mem : p ∈ ps
  side : (b.heap p).side = o.side.opposite
  slot : b.cfg.slot (b.heap p).price = i

theorem AtHead.data_mem (ha : b.AtHead ps o i p) : (b.heap p).data ∈ (b.view ps).orders :=
  List.mem_map.2 ⟨p, ha.mem, rfl⟩

theorem AtHead.inRange (ha : b.AtHead ps o i p) (hw : (b.view ps).Wf) :
    b.cfg.inRange (b.heap p).price = true :=
  hw.inRange _ ha.data_mem

theorem Repr.bumpTradeId {dirty : Option LevelPtr} (hr : b.Repr ps dirty) :
    b.bumpTradeId.Repr ps dirty :=
  ⟨hr.live, hr.capacity, hr.isSide, hr.side, hr.idInv, hr.idRoom, hr.idSize, hr.idMem⟩

/-- The dirty level after a change: the one looked at, if it has become empty. -/
def dirtyIfEmpty (q : QueueBook) (s : Side) (i : Nat) : Option LevelPtr :=
  if q.queue s i = [] then some ⟨s, i⟩ else none

/-- The book with the level at index `i` reported, if it is empty. -/
def afterLevel (b : OrderBook) (s : Side) (i : Nat) (price : Int) : OrderBook :=
  if b.levelIsEmpty s i then b.levelEmptied s price else b

/-- **The report of a level**, on the view. -/
theorem repr_afterLevel {s : Side} (hr : b.Repr ps (dirtyIfEmpty (b.view ps) s i))
    (hw : (b.view ps).Wf) (hp : b.cfg.inRange price = true) (hi : b.cfg.slot price = i) :
    (b.afterLevel s i price).Repr ps none ∧
      (b.afterLevel s i price).view ps = (b.view ps).settle s price := by
  subst hi
  have hempty := levelIsEmpty_iff (s := s) hr (BookConfig.slot_lt hp)
  rw [afterLevel, QueueBook.settle]
  by_cases hnil : (b.view ps).queue s (b.cfg.slot price) = []
  · rw [if_pos (hempty.2 hnil)]
    rw [dirtyIfEmpty, if_pos hnil] at hr
    have h := repr_levelEmptied hr hw (Or.inr rfl) hp hnil
    exact ⟨h.1, h.2.trans (if_pos hnil).symm⟩
  · rw [if_neg (mt hempty.1 hnil)]
    rw [dirtyIfEmpty, if_neg hnil] at hr
    exact ⟨hr, (if_neg hnil).symm⟩

/-- Filling an order and removing it if nothing remains. -/
theorem fill_removeFilled_spec (hr : b.Repr ps none) (hw : (b.view ps).Wf)
    (ha : b.AtHead ps o i p) (qty : Int) :
    ∃ b' ps', (b.fillOrder o.side.opposite i p qty).removeFilled o.side.opposite i p
        (b.heap p).id = some b' ∧ b'.view ps' = (b.view ps).fill (b.heap p).data qty ∧
      b'.Repr ps' (dirtyIfEmpty (b'.view ps') o.side.opposite i) := by
  have hrange := ha.inRange hw
  obtain ⟨hp, hside, hslot⟩ := ha
  obtain ⟨hr₁, hview₁⟩ := repr_fill hr hp hrange qty
  rw [hside, hslot] at hr₁ hview₁
  have hheap : (b.fillOrder o.side.opposite i p qty).heap p = (b.heap p).fill qty :=
    modify_self b.heap p (·.fill qty)
  have hcfg : (b.fillOrder o.side.opposite i p qty).cfg = b.cfg := setSide_cfg _
  rw [removeFilled, hheap]
  by_cases hz : (b.heap p).remaining = qty
  · have hz' : ((b.heap p).fill qty).remaining = 0 := sub_eq_zero.2 hz
    obtain ⟨b₂, herase, hr₂, hview₂⟩ := repr_remove hr₁ hp (by rw [hheap, hcfg]; exact hrange)
    rw [hheap, hcfg] at herase hr₂
    rw [hheap] at hview₂
    have hs' : ((b.heap p).fill qty).side = o.side.opposite := hside
    have hi' : b.cfg.slot ((b.heap p).fill qty).price = i := hslot
    rw [hs', hi'] at herase hr₂
    rw [if_pos hz', show (b.heap p).id = ((b.heap p).fill qty).id from rfl, herase]
    refine ⟨b₂.release p, ps.filter (· ≠ p), rfl, ?_, ?_⟩
    · rw [hview₂, hview₁]
      exact (QueueBook.remove_reduce _ _ _).trans (if_pos hz).symm
    · rw [dirtyIfEmpty, hview₂]
      exact hr₂
  · have hz' : ((b.heap p).fill qty).remaining ≠ 0 := sub_ne_zero.2 hz
    rw [if_neg hz']
    refine ⟨_, ps, rfl, ?_, ?_⟩
    · rw [hview₁]
      exact (if_neg hz).symm
    · have hne : ((b.fillOrder o.side.opposite i p qty).view ps).queue o.side.opposite i ≠ [] := by
        rw [hview₁, QueueBook.reduce_queue, ne_eq, List.map_eq_nil_iff, ← ne_eq,
          QueueBook.queue_ne_nil_iff]
        exact ⟨_, List.mem_map.2 ⟨p, hp, rfl⟩, hside, hslot⟩
      rw [dirtyIfEmpty, if_neg hne]
      exact hr₁

/-- **One trade** of the inner loop. The level is left dirty if it empties. -/
theorem trade_spec (rem : Int) (hr : b.Repr ps none) (hw : (b.view ps).Wf)
    (ha : b.AtHead ps o i p) :
    ∃ b' ps', (∀ out, trade o i p ⟨b, out, rem⟩ =
        some ⟨b', out.pushTrade ((b.view ps).tradeOf o (b.heap p).data rem),
          rem - min rem (b.heap p).remaining⟩) ∧
      b'.view ps' = (b.view ps).bumpTradeId.fill (b.heap p).data (min rem (b.heap p).remaining) ∧
      b'.Repr ps' (dirtyIfEmpty (b'.view ps') o.side.opposite i) := by
  obtain ⟨b', ps', hrun, hview, hrepr⟩ :=
    fill_removeFilled_spec hr.bumpTradeId hw.bumpTradeId ⟨ha.mem, ha.side, ha.slot⟩
      (min rem (b.heap p).remaining)
  refine ⟨b', ps', fun out => ?_, hview, hrepr⟩
  rw [trade]
  change ((b.bumpTradeId.fillOrder o.side.opposite i p (min rem (b.heap p).remaining)).removeFilled
    o.side.opposite i p (b.bumpTradeId.heap p).id >>= _) = _
  rw [hrun]
  rfl

/-- **One removal** by self-trade prevention; an emptied level is reported at once. -/
theorem removeVictim_spec (rem : Int) (hr : b.Repr ps none) (hw : (b.view ps).Wf)
    (hprice : b.cfg.inRange price = true) (ha : b.AtHead ps o (b.cfg.slot price) p) :
    ∃ b' ps', (∀ out, removeVictim o price (b.cfg.slot price) p ⟨b, out, rem⟩ =
        some ⟨b', out.pushVictim (b.heap p).data, rem⟩) ∧
      b'.view ps' = ((b.view ps).remove (b.heap p).id).settle o.side.opposite price ∧
      b'.Repr ps' none := by
  have hrange := ha.inRange hw
  obtain ⟨hp, hside, hslot⟩ := ha
  obtain ⟨b₁, herase, hr₁, hview₁⟩ := repr_remove hr hp hrange
  rw [hside, hslot] at herase hr₁
  have hcfg : (b₁.release p).cfg = b.cfg := congrArg QueueBook.cfg hview₁
  rw [← hview₁] at hr₁
  obtain ⟨hr₂, hview₂⟩ := repr_afterLevel hr₁ (by rw [hview₁]; exact hw.remove _)
    (by rw [hcfg]; exact hprice) (by rw [hcfg])
  rw [hview₁] at hview₂
  refine ⟨_, ps.filter (· ≠ p), fun out => ?_, hview₂, hr₂⟩
  rw [removeVictim]
  change ((b.unlinkOrder o.side.opposite (b.cfg.slot price) p).eraseId (b.heap p).id >>= _) = _
  rw [herase]
  rfl

/-! ## The inner loop -/

/-- The level looked at is empty: the inner loop ends. -/
theorem matchLevel_of_empty {fuel : Nat} {st : MatchState}
    (h : st.book.levelIsEmpty o.side.opposite i = true) :
    matchLevel o price i (fuel + 1) st = some (false, st) := by
  rw [levelIsEmpty, PriceLevel.empty, Option.isNone_iff_eq_none] at h
  rw [matchLevel, h]
  split <;> rfl

/-- Nothing remains: the inner loop ends. -/
theorem matchLevel_of_filled {fuel : Nat} {st : MatchState} (h : ¬ 0 < st.remaining) :
    matchLevel o price i (fuel + 1) st = some (false, st) := by
  rw [matchLevel, if_neg h]

/-- What the inner loop achieves from the book `b` with `rem` to fill: it ends the matching, or
what it did can be continued from the book with the level reported. -/
structure LevelRun (o : NewOrder) (b : OrderBook) (ps : List Ptr) (rem price : Int) (i : Nat)
    (stp : Bool) (b₁ : OrderBook) (ps₁ : List Ptr) (rem₁ : Int) (ts : List Trade)
    (vs : List StpVictim) : Prop where
  stopped : stp = true → b₁.Repr ps₁ none ∧
    (b.view ps).Match o rem .stpFired ts vs (b₁.view ps₁) rem₁
  repr : stp = false → (b₁.afterLevel o.side.opposite i price).Repr ps₁ none
  wf : stp = false → ((b₁.afterLevel o.side.opposite i price).view ps₁).Wf
  goesOn : stp = false → ∀ {oc ts' vs' q' rem'},
    ((b₁.afterLevel o.side.opposite i price).view ps₁).Match o rem₁ oc ts' vs' q' rem' →
      (b.view ps).Match o rem oc (ts ++ ts') (vs ++ vs') q' rem'
  closer : stp = false → ¬ 0 < rem₁ ∨
    ((b₁.afterLevel o.side.opposite i price).view ps₁).distance o.side.opposite <
      (b.view ps).distance o.side.opposite

/-- A step before an inner loop is an inner loop. -/
theorem LevelRun.prepend {stp : Bool} {b₁ : OrderBook} {ps₁ : List Ptr} {rem' rem₁ : Int}
    {ts ts₀ : List Trade} {vs vs₀ : List StpVictim}
    (hrun : LevelRun o b' ps' rem' price i stp b₁ ps₁ rem₁ ts vs)
    (hstep : ∀ {oc ts' vs' q' rem''}, (b'.view ps').Match o rem' oc ts' vs' q' rem'' →
      (b.view ps).Match o rem oc (ts₀ ++ ts') (vs₀ ++ vs') q' rem'')
    (hdist : (b'.view ps').distance o.side.opposite ≤ (b.view ps).distance o.side.opposite) :
    LevelRun o b ps rem price i stp b₁ ps₁ rem₁ (ts₀ ++ ts) (vs₀ ++ vs) where
  stopped := fun h => ⟨(hrun.stopped h).1, hstep (hrun.stopped h).2⟩
  repr := hrun.repr
  wf := hrun.wf
  goesOn := fun h oc ts' vs' q' rem'' hm => by
    rw [List.append_assoc, List.append_assoc]
    exact hstep (hrun.goesOn h hm)
  closer := fun h => (hrun.closer h).imp_right fun hlt => hlt.trans_le hdist

/-- The level is empty and reported, and matching goes on. -/
theorem LevelRun.of_empty {b₁ : OrderBook} {ps₁ : List Ptr} {rem₁ : Int} {ts : List Trade}
    {vs : List StpVictim} {q : QueueBook}
    (hr : (b₁.afterLevel o.side.opposite i price).Repr ps₁ none)
    (hview : (b₁.afterLevel o.side.opposite i price).view ps₁ = q) (hw : q.Wf)
    (hstep : ∀ {oc ts' vs' q' rem'}, q.Match o rem₁ oc ts' vs' q' rem' →
      (b.view ps).Match o rem oc (ts ++ ts') (vs ++ vs') q' rem')
    (hdist : q.distance o.side.opposite < (b.view ps).distance o.side.opposite) :
    LevelRun o b ps rem price i false b₁ ps₁ rem₁ ts vs where
  stopped := fun h => by cases h
  repr := fun _ => hr
  wf := fun _ => by
    rw [hview]
    exact hw
  goesOn := fun _ oc ts' vs' q' rem' hm => by
    rw [hview] at hm
    exact hstep hm
  closer := fun _ => Or.inr (by rw [hview]; exact hdist)

theorem LevelRun.of_stop {b₁ : OrderBook} {ps₁ : List Ptr} {rem₁ : Int} {ts : List Trade}
    {vs : List StpVictim} (hr : b₁.Repr ps₁ none)
    (hm : (b.view ps).Match o rem .stpFired ts vs (b₁.view ps₁) rem₁) :
    LevelRun o b ps rem price i true b₁ ps₁ rem₁ ts vs :=
  ⟨fun _ => ⟨hr, hm⟩, nofun, nofun, nofun, nofun⟩

/-- The queue at the head of which the order at `p` stands. -/
theorem atHead_of_queue (hr : b.Repr ps none) (hi : i < b.cfg.numSlots) {x : RestingOrder}
    {xs : List RestingOrder} (hq : (b.view ps).queue o.side.opposite i = x :: xs) :
    ∃ p, ((b.sideOf o.side.opposite).levels i).head = some p ∧ (b.heap p).data = x ∧
      b.AtHead ps o i p := by
  rw [hr.queue_eq] at hq
  cases hc : (b.sideOf o.side.opposite).chain b.heap ps i with
  | nil =>
    rw [hc] at hq
    cases hq
  | cons p cs =>
    rw [hc, List.map_cons, List.cons.injEq] at hq
    have hp : p ∈ (b.sideOf o.side.opposite).chain b.heap ps i := by
      rw [hc]
      exact List.mem_cons_self
    rw [LevelMap.mem_chain, (hr.isSide _).side, (hr.isSide _).slot] at hp
    refine ⟨p, ?_, hq.1, hp.1, hp.2.1, hp.2.2⟩
    rw [hr.head_eq hi, hc]
    rfl

theorem distance_congr {q q' : QueueBook} {s : Side} (hc : q'.cfg = q.cfg)
    (hb : q'.best s = q.best s) : q'.distance s = q.distance s := by
  rw [QueueBook.distance, QueueBook.distance, QueueBook.distanceFrom, QueueBook.distanceFrom, hc,
    hb]

/-- The queue without its head. -/
theorem remove_head_queue {q : QueueBook} {s : Side} {x : RestingOrder} {xs : List RestingOrder}
    (hq : q.queue s i = x :: xs) : ((q.remove x.id).queue s i).length ≤ xs.length := by
  rw [QueueBook.remove_queue, hq, List.filter_cons_of_neg (by simp)]
  exact List.length_filter_le ..

/-- The inner loop looks at the level of the best price, which crosses. -/
structure LevelState (b : OrderBook) (ps : List Ptr) (o : NewOrder) (price : Int) (i : Nat) :
    Prop where
  repr : b.Repr ps none
  wf : (b.view ps).Wf
  best : (b.view ps).best o.side.opposite = price
  hasBest : price ≠ emptySentinel o.side.opposite
  crosses : crosses o.type o.side o.price price = true
  slot : b.cfg.slot price = i

theorem LevelState.inRange (hs : b.LevelState ps o price i) : b.cfg.inRange price = true := by
  have hb := hs.wf.best o.side.opposite
  rw [hs.best] at hb
  exact hb.resolve_left hs.hasBest

theorem LevelState.slot_lt (hs : b.LevelState ps o price i) : i < b.cfg.numSlots := by
  rw [← hs.slot]
  exact BookConfig.slot_lt hs.inRange

theorem LevelState.looks (hs : b.LevelState ps o price i) (hrem : 0 < rem) :
    (b.view ps).Looks o rem :=
  ⟨hrem, by rw [hs.best]; exact hs.hasBest, by rw [hs.best]; exact hs.crosses⟩

theorem LevelState.front_eq (hs : b.LevelState ps o price i) :
    (b.view ps).front o = (b.view ps).queue o.side.opposite i := by
  rw [QueueBook.front, hs.best, ← hs.slot]
  rfl

/-- A later state of the same loop. -/
theorem LevelState.next (hs : b.LevelState ps o price i) (hr : b'.Repr ps' none)
    (hw : (b'.view ps').Wf) (hc : (b'.view ps').cfg = b.cfg)
    (hb : (b'.view ps').best o.side.opposite = (b.view ps).best o.side.opposite) :
    b'.LevelState ps' o price i :=
  ⟨hr, hw, hb.trans hs.best, hs.hasBest, hs.crosses, by
    rw [show b'.cfg = b.cfg from hc]
    exact hs.slot⟩

section Inner

variable {x : RestingOrder} {xs : List RestingOrder}

/-- The inner loop on an empty level. -/
theorem matchLevel_stale (fuel : Nat) (hs : b.LevelState ps o price i)
    (hrem : 0 < rem) (hq : (b.view ps).queue o.side.opposite i = []) :
    (∀ out, matchLevel o price i (fuel + 1) ⟨b, out, rem⟩ = some (false, ⟨b, out, rem⟩)) ∧
      LevelRun o b ps rem price i false b ps rem [] [] := by
  have hempty := (levelIsEmpty_iff hs.repr hs.slot_lt).2 hq
  have hq' : (b.view ps).queue o.side.opposite (b.cfg.slot price) = [] := by
    rw [hs.slot]
    exact hq
  obtain ⟨hr, hview⟩ := repr_levelEmptied hs.repr hs.wf (Or.inl rfl) hs.inRange hq'
  refine ⟨fun out => matchLevel_of_empty hempty, ?_⟩
  refine LevelRun.of_empty (q := (b.view ps).levelEmptied o.side.opposite price) ?_ ?_
    (hs.wf.levelEmptied hq') ?_ ?_
  · rw [afterLevel, if_pos hempty]
    exact hr
  · rw [afterLevel, if_pos hempty]
    exact hview
  · intro oc ts' vs' q' rem' hm
    refine .stale (hs.looks hrem) (hs.front_eq.trans hq) ?_
    rw [hs.best]
    exact hm
  · rw [← hs.best]
    exact QueueBook.distance_levelEmptied hs.wf (by rw [hs.best]; exact hs.hasBest)

/-- The inner loop after self-trade prevention has removed the head. -/
theorem matchLevel_victim (hs : b.LevelState ps o price i) (hrem : 0 < rem)
    (hq : (b.view ps).queue o.side.opposite i = x :: xs) (hp : x.participant = o.participant)
    (hstp : b.cfg.stp = .cancelPassive) (hr : b'.Repr ps' none)
    (hview : b'.view ps' = (b.view ps).afterVictim o x) {fuel : Nat} (hfuel : 0 < fuel)
    (ih : b'.LevelState ps' o price i → ((b'.view ps').queue o.side.opposite i) ≠ [] →
      ∃ stp b₁ ps₁ rem₁ ts vs,
        (∀ out, matchLevel o price i fuel ⟨b', out, rem⟩ =
          some (stp, ⟨b₁, out.pushAll ts vs, rem₁⟩)) ∧
        LevelRun o b' ps' rem price i stp b₁ ps₁ rem₁ ts vs) :
    ∃ stp b₁ ps₁ rem₁ ts vs,
      (∀ out : Sinks, matchLevel o price i fuel ⟨b', out.pushVictim x, rem⟩ =
        some (stp, ⟨b₁, out.pushAll ts vs, rem₁⟩)) ∧
      LevelRun o b ps rem price i stp b₁ ps₁ rem₁ ts vs := by
  have hfront := hs.front_eq.trans hq
  have hstep : ∀ {oc ts' vs' q' rem''}, (b'.view ps').Match o rem oc ts' vs' q' rem'' →
      (b.view ps).Match o rem oc ([] ++ ts') ([x] ++ vs') q' rem'' := by
    intro oc ts' vs' q' rem'' hm
    rw [hview] at hm
    exact .stpPassive (hs.looks hrem) hfront hp hstp hm
  have hw' : (b'.view ps').Wf := by
    rw [hview]
    exact hs.wf.afterVictim
  have hcfg' : (b'.view ps').cfg = b.cfg := by
    rw [hview]
    exact QueueBook.afterVictim_cfg
  have hslot' : b'.cfg.slot price = i := by
    rw [show b'.cfg = b.cfg from hcfg']
    exact hs.slot
  have hrange' : b'.cfg.inRange price = true := by
    rw [show b'.cfg = b.cfg from hcfg']
    exact hs.inRange
  -- The removal itself leaves the best price and hence the distance alone.
  have hbest : ((b.view ps).remove x.id).best o.side.opposite = price := hs.best
  have hqueue' : (b'.view ps').queue o.side.opposite i =
      ((b.view ps).remove x.id).queue o.side.opposite i := by
    rw [hview, QueueBook.afterVictim_queue]
  have hsettle : b'.view ps' = ((b.view ps).remove x.id).settle o.side.opposite price := by
    rw [hview, QueueBook.afterVictim, hs.best]
  have hslotq : ((b.view ps).remove x.id).cfg.slot price = i := hs.slot
  by_cases hnil : (b'.view ps').queue o.side.opposite i = []
  · obtain ⟨n, rfl⟩ : ∃ n, fuel = n + 1 := ⟨fuel - 1, by omega⟩
    have hempty := (levelIsEmpty_iff hr (by rw [← hslot']; exact BookConfig.slot_lt hrange')).2 hnil
    have hview' : b'.view ps' = ((b.view ps).remove x.id).levelEmptied o.side.opposite price := by
      rw [hsettle, QueueBook.settle, hslotq, if_pos (hqueue' ▸ hnil)]
    obtain ⟨hr₂, hview₂⟩ := repr_levelEmptied hr hw' (Or.inl rfl) hrange' (by rw [hslot']; exact hnil)
    refine ⟨false, b', ps', rem, [], [x], fun out => ?_, ?_⟩
    · rw [matchLevel_of_empty hempty]
      rfl
    · refine LevelRun.of_empty (q := b'.view ps') ?_ ?_ hw' hstep ?_
      · rw [afterLevel, if_pos hempty]
        exact hr₂
      · rw [afterLevel, if_pos hempty, hview₂, hview',
          QueueBook.levelEmptied_levelEmptied _ hs.hasBest]
      · rw [hview', ← hbest]
        exact QueueBook.distance_levelEmptied (hs.wf.remove _) (by rw [hbest]; exact hs.hasBest)
  · have hview' : b'.view ps' = (b.view ps).remove x.id := by
      rw [hsettle, QueueBook.settle, hslotq, if_neg (hqueue' ▸ hnil)]
    obtain ⟨stp, b₁, ps₁, rem₁, ts, vs, hcode, hrun⟩ := ih
      (hs.next hr hw' hcfg' (by rw [hview']; rfl)) hnil
    refine ⟨stp, b₁, ps₁, rem₁, [] ++ ts, [x] ++ vs, fun out => ?_, hrun.prepend hstep ?_⟩
    · rw [hcode, Sinks.pushVictim_pushAll]
      rfl
    · rw [hview']
      exact le_of_eq rfl

/-- The inner loop after a trade with the head. -/
theorem matchLevel_trade (hs : b.LevelState ps o price i) (hrem : 0 < rem)
    (hq : (b.view ps).queue o.side.opposite i = x :: xs) (hp : x.participant ≠ o.participant)
    (hr : b'.Repr ps' (dirtyIfEmpty (b'.view ps') o.side.opposite i))
    (hview : b'.view ps' = (b.view ps).bumpTradeId.fill x (min rem x.remaining)) {fuel : Nat}
    (hfuel : 0 < fuel)
    (ih : b'.LevelState ps' o price i → ((b'.view ps').queue o.side.opposite i) ≠ [] →
      ∃ stp b₁ ps₁ rem₁ ts vs,
        (∀ out, matchLevel o price i fuel ⟨b', out, rem - min rem x.remaining⟩ =
          some (stp, ⟨b₁, out.pushAll ts vs, rem₁⟩)) ∧
        LevelRun o b' ps' (rem - min rem x.remaining) price i stp b₁ ps₁ rem₁ ts vs) :
    ∃ stp b₁ ps₁ rem₁ ts vs,
      (∀ out : Sinks, matchLevel o price i fuel
          ⟨b', out.pushTrade ((b.view ps).tradeOf o x rem), rem - min rem x.remaining⟩ =
        some (stp, ⟨b₁, out.pushAll ts vs, rem₁⟩)) ∧
      LevelRun o b ps rem price i stp b₁ ps₁ rem₁ ts vs := by
  have hfront := hs.front_eq.trans hq
  have hx := (QueueBook.mem_of_front hfront).1
  have hpos := hs.wf.positive x hx
  have hafter : (b.view ps).afterTrade o x rem = (b'.view ps').settle o.side.opposite price := by
    rw [QueueBook.afterTrade, hs.best, hview]
  have hstep : ∀ {oc ts' vs' q' rem''}, ((b'.view ps').settle o.side.opposite price).Match o
      (rem - min rem x.remaining) oc ts' vs' q' rem'' →
      (b.view ps).Match o rem oc ([(b.view ps).tradeOf o x rem] ++ ts') ([] ++ vs') q' rem'' := by
    intro oc ts' vs' q' rem'' hm
    rw [← hafter] at hm
    exact .trade (hs.looks hrem) hfront hp hm
  have hw' : (b'.view ps').Wf := by
    rw [hview]
    exact hs.wf.bumpTradeId.fill hx (by omega)
  have hcfg' : (b'.view ps').cfg = b.cfg := by
    rw [hview, QueueBook.fill_cfg]
    rfl
  have hbest' : (b'.view ps').best o.side.opposite = (b.view ps).best o.side.opposite := by
    rw [hview, QueueBook.fill_best]
    cases o.side <;> rfl
  have hdist : (b'.view ps').distance o.side.opposite = (b.view ps).distance o.side.opposite :=
    distance_congr hcfg' hbest'
  have hslot' : b'.cfg.slot price = i := by
    rw [show b'.cfg = b.cfg from hcfg']
    exact hs.slot
  have hrange' : b'.cfg.inRange price = true := by
    rw [show b'.cfg = b.cfg from hcfg']
    exact hs.inRange
  by_cases hnil : (b'.view ps').queue o.side.opposite i = []
  · obtain ⟨n, rfl⟩ : ∃ n, fuel = n + 1 := ⟨fuel - 1, by omega⟩
    have hempty := (levelIsEmpty_iff hr (by rw [← hslot']; exact BookConfig.slot_lt hrange')).2 hnil
    obtain ⟨hr₂, hview₂⟩ := repr_afterLevel hr hw' hrange' hslot'
    refine ⟨false, b', ps', rem - min rem x.remaining, [(b.view ps).tradeOf o x rem], [],
      fun out => ?_, ?_⟩
    · rw [matchLevel_of_empty hempty, ← Sinks.pushTrade_pushAll, Sinks.pushAll_nil]
    · refine LevelRun.of_empty hr₂ hview₂ (hw'.settle _ _) hstep ?_
      have hnil' : (b'.view ps').queue o.side.opposite ((b'.view ps').cfg.slot price) = [] := by
        rw [show (b'.view ps').cfg.slot price = i from hslot']
        exact hnil
      rw [QueueBook.settle, if_pos hnil', ← hdist, ← hs.best, ← hbest']
      exact QueueBook.distance_levelEmptied hw' (by rw [hbest', hs.best]; exact hs.hasBest)
  · rw [dirtyIfEmpty, if_neg hnil] at hr
    have hsettle : (b'.view ps').settle o.side.opposite price = b'.view ps' := by
      rw [QueueBook.settle, show (b'.view ps').cfg.slot price = i from hslot', if_neg hnil]
    rw [hsettle] at hstep
    obtain ⟨stp, b₁, ps₁, rem₁, ts, vs, hcode, hrun⟩ := ih (hs.next hr hw' hcfg' hbest') hnil
    refine ⟨stp, b₁, ps₁, rem₁, _, _, fun out => ?_, hrun.prepend hstep hdist.le⟩
    rw [hcode, Sinks.pushTrade_pushAll]
    rfl

/-- **The inner loop.** -/
theorem matchLevel_spec : ∀ (fuel : Nat) {b : OrderBook} {ps : List Ptr} {rem : Int},
    b.LevelState ps o price i →
    (0 < rem ∨ (b.view ps).queue o.side.opposite i ≠ []) →
    ((¬ 0 < rem ∧ 0 < fuel) ∨ ((b.view ps).queue o.side.opposite i).length < fuel) →
    ∃ stp b₁ ps₁ rem₁ ts vs,
      (∀ out : Sinks,
        matchLevel o price i fuel ⟨b, out, rem⟩ = some (stp, ⟨b₁, out.pushAll ts vs, rem₁⟩)) ∧
      LevelRun o b ps rem price i stp b₁ ps₁ rem₁ ts vs := by
  intro fuel
  induction fuel with
  | zero =>
    intro b ps rem _ _ hfuel
    omega
  | succ n ih =>
    intro b ps rem hs hlook hfuel
    by_cases hrem : 0 < rem
    · have hlen : ((b.view ps).queue o.side.opposite i).length < n + 1 :=
        hfuel.resolve_left fun h => h.1 hrem
      cases hq : (b.view ps).queue o.side.opposite i with
      | nil =>
        obtain ⟨hcode, hrun⟩ := matchLevel_stale n hs hrem hq
        exact ⟨false, b, ps, rem, [], [], fun out => by rw [hcode, Sinks.pushAll_nil], hrun⟩
      | cons x xs =>
        rw [hq, List.length_cons] at hlen
        have hn : 0 < n := by omega
        obtain ⟨p, hhead, hdata, ha⟩ := atHead_of_queue hs.repr hs.slot_lt hq
        subst hdata
        have hfront := hs.front_eq.trans hq
        simp only [matchLevel, if_pos hrem, hhead]
        by_cases hp : (b.heap p).participant = o.participant
        · simp only [if_pos hp]
          have ha' : b.AtHead ps o (b.cfg.slot price) p := by
            rw [hs.slot]
            exact ha
          obtain ⟨b', ps', hcode, hview, hr'⟩ :=
            removeVictim_spec rem hs.repr hs.wf hs.inRange ha'
          rw [hs.slot] at hcode
          have hafter : b'.view ps' = (b.view ps).afterVictim o (b.heap p).data := by
            rw [hview, QueueBook.afterVictim, hs.best]
            rfl
          cases hstp : b.cfg.stp with
          | cancelAggressor =>
            refine ⟨true, b, ps, rem, [], [], fun out => by rw [Sinks.pushAll_nil], ?_⟩
            exact LevelRun.of_stop hs.repr (.stpAggressor (hs.looks hrem) hfront hp hstp)
          | cancelPassive =>
            simp only [hcode, Option.bind_eq_bind, Option.bind_some]
            refine matchLevel_victim hs hrem hq hp hstp hr' hafter hn fun hs' hne => ?_
            refine ih hs' (Or.inr hne) (Or.inr ?_)
            have hle := remove_head_queue hq
            rw [hafter, QueueBook.afterVictim_queue]
            omega
          | cancelBoth =>
            refine ⟨true, b', ps', rem, [], [(b.heap p).data], fun out => ?_, ?_⟩
            · dsimp only
              rw [hcode, ← Sinks.pushVictim_pushAll, Sinks.pushAll_nil]
              rfl
            · refine LevelRun.of_stop hr' ?_
              rw [hafter]
              exact .stpBoth (hs.looks hrem) hfront hp hstp
        · obtain ⟨b', ps', hcode, hview, hr'⟩ := trade_spec rem hs.repr hs.wf ha
          simp only [if_neg hp, hcode, Option.bind_eq_bind, Option.bind_some]
          refine matchLevel_trade hs hrem hq hp hr' hview hn fun hs' hne => ?_
          refine ih hs' (Or.inr hne) ?_
          by_cases hrem' : 0 < rem - min rem (b.heap p).remaining
          · right
            have hfull : (b.heap p).data.remaining = min rem (b.heap p).remaining := by
              change (b.heap p).remaining = _
              omega
            have hle := remove_head_queue hq
            rw [hview, QueueBook.fill, if_pos hfull]
            exact hle.trans_lt (by omega)
          · exact Or.inl ⟨hrem', hn⟩
    · have hq := hlook.resolve_left hrem
      have hne : ¬ b.levelIsEmpty o.side.opposite i = true :=
        mt (levelIsEmpty_iff hs.repr hs.slot_lt).1 hq
      have hsame : b.afterLevel o.side.opposite i price = b := by rw [afterLevel, if_neg hne]
      refine ⟨false, b, ps, rem, [], [], fun out => by
        rw [matchLevel_of_filled hrem, Sinks.pushAll_nil], ?_⟩
      refine ⟨fun h => absurd h Bool.false_ne_true, fun _ => ?_, fun _ => ?_, fun _ oc ts' vs' q' rem' hm => ?_,
        fun _ => Or.inl hrem⟩
      · rw [hsame]
        exact hs.repr
      · rw [hsame]
        exact hs.wf
      · rw [hsame] at hm
        exact hm

end Inner

/-! ## The outer loop -/

theorem queue_length_le (hr : b.Repr ps none) (s : Side) (i : Nat) :
    ((b.view ps).queue s i).length < b.pool.inUse + 1 := by
  have hle : ((b.view ps).queue s i).length ≤ (b.view ps).orders.length :=
    List.length_filter_le ..
  rw [view, List.length_map] at hle
  rw [hr.live.inUse]
  exact Nat.lt_succ_of_le hle

theorem hasBest_iff (hr : b.Repr ps none) (s : Side) :
    (b.sideOf s).hasBest = true ↔ (b.view ps).best s ≠ emptySentinel s := by
  rw [LevelMap.hasBest, decide_eq_true_eq, (hr.isSide s).side, view_best]

/-- **The match loop** ends within its bound, and is one `Match`. -/
theorem matchLoop_spec : ∀ (fuel : Nat) {b : OrderBook} {ps : List Ptr} {rem : Int},
    b.Repr ps none → (b.view ps).Wf →
    ((¬ 0 < rem ∧ 0 < fuel) ∨ (b.view ps).distance o.side.opposite < fuel) →
    ∃ oc b' ps' rem' ts vs,
      (∀ out : Sinks,
        matchLoop o fuel ⟨b, out, rem⟩ = some (oc, ⟨b', out.pushAll ts vs, rem'⟩)) ∧
      b'.Repr ps' none ∧ (b.view ps).Match o rem oc ts vs (b'.view ps') rem' := by
  intro fuel
  induction fuel with
  | zero =>
    intro b ps rem _ _ hfuel
    omega
  | succ n ih =>
    intro b ps rem hr hw hfuel
    have hbest := hasBest_iff hr o.side.opposite
    simp only [matchLoop]
    by_cases hgo : 0 < rem ∧ (b.sideOf o.side.opposite).hasBest = true
    · simp only [if_pos hgo]
      have hne := hbest.1 hgo.2
      have hpos := QueueBook.distance_pos hw hne
      have hrange : b.cfg.inRange ((b.view ps).best o.side.opposite) = true :=
        (hw.best o.side.opposite).resolve_left hne
      by_cases hc : crosses o.type o.side o.price (b.sideOf o.side.opposite).best = true
      · simp only [if_pos hc]
        rw [← view_best b ps] at hc ⊢
        have hs : b.LevelState ps o ((b.view ps).best o.side.opposite)
            (b.cfg.slot ((b.view ps).best o.side.opposite)) := ⟨hr, hw, rfl, hne, hc, rfl⟩
        obtain ⟨stp, b₁, ps₁, rem₁, ts, vs, hcode, hrun⟩ :=
          matchLevel_spec (b.pool.inUse + 1) hs (Or.inl hgo.1)
            (Or.inr (queue_length_le hr _ _))
        rw [hr.levelAt_eq _ hrange]
        simp only [Option.bind_eq_bind, Option.bind_some, hcode]
        cases stp with
        | true =>
          obtain ⟨hr₁, hm⟩ := hrun.stopped rfl
          exact ⟨.stpFired, b₁, ps₁, rem₁, ts, vs, fun out => rfl, hr₁, hm⟩
        | false =>
          obtain ⟨oc, b', ps', rem', ts', vs', hcode', hr', hm'⟩ :=
            ih (hrun.repr rfl) (hrun.wf rfl) (by
              rcases hrun.closer rfl with h | h
              · exact Or.inl ⟨h, by omega⟩
              · exact Or.inr (by omega))
          refine ⟨oc, b', ps', rem', ts ++ ts', vs ++ vs', fun out => ?_, hr', hrun.goesOn rfl hm'⟩
          rw [← Sinks.pushAll_pushAll, ← hcode']
          rfl
      · simp only [if_neg hc]
        refine ⟨.noLongerCrosses, b, ps, rem, [], [], fun out => by rw [Sinks.pushAll_nil], hr, ?_⟩
        rw [Bool.not_eq_true, ← view_best b ps] at hc
        exact .noLongerCrosses hgo.1 hne hc
    · simp only [if_neg hgo]
      refine ⟨.exhausted, b, ps, rem, [], [], fun out => by rw [Sinks.pushAll_nil], hr,
        .exhausted ?_⟩
      rwa [hbest] at hgo

/-- **Matching** is defined on every represented book. -/
theorem matchInto_spec (rem : Int) (hr : b.Repr ps none) (hw : (b.view ps).Wf) :
    ∃ oc b' ps' rem' ts vs,
      (∀ out, b.matchInto o out rem = some (oc, ⟨b', out.pushAll ts vs, rem'⟩)) ∧
      b'.Repr ps' none ∧ (b.view ps).Match o rem oc ts vs (b'.view ps') rem' := by
  refine matchLoop_spec _ hr hw (Or.inr ?_)
  have hle : (b.view ps).distance o.side.opposite ≤ b.cfg.numSlots := QueueBook.distance_le hw _
  have hn : b.bids.numSlots = b.cfg.numSlots := hr.numSlots .buy
  omega

end OrderBook

end Velox
