import Velox.Marketdata.Naming

/-!
# The market-data publisher

Following `marketdata/publisher.hpp`, `marketdata/feed_messages.hpp` and
`marketdata/mirror_digest.hpp`. The publisher reads the outbound events, keeps a mirror of the book
and the total it last sent for each level, and sends a delta when an event has changed a total. The
encoding of the messages is left out: a sink is handed the messages themselves.

`Synced p r` says that the publisher's mirror holds the replica `r` and that the totals it has sent
are those of the mirror. Reading an event keeps this, as long as the event does not contradict `r`
(`Replica.Admits`), and then sends exactly the delta that the change of its level calls for
(`Synced.applyAndPublish`).
-/

namespace Velox

/-! ## Feed messages -/

inductive L2Action where
  | add
  | modify
  | delete
  deriving DecidableEq, Repr

inductive L3Action where
  | rested
  | cancelled
  | replaced
  deriving DecidableEq, Repr

structure L2DeltaMsg where
  side : Side
  action : L2Action
  price : Int
  totalQty : Int
  orderCount : Nat
  deriving DecidableEq, Repr

structure L3OrderMsg where
  action : L3Action
  orderId : Int
  side : Side
  price : Int
  quantity : Int
  remaining : Int
  participant : Int
  deriving DecidableEq, Repr

structure L3FillMsg where
  orderId : Int
  tradeId : Int
  price : Int
  quantity : Int
  remaining : Int
  deriving DecidableEq, Repr

structure TradeTickMsg where
  tradeId : Int
  aggressorId : Int
  passiveId : Int
  price : Int
  quantity : Int
  aggressorSide : Side
  deriving DecidableEq, Repr

inductive FeedBody where
  | l2Delta (m : L2DeltaMsg)
  | l3Order (m : L3OrderMsg)
  | l3Fill (m : L3FillMsg)
  | tradeTick (m : TradeTickMsg)
  | snapshotStart (restingOrders : Nat)
  | snapshotEnd (crc32 : UInt32)
  deriving DecidableEq, Repr

/-- Every message carries its instrument and its number in the feed. -/
structure FeedMsg where
  instrumentId : UInt32
  feedSeq : Nat
  body : FeedBody
  deriving DecidableEq, Repr

/-- These messages, numbered from `seq + 1` on. -/
def numbered (instrumentId : UInt32) (seq : Nat) (bodies : List FeedBody) : List FeedMsg :=
  bodies.mapIdx fun i body => ⟨instrumentId, seq + i + 1, body⟩

/-! ## Snapshots of the mirror -/

namespace BookMirror

/-- `digestOf(mirror).bodyCrc32`. -/
def bodyCrc32 (m : BookMirror) : UInt32 :=
  crc32 (m.forEachOrder.flatMap fun x => (OrderRecord.ofOrder x).encode)

def snapshotOrder (x : RestingOrder) : FeedBody :=
  .l3Order ⟨.rested, x.id, x.side, x.price, x.quantity, x.remaining, x.participant⟩

/-- A snapshot on the wire: every resting order, between two brackets. -/
def snapshotBodies (m : BookMirror) : List FeedBody :=
  [.snapshotStart m.restingOrders] ++ m.forEachOrder.map snapshotOrder ++ [.snapshotEnd m.bodyCrc32]

/-- The snapshot for one subscriber; it has a numbering of its own. -/
def emitSnapshotBurst (instrumentId : UInt32) (m : BookMirror) : List FeedMsg :=
  numbered instrumentId 0 m.snapshotBodies

end BookMirror

/-! ## The publisher -/

structure Publisher where
  instrumentId : UInt32
  mirror : BookMirror
  bidTotals : SortedMap Int Int
  askTotals : SortedMap Int Int
  feedSeq : Nat

def L3Action.ofUpdate : UpdateAction → Option L3Action
  | .rested => some .rested
  | .cancelled => some .cancelled
  | .replaced => some .replaced
  | .rejected => none

/-- The action of a delta between two different totals. -/
def L2Action.between (oldTotal newTotal : Int) : L2Action :=
  if oldTotal = 0 then .add else if newTotal = 0 then .delete else .modify

namespace Publisher

def start (instrumentId : UInt32) : Publisher := ⟨instrumentId, .empty, .empty, .empty, 0⟩

def totals (p : Publisher) : Side → SortedMap Int Int
  | .buy => p.bidTotals
  | .sell => p.askTotals

def setTotals (p : Publisher) : Side → SortedMap Int Int → Publisher
  | .buy, totals => { p with bidTotals := totals }
  | .sell, totals => { p with askTotals := totals }

def publishMsg (p : Publisher) (body : FeedBody) : Publisher × FeedMsg :=
  ({ p with feedSeq := p.feedSeq + 1 }, ⟨p.instrumentId, p.feedSeq + 1, body⟩)

def diffLevel (p : Publisher) (side : Side) (price : Int) : Publisher × List FeedMsg :=
  let newTotal := p.mirror.levelTotal side price
  let oldTotal := ((p.totals side).find price).getD 0
  if newTotal = oldTotal then (p, [])
  else
    let totals := if newTotal = 0 then (p.totals side).erase price
      else (p.totals side).put price newTotal
    let (p, delta) := (p.setTotals side totals).publishMsg (.l2Delta ⟨side,
      .between oldTotal newTotal, price, newTotal, p.mirror.levelOrderCount side price⟩)
    (p, [delta])

def applyAndPublish (p : Publisher) (ev : OutboundEvent) : Publisher × List FeedMsg :=
  let p := { p with mirror := p.mirror.apply ev }
  match ev with
  | .trade t _ =>
    let (p, tick) := p.publishMsg (.tradeTick ⟨t.id, t.aggressorId, t.passiveId, t.price, t.quantity,
      t.aggressorSide⟩)
    let (p, fill) := p.publishMsg (.l3Fill ⟨t.passiveId, t.id, t.price, t.quantity,
      p.mirror.remainingOf t.passiveId⟩)
    let (p, delta) := p.diffLevel t.aggressorSide.opposite t.price
    (p, tick :: fill :: delta)
  | .orderUpdate action side u _ _ =>
    match L3Action.ofUpdate action with
    -- It never rested: there is nothing to tell a subscriber.
    | none => (p, [])
    | some action =>
      let (p, order) := p.publishMsg (.l3Order ⟨action, u.orderId, side, u.price, u.quantity,
        u.remaining, u.participant⟩)
      let (p, delta) := p.diffLevel side u.price
      (p, order :: delta)
  | .status _ _ _ => (p, [])

/-- The events of the ring, as long as the publisher is not lapped. -/
def pump (p : Publisher) : List OutboundEvent → Publisher × List FeedMsg
  | [] => (p, [])
  | ev :: evs =>
    let (p, sent) := p.applyAndPublish ev
    let (p, rest) := p.pump evs
    (p, sent ++ rest)

def seedLevelTotals (p : Publisher) : Publisher :=
  p.mirror.forEachOrder.foldl (fun p x => p.setTotals x.side
    ((p.totals x.side).put x.price (p.mirror.levelTotal x.side x.price))) p

/-- The publisher was lapped: the mirror starts again from what the snapshot source loads. -/
def resync (p : Publisher) (source : BookMirror) : Publisher × List FeedMsg :=
  let cleared : Publisher := ⟨p.instrumentId, source, .empty, .empty,
    p.feedSeq + source.snapshotBodies.length⟩
  (cleared.seedLevelTotals, numbered p.instrumentId p.feedSeq source.snapshotBodies)

end Publisher

/-! ## The level an event changes -/

namespace Replica

/-- What remains on a level, in a 64-bit variable. -/
def total (r : Replica) (loc : Location) : Int :=
  wrap64 ((restingAt loc.side loc.price r.orders).map RestingOrder.remaining).sum

def count (r : Replica) (loc : Location) : Nat := (restingAt loc.side loc.price r.orders).length

/-- The delta that tells of a change of this level. -/
def delta? (r r' : Replica) (loc : Location) : Option L2DeltaMsg :=
  if r'.total loc = r.total loc then none
  else some ⟨loc.side, .between (r.total loc) (r'.total loc), loc.price, r'.total loc, r'.count loc⟩

/-- If the event is about an order at rest, that order is where the event says and does not come
to rest again. -/
def Admits (r : Replica) (e : OutboundEvent) : Prop :=
  ∀ loc ∈ e.level?, ∀ x ∈ r.orders, x.id = e.subject → e.rests = false ∧ x.location = loc

section Admits

variable {r : Replica} {e : OutboundEvent} {loc : Location}

theorem restingAt_fillOrder (s : Side) (p id qty : Int) (xs : List RestingOrder) :
    restingAt s p (fillOrder id qty xs) = fillOrder id qty (restingAt s p xs) := by
  rw [fillOrder, fillOrder, ← restingAt_takenOff, restingAt, restingAt, List.filter_comm]

theorem Names.admits (h : r.Names e) (hn : (r.orders.map RestingOrder.id).Nodup) : r.Admits e := by
  intro loc hloc y hy hid
  cases h with
  | status | rejected => cases hloc
  | trade hx hxid hxloc =>
    cases hloc
    rw [List.inj_on_of_nodup_map hn hy hx (hid.trans hxid.symm)]
    exact ⟨rfl, hxloc⟩
  | rested hnew => exact absurd hid (hnew y hy)
  | cancelled hx hxid hxloc =>
    cases hloc
    rw [List.inj_on_of_nodup_map hn hy hx (hid.trans hxid.symm)]
    exact ⟨rfl, hxloc⟩

/-- The other levels stay as they are. -/
theorem Admits.restingAt_eq (h : r.Admits e) (hloc : e.level? ≠ some loc) :
    restingAt loc.side loc.price (r.apply e).orders = restingAt loc.side loc.price r.orders := by
  -- An order of this level is not the one the event is about.
  have hne : e.level? ≠ none → ∀ y ∈ restingAt loc.side loc.price r.orders, y.id ≠ e.subject := by
    intro hsome y hy hid
    obtain ⟨hy, hside, hprice⟩ := mem_restingAt.1 hy
    obtain ⟨loc', hloc'⟩ := Option.ne_none_iff_exists'.1 hsome
    obtain ⟨-, rfl⟩ := h loc' hloc' y hy hid
    apply hloc
    rw [hloc', RestingOrder.location, hside, hprice]
  cases e with
  | status => rfl
  | trade t n =>
    exact (restingAt_fillOrder ..).trans (fillOrder_of_forall_ne (hne (Option.some_ne_none _)))
  | orderUpdate action side u st n =>
    cases action with
    | rejected => rfl
    | cancelled | replaced =>
      exact (restingAt_dropOrder ..).trans (dropOrder_of_forall_ne (hne (Option.some_ne_none _)))
    | rested =>
      refine (restingAt_concat ..).trans ?_
      rw [if_neg, List.append_nil]
      rintro ⟨hside, hprice⟩
      exact hloc (congrArg some (congrArg₂ Location.mk hside hprice))

theorem Admits.total_eq (h : r.Admits e) (hloc : e.level? ≠ some loc) :
    (r.apply e).total loc = r.total loc := by
  rw [Replica.total, h.restingAt_eq hloc, Replica.total]

theorem Admits.mirrors {m : BookMirror} (h : r.Admits e) (hm : m.Mirrors r) :
    (m.apply e).Mirrors (r.apply e) := by
  refine hm.apply fun hrests => ?_
  cases e with
  | trade | status => cases hrests
  | orderUpdate action side u st n =>
    cases action with
    | cancelled | replaced | rejected => cases hrests
    | rested =>
      change ((r.orders ++ [u.order side]).map RestingOrder.id).Nodup
      rw [List.map_append, List.nodup_append]
      refine ⟨hm.ids, List.nodup_singleton _, fun a ha b hb hab => ?_⟩
      obtain ⟨y, hy, rfl⟩ := List.mem_map.1 ha
      rw [List.map_singleton, List.mem_singleton] at hb
      obtain ⟨hno, -⟩ := h _ rfl y hy (hab.trans hb)
      cases hno

end Admits

/-! ## Every event shows -/

/-- The ids are unique, and what remains of each order is a positive 64-bit value. -/
structure Sound (r : Replica) : Prop where
  ids : (r.orders.map RestingOrder.id).Nodup
  remaining : ∀ x ∈ r.orders, 0 < x.remaining ∧ x.remaining < 2 ^ 63

section Sound

variable {r : Replica} {e : OutboundEvent} {xs : List RestingOrder} {x : RestingOrder}

theorem sound_empty : empty.Sound := ⟨List.nodup_nil, fun x hx => (by cases hx)⟩

theorem sum_dropOrder (hn : (xs.map RestingOrder.id).Nodup) (hx : x ∈ xs) :
    (xs.map RestingOrder.remaining).sum =
      x.remaining + ((dropOrder x.id xs).map RestingOrder.remaining).sum := by
  rw [((perm_cons_dropOrder hn hx).map RestingOrder.remaining).sum_eq, List.map_cons, List.sum_cons]

/-- A fill takes its quantity off the sum. -/
theorem sum_fillOrder (hn : (xs.map RestingOrder.id).Nodup) (hx : x ∈ xs) {qty : Int}
    (hle : qty ≤ x.remaining) :
    ((fillOrder x.id qty xs).map RestingOrder.remaining).sum =
      (xs.map RestingOrder.remaining).sum - qty := by
  rw [sum_dropOrder hn hx]
  rcases lt_or_eq_of_le hle with hlt | rfl
  · -- Something is left of the order, which still is in front of the others.
    have hperm := (perm_cons_dropOrder hn hx).map fun y : RestingOrder =>
      if y.id = x.id then { y with remaining := y.remaining - qty } else y
    have hrest : takenOff x.id qty (dropOrder x.id xs) = dropOrder x.id xs :=
      takenOff_of_forall_ne fun y hy => of_decide_eq_true (List.mem_filter.1 hy).2
    rw [fillOrder_eq_takenOff hn hx (by omega), takenOff, (hperm.map RestingOrder.remaining).sum_eq,
      List.map_cons, if_pos rfl, ← takenOff, hrest, List.map_cons, List.sum_cons]
    ring
  · rw [fillOrder_eq_dropOrder hn hx (by omega)]
    ring

theorem Names.sound (h : r.Names e) (hr : r.Sound) : (r.apply e).Sound := by
  have hdrop : ∀ id, (dropOrder id r.orders).Sublist r.orders := fun id => List.filter_sublist
  cases h with
  | status | rejected => exact ⟨hr.ids, hr.remaining⟩
  | @trade t n x hx hid _ hpos hle =>
    change Sound ⟨fillOrder t.passiveId t.quantity r.orders, _, _⟩
    rw [← hid]
    rcases lt_or_eq_of_le hle with hlt | heq
    · rw [fillOrder_eq_takenOff hr.ids hx (by omega)]
      refine ⟨by rw [takenOff_ids]; exact hr.ids, fun y hy => ?_⟩
      obtain ⟨z, hz, rfl⟩ := List.mem_map.1 hy
      have hz' := hr.remaining z hz
      split
      · next hzid =>
        rw [List.inj_on_of_nodup_map hr.ids hz hx hzid]
        have hx' := hr.remaining x hx
        constructor <;> dsimp only <;> omega
      · exact hz'
    · rw [fillOrder_eq_dropOrder hr.ids hx (by omega)]
      exact ⟨((hdrop _).map _).nodup hr.ids, fun y hy => hr.remaining y ((hdrop _).mem hy)⟩
  | @rested side u st n hnew hpos hlt =>
    constructor
    · change ((r.orders ++ [u.order side]).map RestingOrder.id).Nodup
      rw [List.map_append, List.nodup_append]
      refine ⟨hr.ids, List.nodup_singleton _, fun a ha b hb hab => ?_⟩
      obtain ⟨y, hy, rfl⟩ := List.mem_map.1 ha
      rw [List.map_singleton, List.mem_singleton] at hb
      exact hnew y hy (hab.trans hb)
    · intro y hy
      rcases List.mem_append.1 hy with hy | hy
      · exact hr.remaining y hy
      · rw [List.mem_singleton.1 hy]
        exact ⟨hpos, hlt⟩
  | cancelled hx hid hloc =>
    exact ⟨((hdrop _).map _).nodup hr.ids, fun y hy => hr.remaining y ((hdrop _).mem hy)⟩

theorem NamesAll.sound {es : List OutboundEvent} (h : r.NamesAll es) (hr : r.Sound) :
    (r.applyAll es).Sound := by
  induction es generalizing r with
  | nil => exact hr
  | cons e es ih => exact ih h.2 (h.1.sound hr)

/-- **The event changes the total of its level.** -/
theorem Names.total_ne (h : r.Names e) (hr : r.Sound) {loc : Location} (hloc : e.level? = some loc) :
    (r.apply e).total loc ≠ r.total loc := by
  have hn := BookMirror.restingAt_nodup hr.ids loc.side loc.price
  cases h with
  | status | rejected => cases hloc
  | @trade t n x hx hid hxloc hpos hle =>
    cases hloc
    obtain ⟨hside, hprice⟩ := Location.mk.inj hxloc
    have hx' := mem_restingAt.2 ⟨hx, hside, hprice⟩
    have hlt := (hr.remaining x hx).2
    change wrap64 ((restingAt _ _ (fillOrder t.passiveId t.quantity r.orders)).map _).sum ≠ _
    rw [restingAt_fillOrder, ← hid, sum_fillOrder hn hx' hle, sub_eq_add_neg]
    exact wrap64_add_ne _ (by omega) (by omega) (by omega)
  | @rested side u st n hnew hpos hlt =>
    cases hloc
    change wrap64 ((restingAt side u.price (r.orders ++ [u.order side])).map _).sum ≠ _
    rw [restingAt_concat, if_pos (by exact ⟨rfl, rfl⟩), List.map_append, List.sum_append]
    have hsum : ([u.order side].map RestingOrder.remaining).sum = u.remaining :=
      (List.sum_singleton).trans rfl
    rw [hsum]
    exact wrap64_add_ne _ (by omega) (by omega) (by omega)
  | @cancelled side u st n x hx hid hxloc =>
    cases hloc
    obtain ⟨hside, hprice⟩ := Location.mk.inj hxloc
    have hx' := mem_restingAt.2 ⟨hx, hside, hprice⟩
    have hrem := hr.remaining x hx
    change wrap64 ((restingAt _ _ (dropOrder u.orderId r.orders)).map _).sum ≠ _
    rw [restingAt_dropOrder, ← hid, Replica.total, sum_dropOrder hn hx', add_comm]
    exact (wrap64_add_ne _ (by omega) (by omega) (by omega)).symm

end Sound

end Replica

/-! ## Totals sent and totals held -/

def FeedMsg.delta? (m : FeedMsg) : Option L2DeltaMsg :=
  match m.body with
  | .l2Delta d => some d
  | _ => none

theorem wrap64_foldl (xs : List MirrorOrder) (n : Int) :
    xs.foldl (fun total o => wrap64 (total + o.remaining)) (wrap64 n) =
      wrap64 (n + (xs.map MirrorOrder.remaining).sum) := by
  induction xs generalizing n with
  | nil => simp
  | cons o xs ih =>
    rw [List.foldl_cons, wrap64_add_wrap64, ih, List.map_cons, List.sum_cons, add_assoc]

namespace BookMirror

variable {m : BookMirror} {r : Replica}

theorem Mirrors.deque_getD (h : m.Mirrors r) (loc : Location) :
    (m.deque loc).getD [] =
      (restingAt loc.side loc.price r.orders).map RestingOrder.mirrored := by
  rw [h.deque, dequeOf]
  split
  · next hnil => rw [hnil]; rfl
  · rfl

theorem Mirrors.levelTotal_eq (h : m.Mirrors r) (loc : Location) :
    m.levelTotal loc.side loc.price = r.total loc := by
  have hsum := wrap64_foldl ((restingAt loc.side loc.price r.orders).map RestingOrder.mirrored) 0
  rw [List.map_map, zero_add] at hsum
  rw [levelTotal, h.deque_getD]
  exact hsum

theorem Mirrors.levelOrderCount_eq (h : m.Mirrors r) (loc : Location) :
    m.levelOrderCount loc.side loc.price = r.count loc := by
  rw [levelOrderCount, h.deque_getD, List.length_map]
  rfl

end BookMirror

namespace Publisher

/-- The mirror holds the replica, and the totals that were sent are its totals. -/
structure Synced (p : Publisher) (r : Replica) : Prop where
  mirrors : p.mirror.Mirrors r
  totals : ∀ loc : Location, ((p.totals loc.side).find loc.price).getD 0 = r.total loc

section Synced

variable {p : Publisher} {r r' : Replica} {e : OutboundEvent}

theorem totals_setTotals (p : Publisher) (s t : Side) (l : SortedMap Int Int) :
    (p.setTotals s l).totals t = if t = s then l else p.totals t := by
  cases s <;> cases t <;> rfl

@[simp] theorem mirror_setTotals (p : Publisher) (s : Side) (l : SortedMap Int Int) :
    (p.setTotals s l).mirror = p.mirror := by
  cases s <;> rfl

/-- The entry of a level is overwritten, or erased for a total of 0. -/
theorem getD_find_setTotals (p : Publisher) (loc loc' : Location) (n : Int) :
    (((p.setTotals loc.side (if n = 0 then (p.totals loc.side).erase loc.price
      else (p.totals loc.side).put loc.price n)).totals loc'.side).find loc'.price).getD 0 =
      if loc' = loc then n else ((p.totals loc'.side).find loc'.price).getD 0 := by
  obtain ⟨s, q⟩ := loc
  obtain ⟨s', q'⟩ := loc'
  simp only [totals_setTotals, Location.mk.injEq]
  by_cases hs : s' = s
  · subst hs
    simp only [if_true, true_and]
    split
    · next hn =>
      rw [SortedMap.find_erase]
      split
      · exact hn.symm
      · rfl
    · rw [SortedMap.find_put]
      split <;> rfl
  · rw [if_neg hs, if_neg fun h => hs h.1]

/-- The level that changed is compared: a delta is sent if its total is another one. -/
theorem diffLevel_synced {loc : Location} (hm : p.mirror.Mirrors r')
    (ht : ∀ loc : Location, ((p.totals loc.side).find loc.price).getD 0 = r.total loc)
    (hsame : ∀ loc' ≠ loc, r'.total loc' = r.total loc') :
    (p.diffLevel loc.side loc.price).1.Synced r' ∧
      (p.diffLevel loc.side loc.price).2.filterMap FeedMsg.delta? = (r.delta? r' loc).toList := by
  simp only [diffLevel, hm.levelTotal_eq, ht, hm.levelOrderCount_eq, Replica.delta?]
  split
  · next heq =>
    refine ⟨⟨hm, fun loc' => (ht loc').trans ?_⟩, rfl⟩
    by_cases hloc : loc' = loc
    · rw [hloc, heq]
    · exact (hsame loc' hloc).symm
  · refine ⟨⟨?_, fun loc' => ?_⟩, rfl⟩
    · change (p.setTotals _ _).mirror.Mirrors r'
      rw [mirror_setTotals]
      exact hm
    · refine (getD_find_setTotals p loc loc' (r'.total loc)).trans ?_
      split
      · next hloc => rw [hloc]
      · next hloc => exact (ht loc').trans (hsame loc' hloc).symm

/-- **Reading an event**: the publisher keeps up with it and sends the delta of its level. -/
theorem Synced.applyAndPublish (h : p.Synced r) (he : r.Admits e) :
    (p.applyAndPublish e).1.Synced (r.apply e) ∧
      (p.applyAndPublish e).2.filterMap FeedMsg.delta? =
        (e.level?.bind (r.delta? (r.apply e))).toList := by
  have hm := he.mirrors h.mirrors
  have hsame : ∀ loc, e.level? ≠ some loc → (r.apply e).total loc = r.total loc :=
    fun _ => he.total_eq
  have hquiet : e.level? = none → Synced { p with mirror := p.mirror.apply e } (r.apply e) :=
    fun hnone => ⟨hm, fun loc => (h.totals loc).trans (hsame loc (by rw [hnone]; nofun)).symm⟩
  -- The messages before the delta only advance the numbering.
  have hdiff : ∀ n : Nat, ∀ loc ∈ e.level?,
      ((⟨p.instrumentId, p.mirror.apply e, p.bidTotals, p.askTotals, n⟩ : Publisher).diffLevel
        loc.side loc.price).1.Synced (r.apply e) ∧
      ((⟨p.instrumentId, p.mirror.apply e, p.bidTotals, p.askTotals, n⟩ : Publisher).diffLevel
        loc.side loc.price).2.filterMap FeedMsg.delta? = (r.delta? (r.apply e) loc).toList := by
    intro n loc hloc
    refine diffLevel_synced hm (fun loc' => ?_) fun loc' hne => hsame loc' fun heq => hne ?_
    · rw [← h.totals loc']
      cases loc'.side <;> rfl
    · exact Option.some.inj (heq.symm.trans hloc)
  cases e with
  | status => exact ⟨hquiet rfl, rfl⟩
  | trade t n => exact hdiff _ ⟨t.aggressorSide.opposite, t.price⟩ rfl
  | orderUpdate action side u st n =>
    cases action with
    | rejected => exact ⟨hquiet rfl, rfl⟩
    | rested | cancelled | replaced => exact hdiff _ ⟨side, u.price⟩ rfl

end Synced

end Publisher

end Velox
