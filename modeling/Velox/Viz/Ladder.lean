import Velox.Lib.Replay
import Velox.Marketdata.Restart
import Velox.Marketdata.SnapshotSource

/-!
# The subscriber's ladder

Following `viz/ladder.hpp` and the dispatch of `viz/md_client.hpp`: the totals and order counts of
the levels, built from a snapshot burst and from the deltas after it.

A delta carries the new total of its level, so that to a ladder outside a burst the feed is a log of
assignments (`Ladder.level_readAll`). The deltas of a run are the assignments that lead from the
levels before it to the levels after it (`Synced.pump_shown`). A subscriber who joins late has a
copy of the levels that may be ahead of the deltas it hears next, and `Replay.replay_late` says that
this does no harm.
-/

namespace Velox

structure LevelAgg where
  qty : Int
  orders : Nat
  deriving DecidableEq, Repr

structure TradePrint where
  price : Int
  qty : Int
  aggressorSide : Side
  deriving DecidableEq, Repr

/-- As in the mirror, the keys are the ranks of the prices. -/
structure Ladder where
  bids : SortedMap Int LevelAgg
  asks : SortedMap Int LevelAgg
  trades : List TradePrint
  tradeCount : Nat
  inBurst : Bool

namespace Ladder

def kMaxTrades : Nat := 50

def empty : Ladder := ⟨.empty, .empty, [], 0, false⟩

def levels (l : Ladder) : Side → SortedMap Int LevelAgg
  | .buy => l.bids
  | .sell => l.asks

def setLevels (l : Ladder) : Side → SortedMap Int LevelAgg → Ladder
  | .buy, levels => { l with bids := levels }
  | .sell, levels => { l with asks := levels }

/-- What the ladder shows at a price. -/
def level (l : Ladder) (loc : Location) : Option LevelAgg :=
  (l.levels loc.side).find (loc.side.rank loc.price)

def onSnapshotStart (l : Ladder) : Ladder :=
  { l with inBurst := true, bids := .empty, asks := .empty }

def onSnapshotEnd (l : Ladder) : Ladder := { l with inBurst := false }

def onL3Order (l : Ladder) (m : L3OrderMsg) : Ladder :=
  if l.inBurst = false ∨ m.action ≠ .rested then l
  else
    let agg := (l.level ⟨m.side, m.price⟩).getD ⟨0, 0⟩
    l.setLevels m.side ((l.levels m.side).put (m.side.rank m.price)
      ⟨wrap64 (agg.qty + m.remaining), agg.orders + 1⟩)

def applyLevel (levels : SortedMap Int LevelAgg) (m : L2DeltaMsg) : SortedMap Int LevelAgg :=
  if m.action = .delete then levels.erase (m.side.rank m.price)
  else levels.put (m.side.rank m.price) ⟨m.totalQty, m.orderCount⟩

def onL2Delta (l : Ladder) (m : L2DeltaMsg) : Ladder :=
  l.setLevels m.side (applyLevel (l.levels m.side) m)

/-- The last `kMaxTrades` trades are kept. -/
def onTrade (l : Ladder) (t : TradeTickMsg) : Ladder :=
  let trades := l.trades ++ [⟨t.price, t.quantity, t.aggressorSide⟩]
  { l with trades := trades.drop (trades.length - kMaxTrades), tradeCount := l.tradeCount + 1 }

/-- The dispatch of the client, for messages about the instrument it shows. -/
def read (l : Ladder) : FeedBody → Ladder
  | .snapshotStart _ => l.onSnapshotStart
  | .snapshotEnd _ => l.onSnapshotEnd
  | .l3Order m => l.onL3Order m
  | .l2Delta m => l.onL2Delta m
  | .tradeTick t => l.onTrade t
  | .l3Fill _ => l

def readAll (l : Ladder) (ms : List FeedMsg) : Ladder := ms.foldl (fun l m => l.read m.body) l

section Level

variable (l : Ladder) (s t : Side) (levels : SortedMap Int LevelAgg)

theorem levels_setLevels : (l.setLevels s levels).levels t = if t = s then levels else l.levels t := by
  cases s <;> cases t <;> rfl

@[simp] theorem inBurst_setLevels : (l.setLevels s levels).inBurst = l.inBurst := by cases s <;> rfl

theorem level_put (loc loc' : Location) (agg : LevelAgg) :
    (l.setLevels loc.side ((l.levels loc.side).put (loc.side.rank loc.price) agg)).level loc' =
      Function.update l.level loc (some agg) loc' := by
  obtain ⟨s, p⟩ := loc
  obtain ⟨s', p'⟩ := loc'
  simp only [level, levels_setLevels, Function.update_apply, Location.mk.injEq]
  by_cases hs : s' = s
  · subst hs
    simp only [if_true, true_and, SortedMap.find_put]
    by_cases hp : p' = p
    · rw [if_pos (congrArg _ hp), if_pos hp]
    · rw [if_neg fun h => hp (Side.rank_inj h), if_neg hp]
  · rw [if_neg hs, if_neg fun h => hs h.1]

theorem level_erase (loc loc' : Location) :
    (l.setLevels loc.side ((l.levels loc.side).erase (loc.side.rank loc.price))).level loc' =
      Function.update l.level loc none loc' := by
  obtain ⟨s, p⟩ := loc
  obtain ⟨s', p'⟩ := loc'
  simp only [level, levels_setLevels, Function.update_apply, Location.mk.injEq]
  by_cases hs : s' = s
  · subst hs
    simp only [if_true, true_and, SortedMap.find_erase]
    by_cases hp : p' = p
    · rw [if_pos (congrArg _ hp), if_pos hp]
    · rw [if_neg fun h => hp (Side.rank_inj h), if_neg hp]
  · rw [if_neg hs, if_neg fun h => hs h.1]

end Level

end Ladder

/-! ## Deltas are assignments -/

/-- The level a delta sets, and what it is set to. -/
def L2DeltaMsg.assignment (d : L2DeltaMsg) : Location × Option LevelAgg :=
  (⟨d.side, d.price⟩, if d.action = .delete then none else some ⟨d.totalQty, d.orderCount⟩)

/-- The assignments among these messages. -/
def assignments (ms : List FeedMsg) : List (Location × Option LevelAgg) :=
  (ms.filterMap FeedMsg.delta?).map L2DeltaMsg.assignment

/-- The message does not belong to a snapshot. -/
def FeedMsg.live (m : FeedMsg) : Bool :=
  match m.body with
  | .snapshotStart _ | .snapshotEnd _ => false
  | _ => true

namespace Ladder

open Replay

theorem level_onL2Delta (l : Ladder) (d : L2DeltaMsg) :
    (l.onL2Delta d).level = Function.update l.level d.assignment.1 d.assignment.2 := by
  funext loc
  rw [onL2Delta, applyLevel, L2DeltaMsg.assignment]
  split
  · exact l.level_erase ⟨d.side, d.price⟩ loc
  · exact l.level_put ⟨d.side, d.price⟩ loc _

/-- **Outside a burst the feed is a log of assignments.** -/
theorem level_readAll {l : Ladder} (hl : l.inBurst = false) {ms : List FeedMsg}
    (hms : ∀ m ∈ ms, m.live = true) : (l.readAll ms).level = replay l.level (assignments ms) := by
  induction ms generalizing l with
  | nil => rfl
  | cons m ms ih =>
    have hrest := fun m' hm' => hms m' (List.mem_cons_of_mem m hm')
    have hlive := hms m List.mem_cons_self
    obtain ⟨i, n, body⟩ := m
    cases body with
    | snapshotStart | snapshotEnd => cases hlive
    | l3Fill => exact ih hl hrest
    | tradeTick => exact ih hl hrest
    | l3Order m =>
      have hskip : l.onL3Order m = l := by rw [onL3Order, if_pos (Or.inl hl)]
      change ((l.onL3Order m).readAll ms).level = _
      rw [hskip]
      exact ih hl hrest
    | l2Delta d =>
      change ((l.onL2Delta d).readAll ms).level = replay (Function.update l.level _ _) _
      rw [← l.level_onL2Delta d]
      exact ih (by rw [onL2Delta, inBurst_setLevels, hl]) hrest

end Ladder

/-! ## The deltas of a run -/

/-- What deltas alone show of a level: a total of 0 is a level that is gone. -/
def Replica.shown (r : Replica) (loc : Location) : Option LevelAgg :=
  if r.total loc = 0 then none else some ⟨r.total loc, r.count loc⟩

theorem assignments_append (ms ms' : List FeedMsg) :
    assignments (ms ++ ms') = assignments ms ++ assignments ms' := by
  rw [assignments, List.filterMap_append, List.map_append]
  rfl

theorem mem_assignments_of_drop {a : Location × Option LevelAgg} {ms : List FeedMsg} {n : Nat}
    (h : a ∈ assignments (ms.drop n)) : a ∈ assignments ms := by
  rw [← List.take_append_drop n ms, assignments_append]
  exact List.mem_append_right _ h

theorem L2Action.between_eq_delete {oldTotal newTotal : Int} (h : oldTotal ≠ newTotal) :
    between oldTotal newTotal = .delete ↔ newTotal = 0 := by
  rw [between]
  split
  · next hold =>
    rw [hold] at h
    exact ⟨nofun, fun hnew => absurd hnew.symm h⟩
  · split
    · next hnew => exact ⟨fun _ => hnew, fun _ => rfl⟩
    · next hnew => exact ⟨nofun, fun h => absurd h hnew⟩

namespace Publisher

open Replay

section Deltas

variable {p : Publisher} {r : Replica} {e : OutboundEvent} {es : List OutboundEvent}

/-- An event sets its level to what is there after it. -/
theorem Synced.assignments_applyAndPublish (h : p.Synced r) (hr : r.Sound) (he : r.Names e) :
    assignments (p.applyAndPublish e).2 =
      (e.level?.map fun loc => (loc, (r.apply e).shown loc)).toList := by
  rw [assignments, (h.applyAndPublish (he.admits hr.ids)).2]
  cases hloc : e.level? with
  | none => rfl
  | some loc =>
    have hne := he.total_ne hr hloc
    rw [Option.bind_some, Replica.delta?, if_neg hne, Option.toList_some, List.map_singleton,
      Option.map_some, Option.toList_some, L2DeltaMsg.assignment, Replica.shown]
    -- The action is to delete exactly if nothing is left.
    simp only [L2Action.between_eq_delete (Ne.symm hne)]

theorem shown_apply (hr : r.Sound) (he : r.Names e) :
    (r.apply e).shown = replay r.shown
      (e.level?.map fun loc => (loc, (r.apply e).shown loc)).toList := by
  have hadm := he.admits hr.ids
  have hsame : ∀ loc, e.level? ≠ some loc → (r.apply e).shown loc = r.shown loc := by
    intro loc hloc
    rw [Replica.shown, Replica.total, Replica.count, hadm.restingAt_eq hloc]
    rfl
  funext loc
  cases hlevel : e.level? with
  | none => exact hsame loc (by rw [hlevel]; exact (Option.some_ne_none _).symm)
  | some loc' =>
    rw [Option.map_some, Option.toList_some, replay_cons, replay_nil]
    by_cases hloc : loc = loc'
    · rw [hloc, Function.update_self]
    · rw [Function.update_of_ne hloc]
      exact hsame loc fun heq => hloc (Option.some.inj (heq.symm.trans hlevel))

/-- **The deltas of a run are its assignments.** A level without one is as it was. -/
theorem Synced.pump_shown (h : p.Synced r) (hr : r.Sound) (hn : r.NamesAll es) :
    (r.applyAll es).shown = replay r.shown (assignments (p.pump es).2) ∧
      (∀ loc : Location, (∀ a ∈ assignments (p.pump es).2, a.1 ≠ loc) →
        restingAt loc.side loc.price (r.applyAll es).orders =
          restingAt loc.side loc.price r.orders) ∧
      ∀ a ∈ assignments (p.pump es).2, ∀ agg ∈ a.2, agg.qty < 2 ^ 63 := by
  induction es generalizing p r with
  | nil => exact ⟨rfl, fun _ _ => rfl, fun a ha => (nomatch ha)⟩
  | cons e es ih =>
    have hadm := hn.1.admits hr.ids
    obtain ⟨hshown, hlevels, hqty⟩ := ih (h.applyAndPublish hadm).1 (hn.1.sound hr) hn.2
    have hone := h.assignments_applyAndPublish hr hn.1
    have hall : assignments (p.pump (e :: es)).2 =
        (e.level?.map fun loc => (loc, (r.apply e).shown loc)).toList ++
          assignments ((p.applyAndPublish e).1.pump es).2 := by
      rw [← hone, ← assignments_append]
      rfl
    rw [hall]
    refine ⟨?_, fun loc hno => ?_, fun a ha => ?_⟩
    · rw [replay_append, ← shown_apply hr hn.1]
      exact hshown
    · rw [List.forall_mem_append] at hno
      refine (hlevels loc hno.2).trans (hadm.restingAt_eq fun hloc => ?_)
      rw [hloc] at hno
      exact hno.1 _ (List.mem_singleton_self _) rfl
    · rcases List.mem_append.1 ha with ha | ha
      · obtain ⟨loc, -, rfl⟩ := Option.map_eq_some_iff.1 (Option.mem_toList.1 ha)
        intro agg hagg
        rw [Replica.shown] at hagg
        split at hagg
        · cases hagg
        · cases hagg
          exact wrap64_lt _
      · exact hqty a ha

theorem pump_cons (p : Publisher) (e : OutboundEvent) (es : List OutboundEvent) :
    p.pump (e :: es) = (((p.applyAndPublish e).1.pump es).1,
      (p.applyAndPublish e).2 ++ ((p.applyAndPublish e).1.pump es).2) := rfl

theorem pump_append (p : Publisher) (es es' : List OutboundEvent) :
    p.pump (es ++ es') =
      (((p.pump es).1.pump es').1, (p.pump es).2 ++ ((p.pump es).1.pump es').2) := by
  induction es generalizing p with
  | nil => rfl
  | cons e es ih => rw [List.cons_append, pump_cons, pump_cons, ih, List.append_assoc]

theorem diffLevel_live (p : Publisher) (side : Side) (price : Int) :
    ∀ m ∈ (p.diffLevel side price).2, m.live = true := by
  rw [diffLevel]
  split
  · exact List.forall_mem_nil _
  · intro m hm
    rw [List.mem_singleton.1 hm]
    rfl

theorem applyAndPublish_live (p : Publisher) (e : OutboundEvent) :
    ∀ m ∈ (p.applyAndPublish e).2, m.live = true := by
  intro m hm
  cases e with
  | status => cases hm
  | trade t n =>
    rcases List.mem_cons.1 hm with rfl | hm
    · rfl
    rcases List.mem_cons.1 hm with rfl | hm
    · rfl
    exact diffLevel_live _ _ _ m hm
  | orderUpdate action side u st n =>
    cases action with
    | rejected => cases hm
    | rested | cancelled | replaced =>
      rcases List.mem_cons.1 hm with rfl | hm
      · rfl
      exact diffLevel_live _ _ _ m hm

theorem pump_live (p : Publisher) (es : List OutboundEvent) :
    ∀ m ∈ (p.pump es).2, m.live = true := by
  induction es generalizing p with
  | nil => exact fun m hm => (nomatch hm)
  | cons e es ih =>
    intro m hm
    rcases List.mem_append.1 hm with hm | hm
    · exact p.applyAndPublish_live e m hm
    · exact ih _ m hm

end Deltas

end Publisher

/-! ## The burst -/

/-- One more order, as a burst adds it to its level. -/
def addToAgg (agg : Option LevelAgg) (x : RestingOrder) : Option LevelAgg :=
  some ⟨wrap64 ((agg.getD ⟨0, 0⟩).qty + x.remaining), (agg.getD ⟨0, 0⟩).orders + 1⟩

/-- The total and the count of these orders of one level. -/
def aggregate (xs : List RestingOrder) : Option LevelAgg :=
  if xs = [] then none else some ⟨(xs.map RestingOrder.remaining).sum, xs.length⟩

/-- What a burst of these orders shows: the total is kept in a 64-bit variable. -/
def burstAgg (xs : List RestingOrder) : Option LevelAgg :=
  (aggregate xs).map fun agg => ⟨wrap64 agg.qty, agg.orders⟩

theorem foldl_addToAgg (xs : List RestingOrder) (n : Int) (k : Nat) :
    xs.foldl addToAgg (some ⟨wrap64 n, k⟩) =
      some ⟨wrap64 (n + (xs.map RestingOrder.remaining).sum), k + xs.length⟩ := by
  induction xs generalizing n k with
  | nil => simp
  | cons x xs ih =>
    rw [List.foldl_cons, addToAgg, Option.getD_some, wrap64_add_wrap64, ih, List.map_cons,
      List.sum_cons, List.length_cons, add_assoc, Nat.add_right_comm, Nat.add_assoc]

theorem foldl_addToAgg_none (xs : List RestingOrder) : xs.foldl addToAgg none = burstAgg xs := by
  cases xs with
  | nil => rfl
  | cons x xs =>
    rw [List.foldl_cons, addToAgg, Option.getD_none, foldl_addToAgg, burstAgg, aggregate,
      if_neg (List.cons_ne_nil _ _), Option.map_some, List.map_cons, List.sum_cons,
      List.length_cons, zero_add, Nat.zero_add, Nat.add_comm]

theorem aggregate_perm {xs ys : List RestingOrder} (h : xs.Perm ys) : aggregate xs = aggregate ys := by
  rw [aggregate, aggregate, (h.map _).sum_eq, h.length_eq]
  by_cases hxs : xs = []
  · subst hxs
    rw [if_pos rfl, if_pos (List.nil_perm.1 h)]
  · rw [if_neg hxs, if_neg]
    rintro rfl
    exact hxs (List.perm_nil.1 h)

theorem burstAgg_perm {xs ys : List RestingOrder} (h : xs.Perm ys) : burstAgg xs = burstAgg ys := by
  rw [burstAgg, aggregate_perm h, burstAgg]

theorem burstAgg_lt {xs : List RestingOrder} {agg : LevelAgg} (h : agg ∈ burstAgg xs) :
    agg.qty < 2 ^ 63 := by
  obtain ⟨agg', -, rfl⟩ := Option.map_eq_some_iff.1 h
  exact wrap64_lt _

namespace Ladder

theorem map_body_numbered (instrumentId : UInt32) (seq : Nat) (bodies : List FeedBody) :
    (numbered instrumentId seq bodies).map FeedMsg.body = bodies := by
  refine List.ext_getElem (by simp [numbered]) fun i _ _ => ?_
  simp [numbered]

/-- The orders of a burst join their levels. -/
theorem foldl_snapshotOrder {l : Ladder} (hl : l.inBurst = true) (xs : List RestingOrder) :
    ((xs.map BookMirror.snapshotOrder).foldl read l).inBurst = true ∧
      ∀ loc, ((xs.map BookMirror.snapshotOrder).foldl read l).level loc =
        (restingAt loc.side loc.price xs).foldl addToAgg (l.level loc) := by
  induction xs generalizing l with
  | nil => exact ⟨hl, fun _ => rfl⟩
  | cons x xs ih =>
    have hone : l.read (BookMirror.snapshotOrder x) = l.setLevels x.side ((l.levels x.side).put
        (x.side.rank x.price) ⟨wrap64 (((l.level x.location).getD ⟨0, 0⟩).qty + x.remaining),
          ((l.level x.location).getD ⟨0, 0⟩).orders + 1⟩) := by
      change l.onL3Order _ = _
      rw [onL3Order, if_neg]
      · rfl
      · rw [not_or, not_not]
        exact ⟨by rw [hl]; decide, rfl⟩
    rw [List.map_cons, List.foldl_cons, hone]
    obtain ⟨hburst, hlevel⟩ := ih ((inBurst_setLevels ..).trans hl)
    refine ⟨hburst, fun loc => ?_⟩
    refine (hlevel loc).trans ((congrArg (List.foldl addToAgg · _)
      (l.level_put x.location loc _)).trans ?_)
    rw [restingAt_cons]
    by_cases hloc : x.location = loc
    · rw [if_pos hloc, List.foldl_cons, ← hloc, Function.update_self]
      rfl
    · rw [if_neg hloc, Function.update_of_ne (Ne.symm hloc)]

/-- **After a burst** the ladder shows the levels of the mirror, whatever it showed before. -/
theorem level_burst (l : Ladder) (instrumentId : UInt32) {m : BookMirror} {r : Replica}
    (hm : m.Mirrors r) :
    (l.readAll (BookMirror.emitSnapshotBurst instrumentId m)).inBurst = false ∧
      ∀ loc, (l.readAll (BookMirror.emitSnapshotBurst instrumentId m)).level loc =
        burstAgg (restingAt loc.side loc.price r.orders) := by
  have hread : l.readAll (BookMirror.emitSnapshotBurst instrumentId m) =
      ((m.forEachOrder.map BookMirror.snapshotOrder).foldl read l.onSnapshotStart).onSnapshotEnd := by
    rw [readAll, ← List.foldl_map, BookMirror.emitSnapshotBurst, map_body_numbered,
      BookMirror.snapshotBodies, List.foldl_append, List.foldl_append]
    rfl
  obtain ⟨-, hlevel⟩ := foldl_snapshotOrder (l := l.onSnapshotStart) rfl m.forEachOrder
  rw [hread]
  refine ⟨rfl, fun loc => ?_⟩
  have hempty : l.onSnapshotStart.level loc = none := by
    rw [level]
    cases loc.side <;> rfl
  refine (hlevel loc).trans ?_
  rw [hempty, foldl_addToAgg_none]
  exact burstAgg_perm (hm.forEachOrder_perm.filter _)

end Ladder

end Velox
