import Velox.Marketdata.BookMirror

/-!
# Loading a mirror from a book

Following `marketdata/snapshot_source.hpp`: the book is walked from its best prices, and each order
is read as if it came to rest. Unless an order rests out of the best price's sight, the walk comes to
every order, and the mirror then holds what the book holds (`loadMirrorFromBook_mirrors`).
-/

namespace Velox

def RestingOrder.update (x : RestingOrder) : OrderUpdate :=
  ⟨x.id, x.price, x.quantity, x.remaining, x.participant, x.seq⟩

namespace BookMirror

/-- The orders of one side, each read as if it came to rest. -/
def loadOrders (m : BookMirror) (side : Side) (xs : List RestingOrder) : BookMirror :=
  xs.foldl (fun m x => m.applyOrderUpdate .rested side x.update) m

def loadMirrorFromBook (b : OrderBook) : Option BookMirror := do
  let bids ← b.walkSide .buy
  let asks ← b.walkSide .sell
  some (((empty.loadOrders .buy bids).loadOrders .sell asks).seedCounters b.seq b.nextTradeId)

section Load

variable {m : BookMirror} {r r' : Replica} {s : Side} {xs : List RestingOrder}

/-- Only the queue of each price matters. -/
theorem Mirrors.congr (h : m.Mirrors r) (hids : (r'.orders.map RestingOrder.id).Nodup)
    (hat : ∀ s p, restingAt s p r'.orders = restingAt s p r.orders) :
    (m.seedCounters r'.lastSeq r'.tradeCount).Mirrors r' := by
  have hmem : ∀ x, x ∈ r'.orders ↔ x ∈ r.orders := by
    intro x
    have hx := congrArg (x ∈ ·) (hat x.side x.price)
    simpa only [mem_restingAt, and_self, and_true, eq_iff_iff] using hx
  refine ⟨hids, fun s p => ?_, fun id => ?_, rfl, rfl⟩
  · rw [hat]
    exact h.deque s p
  · refine (h.index id).trans ?_
    cases hfind : r'.orders.find? fun x => decide (x.id = id) with
    | none =>
      rw [List.find?_eq_none.2 fun x hx => List.find?_eq_none.1 hfind x ((hmem x).2 hx)]
    | some x =>
      have hid : x.id = id := by simpa using List.find?_some hfind
      rw [← hid, find?_id h.ids ((hmem x).1 (List.mem_of_find?_eq_some hfind))]

/-- Orders that are read as new ones join the others. -/
theorem Mirrors.loadOrders (h : m.Mirrors r) (hside : ∀ x ∈ xs, x.side = s)
    (hids : ((r.orders ++ xs).map RestingOrder.id).Nodup) :
    ∃ n, (m.loadOrders s xs).Mirrors ⟨r.orders ++ xs, n, r.tradeCount⟩ := by
  induction xs generalizing m r with
  | nil =>
    rw [List.append_nil]
    exact ⟨r.lastSeq, h⟩
  | cons x xs ih =>
    have hnew : ∀ y ∈ r.orders, y.id ≠ x.id := by
      rw [List.map_append, List.nodup_append] at hids
      intro y hy
      exact hids.2.2 _ (List.mem_map_of_mem hy) _ (List.mem_map_of_mem List.mem_cons_self)
    have hx : x.update.order s = x := by
      rw [← hside x List.mem_cons_self]
      rfl
    have hstep := h.applyOrderUpdate .rested s x.update fun _ => hnew
    rw [Replica.applyOrderUpdate, Replica.updateOrders, hx] at hstep
    obtain ⟨n, hn⟩ := ih hstep (fun y hy => hside y (List.mem_cons_of_mem _ hy))
      (by rwa [List.append_assoc])
    rw [List.append_assoc] at hn
    exact ⟨n, hn⟩

/-- **The mirror of a book** whose best prices know of every order. -/
theorem loadMirrorFromBook_mirrors {b : OrderBook} {ps : List Ptr} (hr : b.Repr ps none)
    (hw : (b.view ps).Wf) (hv : (b.view ps).InSight) :
    ∃ m, loadMirrorFromBook b = some m ∧ m.Mirrors (b.view ps).replica := by
  obtain ⟨xs, hxs, hwx⟩ := OrderBook.walkSide_spec hr hw .buy
  obtain ⟨ys, hys, hwy⟩ := OrderBook.walkSide_spec hr hw .sell
  have hperm : (xs ++ ys).Perm (b.view ps).orders :=
    QueueBook.perm_of_atSlot (hw.walks_queue hv hwx hwy)
  have hids : ((xs ++ ys).map RestingOrder.id).Nodup := (hperm.map _).nodup_iff.2 hw.ids
  obtain ⟨n, hbids⟩ := mirrors_empty.loadOrders (fun x hx => (hwx.mem hx).2)
    (List.Nodup.sublist ((List.sublist_append_left xs ys).map _) hids)
  obtain ⟨n', hasks⟩ := hbids.loadOrders (fun x hx => (hwy.mem hx).2) hids
  refine ⟨_, by rw [loadMirrorFromBook, hxs, hys]; rfl, hasks.congr hw.ids fun s p => ?_⟩
  -- Each price is listed in the walk of its side.
  have hother : ∀ {zs : List RestingOrder} {t : Side}, (∀ x ∈ zs, x.side = t) → t ≠ s →
      restingAt s p zs = [] := by
    intro zs t hzs hne
    refine List.filter_eq_nil_iff.2 fun x hx hc => hne ?_
    rw [← hzs x hx]
    exact (of_decide_eq_true hc).1
  change restingAt s p (b.view ps).orders = restingAt s p (xs ++ ys)
  rw [restingAt, restingAt, List.filter_append, ← restingAt, ← restingAt, ← restingAt]
  cases s with
  | buy =>
    rw [hother (fun x hx => (hwy.mem hx).2) (by decide), List.append_nil, hw.walk_restingAt hv hwx]
  | sell =>
    rw [hother (fun x hx => (hwx.mem hx).2) (by decide), List.nil_append, hw.walk_restingAt hv hwy]

end Load

end BookMirror

end Velox
