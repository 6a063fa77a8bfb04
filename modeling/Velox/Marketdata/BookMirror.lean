import Velox.Lib.SortedMap
import Velox.Recovery.Restore
import Velox.Runtime.Events

/-!
# The subscriber-side book

Following `marketdata/book_mirror.hpp`: a book built from the outbound events alone, out of maps
from prices to deques and an index from ids to places.

`Mirrors m r` says that the mirror `m` holds what a reader of the events knows, namely the replica
`r`: each deque is the sublist of its side and price. One lemma for each kind of event shows that
reading it keeps the relation, and `Mirrors.forEachOrder_eq` that the walk over the maps is then
the walk over the book. The mirror therefore follows the matching thread through every run on the
grid (`mirror_follows`).
-/

namespace Velox

structure MirrorOrder where
  id : Int
  price : Int
  quantity : Int
  remaining : Int
  participant : Int
  seq : Int
  deriving DecidableEq, Repr

/-- The order as the walk hands it out. -/
def MirrorOrder.order (o : MirrorOrder) (side : Side) : RestingOrder :=
  ⟨o.id, o.price, o.quantity, o.remaining, o.participant, o.seq, side⟩

structure Location where
  side : Side
  price : Int
  deriving DecidableEq, Repr

/-- The keys of `bids` and `asks` are the ranks of the prices: both maps are walked from the best
price on. -/
structure BookMirror where
  bids : SortedMap Int (List MirrorOrder)
  asks : SortedMap Int (List MirrorOrder)
  index : SortedMap Int Location
  lastSeq : Int
  tradeCount : Int

namespace BookMirror

def empty : BookMirror := ⟨.empty, .empty, .empty, 0, 0⟩

def levels (m : BookMirror) : Side → SortedMap Int (List MirrorOrder)
  | .buy => m.bids
  | .sell => m.asks

def setLevels (m : BookMirror) : Side → SortedMap Int (List MirrorOrder) → BookMirror
  | .buy, l => { m with bids := l }
  | .sell, l => { m with asks := l }

def deque (m : BookMirror) (loc : Location) : Option (List MirrorOrder) :=
  (m.levels loc.side).find (loc.side.rank loc.price)

def insert (m : BookMirror) (side : Side) (u : OrderUpdate) : BookMirror :=
  let o : MirrorOrder := ⟨u.orderId, u.price, u.quantity, u.remaining, u.participant, u.seq⟩
  let deq := (m.deque ⟨side, u.price⟩).getD []
  { m.setLevels side ((m.levels side).put (side.rank u.price) (deq ++ [o])) with
    index := m.index.put u.orderId ⟨side, u.price⟩ }

/-- The first order with this id leaves the deque. -/
def eraseId (id : Int) (deq : List MirrorOrder) : List MirrorOrder :=
  deq.eraseP fun o => decide (o.id = id)

def eraseFromLevels (levels : SortedMap Int (List MirrorOrder)) (key id : Int) :
    SortedMap Int (List MirrorOrder) :=
  match levels.find key with
  | none => levels
  | some deq => if eraseId id deq = [] then levels.erase key else levels.put key (eraseId id deq)

def eraseFrom (m : BookMirror) (loc : Location) (id : Int) : BookMirror :=
  m.setLevels loc.side (eraseFromLevels (m.levels loc.side) (loc.side.rank loc.price) id)

def erase (m : BookMirror) (id : Int) : BookMirror :=
  match m.index.find id with
  | none => m
  | some loc => { m.eraseFrom loc id with index := m.index.erase id }

/-- `qty` off the first order with this id. -/
def reduceId (id qty : Int) : List MirrorOrder → List MirrorOrder
  | [] => []
  | o :: os => if o.id = id then { o with remaining := o.remaining - qty } :: os
    else o :: reduceId id qty os

/-- A fill of `qty`; the order is erased if that empties it. -/
def reduce (m : BookMirror) (id qty : Int) : BookMirror :=
  match m.index.find id with
  | none => m
  | some loc =>
    match m.deque loc with
    | none => m
    | some deq =>
      match deq.find? fun o => decide (o.id = id) with
      | none => m
      | some o =>
        let m := m.setLevels loc.side
          ((m.levels loc.side).put (loc.side.rank loc.price) (reduceId id qty deq))
        if o.remaining - qty ≤ 0 then { m.eraseFrom loc id with index := m.index.erase id } else m

def applyTrade (m : BookMirror) (t : Trade) : BookMirror :=
  let m := m.reduce t.passiveId t.quantity
  { m with tradeCount := m.tradeCount + 1 }

def applyOrderUpdate (m : BookMirror) (action : UpdateAction) (side : Side) (u : OrderUpdate) :
    BookMirror :=
  let m := if m.lastSeq < u.seq then { m with lastSeq := u.seq } else m
  match action with
  | .rested => m.insert side u
  | .cancelled | .replaced => m.erase u.orderId
  | .rejected => m

def apply (m : BookMirror) : OutboundEvent → BookMirror
  | .trade t _ => m.applyTrade t
  | .status _ _ _ => m
  | .orderUpdate action side u _ _ => m.applyOrderUpdate action side u

def applyAll (m : BookMirror) (es : List OutboundEvent) : BookMirror := es.foldl apply m

def restingOrders (m : BookMirror) : Nat := m.index.size

/-- The sum of a level, in a 64-bit variable. -/
def levelTotal (m : BookMirror) (side : Side) (price : Int) : Int :=
  ((m.deque ⟨side, price⟩).getD []).foldl (fun total o => wrap64 (total + o.remaining)) 0

def levelOrderCount (m : BookMirror) (side : Side) (price : Int) : Nat :=
  ((m.deque ⟨side, price⟩).getD []).length

def remainingOf (m : BookMirror) (id : Int) : Int :=
  match m.index.find id with
  | none => 0
  | some loc => ((((m.deque loc).getD []).find? fun o => decide (o.id = id)).map
      MirrorOrder.remaining).getD 0

def seedCounters (m : BookMirror) (lastSeq tradeCount : Int) : BookMirror :=
  { m with lastSeq := lastSeq, tradeCount := tradeCount }

def walkSide (m : BookMirror) (side : Side) : List RestingOrder :=
  (m.levels side).entries.flatMap fun e => e.2.map (MirrorOrder.order · side)

/-- The canonical walk: bids from best to worst, then asks. -/
def forEachOrder (m : BookMirror) : List RestingOrder := m.walkSide .buy ++ m.walkSide .sell

section Fields

variable (m : BookMirror) (s t : Side) (l : SortedMap Int (List MirrorOrder))

@[simp] theorem levels_setLevels : (m.setLevels s l).levels t = if t = s then l else m.levels t := by
  cases s <;> cases t <;> rfl

@[simp] theorem index_setLevels : (m.setLevels s l).index = m.index := by cases s <;> rfl

@[simp] theorem lastSeq_setLevels : (m.setLevels s l).lastSeq = m.lastSeq := by cases s <;> rfl

@[simp] theorem tradeCount_setLevels : (m.setLevels s l).tradeCount = m.tradeCount := by
  cases s <;> rfl

/-- Writing one deque. -/
theorem deque_put (p : Int) (d : List MirrorOrder) (loc : Location) :
    (m.setLevels s ((m.levels s).put (s.rank p) d)).deque loc =
      if loc = ⟨s, p⟩ then some d else m.deque loc := by
  obtain ⟨t, p'⟩ := loc
  simp only [deque, levels_setLevels, Location.mk.injEq]
  by_cases ht : t = s
  · subst ht
    simp only [if_true, SortedMap.find_put, true_and]
    by_cases hp : p' = p
    · rw [if_pos (congrArg _ hp), if_pos hp]
    · rw [if_neg fun h => hp (Side.rank_inj h), if_neg hp]
  · rw [if_neg ht, if_neg fun h => ht h.1]

/-- Erasing an order from its deque, and the deque if it was the last one. -/
theorem deque_eraseFrom (loc loc' : Location) (id : Int) :
    (m.eraseFrom loc id).deque loc' = if loc' = loc then
      (m.deque loc).bind fun d => if eraseId id d = [] then none else some (eraseId id d)
      else m.deque loc' := by
  obtain ⟨t, p'⟩ := loc'
  obtain ⟨s, p⟩ := loc
  simp only [eraseFrom, deque, levels_setLevels, Location.mk.injEq]
  by_cases ht : t = s
  · subst ht
    simp only [if_true, true_and, eraseFromLevels]
    by_cases hp : p' = p
    · subst hp
      rw [if_pos rfl]
      cases hfind : (m.levels t).find (t.rank p') with
      | none => exact hfind
      | some d =>
        simp only [Option.bind_some]
        split
        · rw [SortedMap.find_erase, if_pos rfl]
        · rw [SortedMap.find_put, if_pos rfl]
    · have hne : ¬ t.rank p' = t.rank p := fun h => hp (Side.rank_inj h)
      rw [if_neg hp]
      cases hfind : (m.levels t).find (t.rank p) with
      | none => rfl
      | some d =>
        dsimp only
        split
        · rw [SortedMap.find_erase, if_neg hne]
        · rw [SortedMap.find_put, if_neg hne]
  · rw [if_neg ht, if_neg fun h => ht h.1]

@[simp] theorem lastSeq_eraseFrom (loc : Location) (id : Int) :
    (m.eraseFrom loc id).lastSeq = m.lastSeq := lastSeq_setLevels ..

@[simp] theorem tradeCount_eraseFrom (loc : Location) (id : Int) :
    (m.eraseFrom loc id).tradeCount = m.tradeCount := tradeCount_setLevels ..

end Fields

end BookMirror

/-! ## What a mirror holds -/

/-- The order as the mirror keeps it. -/
def RestingOrder.mirrored (x : RestingOrder) : MirrorOrder :=
  ⟨x.id, x.price, x.quantity, x.remaining, x.participant, x.seq⟩

/-- The orders of one side and price. -/
def restingAt (s : Side) (p : Int) (xs : List RestingOrder) : List RestingOrder :=
  xs.filter fun x => decide (x.side = s ∧ x.price = p)

/-- A level without orders has no deque. -/
def dequeOf (xs : List RestingOrder) : Option (List MirrorOrder) :=
  if xs = [] then none else some (xs.map RestingOrder.mirrored)

/-- The mirror holds the orders and counters of the replica. -/
structure BookMirror.Mirrors (m : BookMirror) (r : Replica) : Prop where
  ids : (r.orders.map RestingOrder.id).Nodup
  deque : ∀ s p, m.deque ⟨s, p⟩ = dequeOf (restingAt s p r.orders)
  index : ∀ id, m.index.find id = (r.orders.find? fun x => decide (x.id = id)).map fun x =>
    ⟨x.side, x.price⟩
  lastSeq : m.lastSeq = r.lastSeq
  tradeCount : m.tradeCount = r.tradeCount

section Orders

open Replica

variable {xs : List RestingOrder} {x : RestingOrder}

theorem mem_restingAt {s : Side} {p : Int} :
    x ∈ restingAt s p xs ↔ x ∈ xs ∧ x.side = s ∧ x.price = p := by
  simp [restingAt]

theorem restingAt_dropOrder (s : Side) (p : Int) (id : Int) (xs : List RestingOrder) :
    restingAt s p (dropOrder id xs) = dropOrder id (restingAt s p xs) := by
  rw [restingAt, dropOrder, dropOrder, restingAt, List.filter_comm]

theorem restingAt_concat (s : Side) (p : Int) (xs : List RestingOrder) (x : RestingOrder) :
    restingAt s p (xs ++ [x]) =
      restingAt s p xs ++ if x.side = s ∧ x.price = p then [x] else [] := by
  rw [restingAt, restingAt, List.filter_append]
  split <;> simp_all

theorem dequeOf_concat (xs : List RestingOrder) (x : RestingOrder) :
    dequeOf (xs ++ [x]) = some ((dequeOf xs).getD [] ++ [x.mirrored]) := by
  rw [dequeOf, if_neg (by simp), dequeOf, List.map_append]
  by_cases hnil : xs = []
  · rw [if_pos hnil, hnil]
    rfl
  · rw [if_neg hnil]
    rfl

theorem takenOff_ids (id qty : Int) (xs : List RestingOrder) :
    (takenOff id qty xs).map RestingOrder.id = xs.map RestingOrder.id := by
  rw [takenOff, List.map_map]
  refine List.map_congr_left fun y _ => ?_
  rw [Function.comp_apply]
  split <;> rfl

theorem restingAt_takenOff (s : Side) (p id qty : Int) (xs : List RestingOrder) :
    restingAt s p (takenOff id qty xs) = takenOff id qty (restingAt s p xs) := by
  rw [restingAt, restingAt, takenOff, takenOff, List.filter_map]
  congr 1
  refine List.filter_congr fun y _ => ?_
  rw [Function.comp_apply]
  split <;> rfl

theorem dropOrder_takenOff (id qty : Int) (xs : List RestingOrder) :
    dropOrder id (takenOff id qty xs) = dropOrder id xs := by
  rw [dropOrder, takenOff, List.filter_map]
  have hsame : xs.filter ((fun y => decide (y.id ≠ id)) ∘ fun y =>
      if y.id = id then { y with remaining := y.remaining - qty } else y) = dropOrder id xs := by
    refine List.filter_congr fun y _ => ?_
    rw [Function.comp_apply]
    split <;> rfl
  rw [hsame]
  exact takenOff_of_forall_ne fun y hy => by simpa using (List.mem_filter.1 hy).2

/-- An order leaves its deque. -/
theorem eraseId_mirrored {id : Int} (hn : (xs.map RestingOrder.id).Nodup) :
    BookMirror.eraseId id (xs.map RestingOrder.mirrored) =
      (dropOrder id xs).map RestingOrder.mirrored := by
  induction xs with
  | nil => rfl
  | cons y ys ih =>
    obtain ⟨hy, hys⟩ := List.nodup_cons.1 hn
    by_cases hid : y.id = id
    · have hrest : dropOrder id ys = ys := by
        refine dropOrder_of_forall_ne fun z hz hzid => hy ?_
        rw [hid, ← hzid]
        exact List.mem_map_of_mem hz
      rw [List.map_cons, BookMirror.eraseId, List.eraseP_cons_of_pos (by simp [RestingOrder.mirrored, hid]),
        dropOrder,
        List.filter_cons_of_neg (by simpa using hid)]
      exact congrArg (List.map _) hrest.symm
    · rw [List.map_cons, BookMirror.eraseId, List.eraseP_cons_of_neg (by simp [RestingOrder.mirrored, hid]),
        dropOrder,
        List.filter_cons_of_pos (by simpa using hid), List.map_cons]
      exact congrArg _ (ih hys)

/-- An order loses part of what remains. -/
theorem reduceId_mirrored {id : Int} (qty : Int) (hn : (xs.map RestingOrder.id).Nodup) :
    BookMirror.reduceId id qty (xs.map RestingOrder.mirrored) =
      (takenOff id qty xs).map RestingOrder.mirrored := by
  induction xs with
  | nil => rfl
  | cons y ys ih =>
    obtain ⟨hy, hys⟩ := List.nodup_cons.1 hn
    rw [List.map_cons, BookMirror.reduceId, takenOff, List.map_cons, List.map_cons]
    by_cases hid : y.id = id
    · have hrest : takenOff id qty ys = ys := by
        refine takenOff_of_forall_ne fun z hz hzid => hy ?_
        rw [hid, ← hzid]
        exact List.mem_map_of_mem hz
      rw [if_pos (show y.mirrored.id = id from hid), if_pos hid, ← takenOff, hrest]
      rfl
    · rw [if_neg (show ¬ y.mirrored.id = id from hid), if_neg hid, ih hys]
      rfl

theorem find?_dropOrder (id j : Int) (xs : List RestingOrder) :
    (dropOrder id xs).find? (fun y => decide (y.id = j)) =
      if j = id then none else xs.find? fun y => decide (y.id = j) := by
  split
  · next h =>
    subst h
    exact List.find?_eq_none.2 fun y hy => by simpa using (List.mem_filter.1 hy).2
  · next h =>
    rw [dropOrder, List.find?_filter]
    congr 1
    funext y
    by_cases hy : y.id = j <;> simp [hy, h]

theorem find?_id (hn : (xs.map RestingOrder.id).Nodup) (hx : x ∈ xs) :
    xs.find? (fun y => decide (y.id = x.id)) = some x := by
  obtain ⟨y, hy⟩ : ∃ y, xs.find? (fun y => decide (y.id = x.id)) = some y :=
    Option.isSome_iff_exists.1 (List.find?_isSome.2 ⟨x, hx, decide_eq_true rfl⟩)
  have hid : y.id = x.id := by simpa using List.find?_some hy
  rw [hy, List.inj_on_of_nodup_map hn (List.mem_of_find?_eq_some hy) hx hid]

end Orders

namespace BookMirror

section Mirrors

open Replica

variable {m m' : BookMirror} {r : Replica} {x : RestingOrder} {id : Int}

theorem mirrors_empty : empty.Mirrors .empty :=
  ⟨List.nodup_nil, fun s _ => by cases s <;> rfl, fun _ => rfl, rfl, rfl⟩

/-- An id that is not in the index is at no place. -/
theorem Mirrors.index_none (h : m.Mirrors r) (hid : m.index.find id = none) :
    ∀ y ∈ r.orders, y.id ≠ id := by
  rw [h.index, Option.map_eq_none_iff, List.find?_eq_none] at hid
  intro y hy
  simpa using hid y hy

theorem Mirrors.index_some {loc : Location} (h : m.Mirrors r) (hid : m.index.find id = some loc) :
    ∃ y ∈ r.orders, y.id = id ∧ loc = ⟨y.side, y.price⟩ := by
  rw [h.index, Option.map_eq_some_iff] at hid
  obtain ⟨y, hy, rfl⟩ := hid
  exact ⟨y, List.mem_of_find?_eq_some hy, by simpa using List.find?_some hy, rfl⟩

theorem restingAt_nodup {xs : List RestingOrder} (hn : (xs.map RestingOrder.id).Nodup) (s : Side)
    (p : Int) : ((restingAt s p xs).map RestingOrder.id).Nodup :=
  (List.filter_sublist.map _).nodup hn

/-- The order leaves its deque and the index. -/
theorem Mirrors.drop (h : m.Mirrors r) (hx : x ∈ r.orders)
    (hdeque : ∀ loc, m'.deque loc = if loc = ⟨x.side, x.price⟩ then
      dequeOf (dropOrder x.id (restingAt x.side x.price r.orders)) else m.deque loc)
    (hindex : m'.index = m.index.erase x.id) (hseq : m'.lastSeq = m.lastSeq)
    (hcount : m'.tradeCount = m.tradeCount) :
    m'.Mirrors ⟨dropOrder x.id r.orders, r.lastSeq, r.tradeCount⟩ := by
  refine ⟨(List.filter_sublist.map _).nodup h.ids, fun s p => ?_, fun j => ?_, hseq.trans h.lastSeq,
    hcount.trans h.tradeCount⟩
  · rw [hdeque, restingAt_dropOrder]
    split
    · next hloc =>
      cases hloc
      rfl
    · next hloc =>
      rw [h.deque, dropOrder_of_forall_ne fun y hy hid => hloc ?_]
      obtain ⟨hmem, rfl, rfl⟩ := mem_restingAt.1 hy
      rw [List.inj_on_of_nodup_map h.ids hmem hx hid]
  · rw [hindex, SortedMap.find_erase, find?_dropOrder, h.index]
    split <;> rfl

/-- The deque of an order that is at rest. -/
theorem Mirrors.deque_of_mem (h : m.Mirrors r) (hx : x ∈ r.orders) :
    m.deque ⟨x.side, x.price⟩ =
      some ((restingAt x.side x.price r.orders).map RestingOrder.mirrored) := by
  rw [h.deque, dequeOf, if_neg]
  exact List.ne_nil_of_mem (mem_restingAt.2 ⟨hx, rfl, rfl⟩)

theorem Mirrors.erase (h : m.Mirrors r) (id : Int) :
    (m.erase id).Mirrors ⟨dropOrder id r.orders, r.lastSeq, r.tradeCount⟩ := by
  rw [BookMirror.erase]
  cases hfind : m.index.find id with
  | none =>
    rw [dropOrder_of_forall_ne (h.index_none hfind)]
    exact h
  | some loc =>
    obtain ⟨x, hx, rfl, rfl⟩ := h.index_some hfind
    refine h.drop hx (fun loc => ?_) rfl (lastSeq_eraseFrom ..) (tradeCount_eraseFrom ..)
    change (m.eraseFrom ⟨x.side, x.price⟩ x.id).deque loc = _
    rw [deque_eraseFrom, h.deque_of_mem hx, Option.bind_some,
      eraseId_mirrored (restingAt_nodup h.ids ..), dequeOf]
    simp only [List.map_eq_nil_iff]

theorem Mirrors.insert {u : OrderUpdate} (h : m.Mirrors r) (side : Side)
    (hid : ∀ y ∈ r.orders, y.id ≠ u.orderId) :
    (m.insert side u).Mirrors ⟨r.orders ++ [u.order side], r.lastSeq, r.tradeCount⟩ := by
  refine ⟨?_, fun s p => ?_, fun j => ?_, (lastSeq_setLevels ..).trans h.lastSeq,
    (tradeCount_setLevels ..).trans h.tradeCount⟩
  · rw [List.map_append, List.nodup_append]
    refine ⟨h.ids, List.nodup_singleton _, fun a ha b hb => ?_⟩
    obtain ⟨y, hy, rfl⟩ := List.mem_map.1 ha
    rw [List.map_singleton, List.mem_singleton] at hb
    rw [hb]
    exact hid y hy
  · change (m.setLevels side ((m.levels side).put (side.rank u.price) _)).deque ⟨s, p⟩ = _
    rw [deque_put, restingAt_concat]
    split
    · next hloc =>
      cases hloc
      rw [if_pos (⟨rfl, rfl⟩ : (u.order side).side = side ∧ (u.order side).price = u.price),
        dequeOf_concat, h.deque]
      rfl
    · next hloc =>
      rw [if_neg, List.append_nil, h.deque]
      rintro ⟨rfl, rfl⟩
      exact hloc rfl
  · change (m.index.put u.orderId ⟨side, u.price⟩).find j = _
    rw [SortedMap.find_put, List.find?_append, h.index]
    split
    · next hj =>
      subst hj
      have hnone : r.orders.find? (fun y => decide (y.id = u.orderId)) = none :=
        List.find?_eq_none.2 fun y hy => by simpa using hid y hy
      simp [hnone, OrderUpdate.order]
    · next hj => simp [OrderUpdate.order, Ne.symm hj]

/-- A fill that leaves something takes it off the order in its deque. -/
theorem Mirrors.partFill (h : m.Mirrors r) (hx : x ∈ r.orders) (qty : Int)
    (hdeque : ∀ loc, m'.deque loc = if loc = ⟨x.side, x.price⟩ then
      some ((takenOff x.id qty (restingAt x.side x.price r.orders)).map RestingOrder.mirrored)
      else m.deque loc)
    (hindex : m'.index = m.index) (hseq : m'.lastSeq = m.lastSeq)
    (hcount : m'.tradeCount = m.tradeCount) :
    m'.Mirrors ⟨takenOff x.id qty r.orders, r.lastSeq, r.tradeCount⟩ := by
  refine ⟨by rw [takenOff_ids]; exact h.ids, fun s p => ?_, fun j => ?_, hseq.trans h.lastSeq,
    hcount.trans h.tradeCount⟩
  · rw [hdeque, restingAt_takenOff]
    split
    · next hloc =>
      cases hloc
      rw [dequeOf, if_neg]
      exact fun hnil => List.ne_nil_of_mem (mem_restingAt.2 ⟨hx, rfl, rfl⟩) (List.map_eq_nil_iff.1 hnil)
    · next hloc =>
      rw [h.deque, takenOff_of_forall_ne fun y hy hid => hloc ?_]
      obtain ⟨hmem, rfl, rfl⟩ := mem_restingAt.1 hy
      rw [List.inj_on_of_nodup_map h.ids hmem hx hid]
  · rw [hindex, h.index, takenOff, List.find?_map, Option.map_map]
    have hid : ((fun y : RestingOrder => decide (y.id = j)) ∘ fun y =>
        if y.id = x.id then { y with remaining := y.remaining - qty } else y) =
        fun y => decide (y.id = j) := by
      funext y
      rw [Function.comp_apply]
      split <;> rfl
    rw [hid]
    congr 1
    funext y
    rw [Function.comp_apply]
    split <;> rfl

theorem Mirrors.reduce (h : m.Mirrors r) (id qty : Int) :
    (m.reduce id qty).Mirrors ⟨fillOrder id qty r.orders, r.lastSeq, r.tradeCount⟩ := by
  rw [BookMirror.reduce]
  cases hfind : m.index.find id with
  | none =>
    rw [fillOrder_of_forall_ne (h.index_none hfind)]
    exact h
  | some loc =>
    obtain ⟨x, hx, rfl, rfl⟩ := h.index_some hfind
    have hn := restingAt_nodup h.ids x.side x.price
    have hfirst : ((restingAt x.side x.price r.orders).map RestingOrder.mirrored).find?
        (fun o => decide (o.id = x.id)) = some x.mirrored := by
      rw [List.find?_map]
      exact congrArg (Option.map _) (find?_id hn (mem_restingAt.2 ⟨hx, rfl, rfl⟩))
    simp only [h.deque_of_mem hx, hfirst]
    have hput := fun loc => deque_put m x.side x.price
      (reduceId x.id qty ((restingAt x.side x.price r.orders).map RestingOrder.mirrored)) loc
    rw [reduceId_mirrored qty hn] at hput ⊢
    split
    · next hrem =>
      rw [fillOrder_eq_dropOrder h.ids hx hrem]
      refine h.drop hx (fun loc => ?_) ?_ ?_ ?_
      · change (eraseFrom _ ⟨x.side, x.price⟩ x.id).deque loc = _
        rw [deque_eraseFrom, hput, if_pos rfl, Option.bind_some, eraseId_mirrored, hput,
          dropOrder_takenOff, dequeOf]
        · split
          · simp only [List.map_eq_nil_iff]
          · rfl
        · rw [takenOff_ids]
          exact hn
      · simp
      · simp
      · simp
    · next hrem =>
      rw [fillOrder_eq_takenOff h.ids hx (not_le.1 hrem)]
      exact h.partFill hx qty hput (index_setLevels ..) (lastSeq_setLevels ..)
        (tradeCount_setLevels ..)

theorem Mirrors.applyTrade (h : m.Mirrors r) (t : Trade) :
    (m.applyTrade t).Mirrors (r.applyTrade t) := by
  obtain ⟨hids, hdeque, hindex, hseq, hcount⟩ := h.reduce t.passiveId t.quantity
  exact ⟨hids, hdeque, hindex, hseq, congrArg (· + 1) hcount⟩

/-- A rested order has to be a new one: the mirror would keep two. -/
theorem Mirrors.applyOrderUpdate (h : m.Mirrors r) (action : UpdateAction) (side : Side)
    (u : OrderUpdate) (hid : action = .rested → ∀ y ∈ r.orders, y.id ≠ u.orderId) :
    (m.applyOrderUpdate action side u).Mirrors (r.applyOrderUpdate action side u) := by
  have hseq : (if m.lastSeq < u.seq then { m with lastSeq := u.seq } else m : BookMirror).Mirrors
      ⟨r.orders, max r.lastSeq u.seq, r.tradeCount⟩ := by
    rw [h.lastSeq]
    split
    · next hlt => exact ⟨h.ids, h.deque, h.index, (max_eq_right hlt.le).symm, h.tradeCount⟩
    · next hge =>
      exact ⟨h.ids, h.deque, h.index, h.lastSeq.trans (max_eq_left (not_lt.1 hge)).symm,
        h.tradeCount⟩
  cases action with
  | rested => exact hseq.insert side (hid rfl)
  | cancelled | replaced => exact hseq.erase u.orderId
  | rejected => exact hseq

end Mirrors

end BookMirror

/-! ## Reading a command's events -/

/-- The event tells of an order that has come to rest. -/
def OutboundEvent.rests : OutboundEvent → Bool
  | .orderUpdate .rested _ _ _ _ => true
  | _ => false

namespace BookMirror

section ApplyAll

open MatchingThread

variable {m : BookMirror} {r : Replica} {es : List OutboundEvent}

theorem Mirrors.apply (h : m.Mirrors r) {e : OutboundEvent}
    (hids : e.rests = true → ((r.apply e).orders.map RestingOrder.id).Nodup) :
    (m.apply e).Mirrors (r.apply e) := by
  cases e with
  | trade t _ => exact h.applyTrade t
  | status => exact h
  | orderUpdate action side u _ _ =>
    refine h.applyOrderUpdate action side u ?_
    rintro rfl y hy hid
    have hnodup : ((r.orders ++ [u.order side]).map RestingOrder.id).Nodup := hids rfl
    rw [List.map_append, List.nodup_append] at hnodup
    exact hnodup.2.2 _ (List.mem_map_of_mem hy) _ (by simp [OrderUpdate.order]) hid

/-- An order comes to rest with the last event of a command only, so that it is enough to look at
the ids in the end. -/
theorem Mirrors.applyAll (h : m.Mirrors r) (hrests : ∀ e ∈ es.dropLast, e.rests = false)
    (hids : ((r.applyAll es).orders.map RestingOrder.id).Nodup) :
    (m.applyAll es).Mirrors (r.applyAll es) := by
  induction es generalizing m r with
  | nil => exact h
  | cons e es ih =>
    cases es with
    | nil => exact h.apply fun _ => hids
    | cons e' es =>
      rw [List.dropLast_cons_cons, List.forall_mem_cons] at hrests
      have hnext : (m.apply e).Mirrors (r.apply e) := h.apply fun hrest => by
        rw [hrests.1] at hrest
        cases hrest
      exact ih hnext hrests.2 hids

/-- Whatever a command publishes, only the last event can tell of an order at rest. -/
theorem publish_rests (cmd : Command) (reply : Reply) (seq : Int) (k : CommandKind) :
    ∀ e ∈ (publish cmd reply seq k).dropLast, e.rests = false := by
  have htrades : ∀ e ∈ publishTrades reply.out seq, e.rests = false := by
    intro e he
    obtain ⟨t, -, rfl⟩ := List.mem_map.1 he
    rfl
  have hvictims : ∀ e ∈ publishStpVictims reply.out seq, e.rests = false := by
    intro e he
    obtain ⟨v, -, rfl⟩ := List.mem_map.1 he
    rfl
  cases k with
  | new =>
    rw [publish, List.dropLast_concat]
    simp only [List.forall_mem_append]
    refine ⟨⟨htrades, hvictims⟩, ?_⟩
    split <;> simp [OutboundEvent.rests]
  | cancel =>
    rw [publish]
    split <;> simp [OutboundEvent.rests]
  | replace =>
    rw [publish]
    split
    · simp only [List.append_nil, List.nil_append, List.dropLast_concat, List.forall_mem_append]
      exact ⟨htrades, hvictims⟩
    · rw [List.dropLast_concat]
      simp only [List.forall_mem_append, List.forall_mem_singleton]
      exact ⟨⟨⟨rfl, htrades⟩, hvictims⟩, rfl⟩

end ApplyAll

end BookMirror

/-! ## The canonical walk -/

theorem Side.rank_rank (s : Side) (p : Int) : s.rank (s.rank p) = p := by
  cases s <;> simp [Side.rank]

namespace QueueBook

section Walk

variable {q : QueueBook} {s : Side} {p : Int} {xs : List RestingOrder} {x y : RestingOrder}

/-- A walk goes away from the best price. -/
theorem Walk.reaches (h : q.Walk s p xs) (hx : x ∈ xs) :
    p ≠ emptySentinel s ∧ Reaches s (q.cfg.slot p) (q.cfg.slot x.price) := by
  induction h with
  | done => cases hx
  | @next p xs hp _ ih =>
    refine ⟨hp, ?_⟩
    rcases List.mem_append.1 hx with hx | hx
    · exact Or.inl (mem_queue.1 hx).2.2
    · obtain ⟨hne, hreach⟩ := ih hx
      rcases q.nextOccupied_isNext s p with ⟨hr, -⟩ | ⟨j, hr, hb, -, -⟩
      · exact absurd hr hne
      · rw [hr, BookConfig.slot_slotPrice] at hreach
        rcases hreach with heq | hb'
        · exact Or.inr (heq ▸ hb)
        · exact Or.inr (Side.beyond_trans hb hb')

theorem Sharp.rank_le (hs : q.Sharp) (hx : x ∈ q.orders) (hy : y ∈ q.orders)
    (h : Reaches s (q.cfg.slot x.price) (q.cfg.slot y.price)) :
    s.rank x.price ≤ s.rank y.price := by
  rcases h with heq | hb
  · exact (congrArg s.rank (hs.price_eq hx hy heq.symm)).le
  · rw [← hs.slotPrice_eq hx, ← hs.slotPrice_eq hy]
    cases s with
    | buy => exact Int.neg_le_neg (BookConfig.slotPrice_mono hb.le)
    | sell => exact BookConfig.slotPrice_mono hb.le

/-- The walk lists the orders from the best price to the worst. -/
theorem Sharp.walk_sorted (hs : q.Sharp) (h : q.Walk s p xs) :
    xs.Pairwise fun a b => s.rank a.price ≤ s.rank b.price := by
  induction h with
  | done => exact .nil
  | @next p xs hp rest ih =>
    refine List.pairwise_append.2 ⟨?_, ih, fun a ha b hb => ?_⟩
    · refine List.pairwise_of_forall_mem_list fun a ha b hb => ?_
      obtain ⟨ha, -, hslot⟩ := mem_queue.1 ha
      obtain ⟨hb, -, hslot'⟩ := mem_queue.1 hb
      exact hs.rank_le ha hb (Or.inl (hslot'.trans hslot.symm))
    · obtain ⟨hmem, hside, hslot⟩ := mem_queue.1 ha
      refine hs.rank_le hmem (rest.mem hb).1 ?_
      rw [hslot]
      exact ((Walk.next hp rest).reaches (List.mem_append_right _ hb)).2

/-- The orders of a price are among those of its slot. -/
theorem restingAt_eq_filter_atSlot (cfg : BookConfig) (s : Side) (p : Int)
    (xs : List RestingOrder) :
    restingAt s p xs = (atSlot cfg s (cfg.slot p) xs).filter fun x => decide (x.price = p) := by
  rw [restingAt, atSlot, List.filter_filter]
  refine List.filter_congr fun x _ => ?_
  rw [← Bool.decide_and, decide_eq_decide]
  constructor
  · rintro ⟨hs, rfl⟩
    exact ⟨rfl, hs, rfl⟩
  · rintro ⟨hp, hs, -⟩
    exact ⟨hs, hp⟩

/-- The walk lists the orders of each price as they joined. -/
theorem Wf.walk_restingAt (hw : q.Wf) (hv : q.InSight) (h : q.Walk s (q.best s) xs) (p : Int) :
    restingAt s p xs = restingAt s p q.orders := by
  rw [restingAt_eq_filter_atSlot q.cfg, hw.walk_queue hv h, if_pos rfl, queue_eq_atSlot,
    ← restingAt_eq_filter_atSlot]

end Walk

end QueueBook

namespace BookMirror

section Follows

variable {m : BookMirror} {r : Replica} {q : QueueBook} {s : Side}

/-- The deques of a mirror, read out, are the orders of that side and price. -/
theorem Mirrors.deque_order (h : m.Mirrors r) (s : Side) (p : Int) :
    ((m.deque ⟨s, p⟩).map fun deq => deq.map (MirrorOrder.order · s)).getD [] =
      restingAt s p r.orders := by
  have hback : ((restingAt s p r.orders).map RestingOrder.mirrored).map (MirrorOrder.order · s) =
      restingAt s p r.orders := by
    rw [List.map_map]
    refine (List.map_congr_left fun x hx => ?_).trans (List.map_id _)
    obtain ⟨-, rfl, -⟩ := mem_restingAt.1 hx
    rfl
  rw [h.deque, dequeOf]
  split
  · next hnil => exact hnil.symm
  · exact hback

/-- The orders of an entry have the price of its key. -/
theorem Mirrors.walk_keys (h : m.Mirrors r) : ∀ e ∈ (m.levels s).entries,
    ∀ x ∈ e.2.map (MirrorOrder.order · s), s.rank x.price = e.1 := by
  intro e he x hx
  have hfind : m.deque ⟨s, s.rank e.1⟩ = some e.2 := by
    rw [BookMirror.deque, Side.rank_rank]
    exact SortedMap.find_eq_some.2 he
  have horder := h.deque_order s (s.rank e.1)
  rw [hfind, Option.map_some, Option.getD_some] at horder
  rw [horder] at hx
  rw [(mem_restingAt.1 hx).2.2, Side.rank_rank]

/-- The walk over a side, price by price. -/
theorem Mirrors.filter_walkSide (h : m.Mirrors r) (s : Side) (k : Int) :
    (m.walkSide s).filter (fun x => decide (s.rank x.price = k)) =
      restingAt s (s.rank k) r.orders := by
  have hdeque := h.deque_order s (s.rank k)
  rw [BookMirror.deque, Side.rank_rank] at hdeque
  rw [walkSide, SortedMap.filter_flatMap h.walk_keys, hdeque]

theorem Mirrors.walkSide_eq (h : m.Mirrors q.replica) (hs : q.Sharp) {xs : List RestingOrder}
    (hwalk : q.Walk s (q.best s) xs) : m.walkSide s = xs := by
  refine eq_of_sorted_of_filter (SortedMap.sorted_flatMap h.walk_keys) (hs.walk_sorted hwalk)
    fun k => ?_
  refine (h.filter_walkSide s k).trans ?_
  rw [QueueBook.replica, ← hs.wf.walk_restingAt hs.inSight hwalk, restingAt]
  refine List.filter_congr fun x hx => ?_
  rw [decide_eq_decide]
  constructor
  · rintro ⟨-, hp⟩
    rw [hp, Side.rank_rank]
  · intro hk
    exact ⟨(hwalk.mem hx).2, by rw [← hk, Side.rank_rank]⟩

/-- **The walk over the mirror** lists what it holds. -/
theorem Mirrors.forEachOrder_perm (h : m.Mirrors r) : m.forEachOrder.Perm r.orders := by
  have hcount : ∀ s x, (m.walkSide s).count x = if x.side = s then r.orders.count x else 0 := by
    intro s x
    rw [← List.count_filter (p := fun y => decide (s.rank y.price = s.rank x.price))
      (decide_eq_true rfl), h.filter_walkSide, Side.rank_rank]
    split
    · next hs => exact List.count_filter (decide_eq_true ⟨hs, rfl⟩)
    · next hs => exact List.count_eq_zero.2 fun hx => hs (mem_restingAt.1 hx).2.1
  refine List.perm_iff_count.2 fun x => ?_
  rw [forEachOrder, List.count_append, hcount, hcount]
  cases x.side <;> simp

/-- The mirror holds the orders of the book, whose best prices are exact. -/
def Follows (m : BookMirror) (b : OrderBook) : Prop :=
  ∃ ps, b.Repr ps none ∧ (b.view ps).Sharp ∧ (b.view ps).Fits ∧ m.Mirrors (b.view ps).replica

/-- **The walk over the mirror is the walk over the book.** -/
theorem Follows.walk {b : OrderBook} (h : m.Follows b) :
    b.canonicalWalk = some m.forEachOrder ∧ m.lastSeq = b.seq ∧ m.tradeCount = b.nextTradeId := by
  obtain ⟨ps, hr, hs, -, hm⟩ := h
  obtain ⟨xs, ys, hwalk, hx, hy⟩ := OrderBook.canonicalWalk_spec hr hs.wf
  rw [hwalk, forEachOrder, hm.walkSide_eq hs hx, hm.walkSide_eq hs hy]
  exact ⟨rfl, hm.lastSeq, hm.tradeCount⟩

/-- **One command**: its events lead the mirror to the new book. -/
theorem Follows.dispatch {t : MatchingThread} (h : m.Follows t.book) {cmd : Command}
    (ha : cmd.submission.Aligned t.book.cfg) (hfits : t.overflows cmd = false) :
    ∃ events t', t.dispatch cmd = some (events, t') ∧ (m.applyAll events).Follows t'.book ∧
      t'.book.cfg = t.book.cfg := by
  obtain ⟨ps, hr, hs, hf, hm⟩ := h
  rcases MatchingThread.dispatch_spec hr hs.wf cmd with
    ⟨-, hd⟩ | ⟨k, e, b, ps', hk, hcall, hd, hr', hstep⟩
  · exact ⟨[], _, hd, ⟨ps, hr, hs, hf, hm⟩, rfl⟩
  · have hseq : 0 ≤ (t.book.view ps).seq := by
      have := hf.trades
      have := hf.credit
      omega
    have hread := hstep.publish_replica hs.wf hseq (t.dispatchSeq + 1)
      ((MatchingThread.overflows_eq_false_iff hk hcall).1 hfits)
    have hs' := hstep.sharp hs (ha k hk)
    refine ⟨_, _, hd, ⟨ps', hr', hs', hstep.fits hf (cmd.fits_call k), ?_⟩, hstep.cfg_eq⟩
    rw [← hread]
    refine hm.applyAll (publish_rests _ _ _ _) ?_
    rw [hread]
    exact hs'.wf.ids

theorem Follows.run {t : MatchingThread} (h : m.Follows t.book) {cmds : List Command}
    (ha : ∀ cmd ∈ cmds, cmd.submission.Aligned t.book.cfg) (hfits : t.runFits cmds = true) :
    ∃ events t', t.run cmds = some (events, t') ∧ (m.applyAll events).Follows t'.book := by
  induction cmds generalizing m t with
  | nil => exact ⟨[], t, rfl, h⟩
  | cons cmd cmds ih =>
    rw [MatchingThread.runFits, Bool.and_eq_true, Bool.not_eq_true'] at hfits
    obtain ⟨events, t₁, hd, h₁, hcfg⟩ := h.dispatch (ha cmd List.mem_cons_self) hfits.1
    have hrest := hfits.2
    rw [hd, Option.all_some] at hrest
    obtain ⟨events', t', hrun, h'⟩ := ih h₁ (fun c hc => by
      rw [hcfg]
      exact ha c (List.mem_cons_of_mem _ hc)) hrest
    refine ⟨events ++ events', t', ?_, ?_⟩
    · rw [MatchingThread.run, hd]
      change (t₁.run cmds).bind _ = _
      rw [hrun]
      rfl
    · rw [applyAll, List.foldl_append]
      exact h'

theorem follows_create {cfg : BookConfig} {b : OrderBook} (h : OrderBook.create cfg = some b) :
    empty.Follows b := by
  obtain ⟨hr, hview⟩ := OrderBook.repr_create h
  refine ⟨[], hr, OrderBook.sharp_create h, ?_, ?_⟩
  · rw [hview]
    exact OrderBook.fits_emptyView cfg
  · rw [hview]
    exact mirrors_empty

/-- **The mirror follows the matching thread**: after the events of any sequence of commands on
the grid, none of which overflows the buffers, it holds exactly the book. -/
theorem mirror_follows {cfg : BookConfig} {b : OrderBook} (hb : OrderBook.create cfg = some b)
    (cmds : List Command) (ha : ∀ cmd ∈ cmds, cmd.submission.Aligned cfg)
    (hfits : (⟨b, 0⟩ : MatchingThread).runFits cmds = true) :
    ∃ events t, (⟨b, 0⟩ : MatchingThread).run cmds = some (events, t) ∧
      t.book.canonicalWalk = some (empty.applyAll events).forEachOrder ∧
      (empty.applyAll events).lastSeq = t.book.seq ∧
      (empty.applyAll events).tradeCount = t.book.nextTradeId := by
  have hcfg : b.cfg = cfg := congrArg QueueBook.cfg (OrderBook.repr_create hb).2
  obtain ⟨events, t, hrun, hfollows⟩ := (follows_create hb).run (t := ⟨b, 0⟩)
    (by rw [hcfg]; exact ha) hfits
  exact ⟨events, t, hrun, hfollows.walk⟩

open RecoveryManager in
theorem mirror_follows_smallCommands : ∃ b events t,
    OrderBook.create OrderBook.smallConfig = some b ∧
      (⟨b, 0⟩ : MatchingThread).run smallCommands = some (events, t) ∧
      t.book.canonicalWalk = some (empty.applyAll events).forEachOrder ∧
      (empty.applyAll events).lastSeq = t.book.seq ∧
      (empty.applyAll events).tradeCount = t.book.nextTradeId := by
  have hb := OrderBook.create_smallConfig
  obtain ⟨events, t, h⟩ := mirror_follows hb smallCommands (by decide) (by decide +kernel)
  exact ⟨_, events, t, hb, h⟩

open RecoveryManager in
/-- The mirror holds an order at its side's empty sentinel, and the walk over the book does not
come to it. -/
theorem sentinel_order_only_in_mirror :
    OrderBook.create OrderBook.topConfig = some topBook ∧
      (⟨topBook, 0⟩ : MatchingThread).run [sentinelSell] = some topRun ∧
      (⟨topBook, 0⟩ : MatchingThread).runFits [sentinelSell] = true ∧
      OrderBook.topConfig.onGrid sentinelSell.price.toInt = true ∧
      topRun.2.book.canonicalWalk = some [] ∧
      (empty.applyAll topRun.1).forEachOrder = [⟨1, kAskEmpty, 5, 5, 1, 1, .sell⟩] := by
  refine ⟨(Option.some_get _).symm, (Option.some_get _).symm, ?_⟩
  decide +kernel

end Follows

end BookMirror

end Velox
