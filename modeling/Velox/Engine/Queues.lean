import Velox.Engine.OrderBook

/-!
# The book as queues

The book without its heap: the resting orders in the order they joined, the two tracked best
prices and the counters. A level is the sublist of the orders of one side and slot, so
its FIFO order is that of the list.

The tracked best price stays part of the state, because it can differ from the best resting
price: a slot covers a whole tick interval, and an order priced at its side's empty sentinel is
never seen. Nothing here assumes that prices are multiples of the tick.

* `QueueBook.Match` — everything the match loop can do, one constructor per step.
* `QueueBook.Wf` — the invariant of every reachable state, kept by each step.
-/

namespace Velox

/-! ## Prices and slots -/

namespace BookConfig

def inRange (cfg : BookConfig) (p : Int) : Bool := decide (cfg.minPrice ≤ p ∧ p ≤ cfg.maxPrice)

/-- The slot a price falls into. -/
def slot (cfg : BookConfig) (p : Int) : Nat := ((p - cfg.minPrice) / cfg.tick).toNat

/-- The slot's own price. -/
def slotPrice (cfg : BookConfig) (i : Nat) : Int := cfg.minPrice + i * cfg.tick

def numSlots (cfg : BookConfig) : Nat := ((cfg.maxPrice - cfg.minPrice) / cfg.tick).toNat + 1

/-- An order at this price can rest without the tracked best price knowing: it is priced at its
side's sentinel, or in a slot whose own price is the sentinel. -/
def hidden (cfg : BookConfig) (s : Side) (p : Int) : Bool :=
  decide (p = emptySentinel s ∨ cfg.slotPrice (cfg.slot p) = emptySentinel s)

/-- On the tick grid. -/
def onGrid (cfg : BookConfig) (p : Int) : Bool := decide ((p - cfg.minPrice) % cfg.tick = 0)

variable {cfg : BookConfig}

theorem inRange_iff {p : Int} : cfg.inRange p = true ↔ cfg.minPrice ≤ p ∧ p ≤ cfg.maxPrice := by
  rw [inRange, decide_eq_true_eq]

theorem slot_mono {p p' : Int} (h : p ≤ p') : cfg.slot p ≤ cfg.slot p' :=
  Int.toNat_le_toNat (Int.ediv_le_ediv cfg.tick_pos (by omega))

theorem slot_lt {p : Int} (hp : cfg.inRange p = true) : cfg.slot p < cfg.numSlots := by
  rw [inRange_iff] at hp
  exact Nat.lt_succ_of_le (slot_mono hp.2)

theorem slotPrice_mono {i j : Nat} (h : i ≤ j) : cfg.slotPrice i ≤ cfg.slotPrice j := by
  have := Int.mul_le_mul_of_nonneg_right (Int.ofNat_le.2 h) cfg.tick_pos.le
  rw [slotPrice, slotPrice]
  omega

theorem slotPrice_inRange {i : Nat} (hi : i < cfg.numSlots) :
    cfg.inRange (cfg.slotPrice i) = true := by
  have hge : 0 ≤ (cfg.maxPrice - cfg.minPrice) / cfg.tick :=
    Int.ediv_nonneg (by have := cfg.ordered; omega) cfg.tick_pos.le
  rw [numSlots] at hi
  have hmul : (i : Int) * cfg.tick ≤ cfg.maxPrice - cfg.minPrice :=
    (Int.le_ediv_iff_mul_le cfg.tick_pos).1 (by omega)
  have hnn : 0 ≤ (i : Int) * cfg.tick := Int.mul_nonneg (by omega) cfg.tick_pos.le
  rw [inRange_iff, slotPrice]
  omega

theorem slot_slotPrice (i : Nat) : cfg.slot (cfg.slotPrice i) = i := by
  rw [slot, slotPrice, show cfg.minPrice + i * cfg.tick - cfg.minPrice = i * cfg.tick by ring,
    Int.mul_ediv_cancel _ cfg.tick_pos.ne']
  exact Int.toNat_natCast i

/-- On the grid, a slot holds one price. -/
theorem slotPrice_slot {p : Int} (hp : cfg.inRange p = true) (hg : cfg.onGrid p = true) :
    cfg.slotPrice (cfg.slot p) = p := by
  rw [inRange_iff] at hp
  rw [onGrid, decide_eq_true_eq] at hg
  have hge : 0 ≤ (p - cfg.minPrice) / cfg.tick := Int.ediv_nonneg (by omega) cfg.tick_pos.le
  have hmul := Int.ediv_mul_cancel_of_emod_eq_zero hg
  rw [slotPrice, slot, Int.toNat_of_nonneg hge]
  omega

end BookConfig

theorem Side.beyond_iff_lt {s : Side} {i j : Nat} :
    s.beyond i j ↔ (s = .buy ∧ j < i) ∨ (s = .sell ∧ i < j) := by
  cases s <;> simp [Side.beyond]

instance (s : Side) (i j : Nat) : Decidable (s.beyond i j) :=
  match s with
  | .buy => inferInstanceAs (Decidable (j < i))
  | .sell => inferInstanceAs (Decidable (i < j))

theorem Side.beyond_trichotomy (s : Side) (i j : Nat) : s.beyond i j ∨ i = j ∨ s.beyond j i := by
  cases s <;> simp only [Side.beyond] <;> omega

theorem Side.beyond_irrefl (s : Side) (i : Nat) : ¬ s.beyond i i := by
  cases s <;> exact Nat.lt_irrefl i

theorem Side.beyond_trans {s : Side} {i j k : Nat} (h₁ : s.beyond i j) (h₂ : s.beyond j k) :
    s.beyond i k := by
  cases s <;> simp only [Side.beyond] at * <;> omega

/-- `r` is the price of the nearest occupied slot beyond slot `i`, or the sentinel. -/
def IsNext (cfg : BookConfig) (s : Side) (occupied : Nat → Prop) (i : Nat) (r : Int) : Prop :=
  (r = emptySentinel s ∧ ∀ j, s.beyond i j → ¬ occupied j) ∨
    ∃ j, r = cfg.slotPrice j ∧ s.beyond i j ∧ occupied j ∧
      ∀ k, s.beyond i k → s.beyond k j → ¬ occupied k

theorem IsNext.unique {cfg : BookConfig} {s : Side} {occupied : Nat → Prop} {i : Nat} {r r' : Int}
    (h : IsNext cfg s occupied i r) (h' : IsNext cfg s occupied i r') : r = r' := by
  rcases h with ⟨hr, hno⟩ | ⟨j, hr, hb, hocc, hmin⟩ <;>
    rcases h' with ⟨hr', hno'⟩ | ⟨j', hr', hb', hocc', hmin'⟩
  · rw [hr, hr']
  · exact absurd hocc' (hno j' hb')
  · exact absurd hocc (hno' j hb)
  · rcases s.beyond_trichotomy j j' with hjj | rfl | hjj
    · exact absurd hocc (hmin' j hb hjj)
    · rw [hr, hr']
    · exact absurd hocc' (hmin j' hb' hjj)

theorem IsNext.congr {cfg : BookConfig} {s : Side} {occ occ' : Nat → Prop} {i : Nat} {r : Int}
    (h : IsNext cfg s occ i r) (heq : ∀ j, s.beyond i j → (occ j ↔ occ' j)) :
    IsNext cfg s occ' i r := by
  rcases h with ⟨hr, hno⟩ | ⟨j, hr, hb, hocc, hmin⟩
  · exact Or.inl ⟨hr, fun j hj hocc => hno j hj ((heq j hj).2 hocc)⟩
  · exact Or.inr ⟨j, hr, hb, (heq j hb).1 hocc, fun k hk hkj hocc' =>
      hmin k hk hkj ((heq k hk).2 hocc')⟩

/-! ## The state -/

structure QueueBook where
  cfg : BookConfig
  orders : List RestingOrder
  bestBid : Int
  bestAsk : Int
  seq : Int
  nextTradeId : Int

namespace QueueBook

def best (q : QueueBook) : Side → Int
  | .buy => q.bestBid
  | .sell => q.bestAsk

def setBest (q : QueueBook) : Side → Int → QueueBook
  | .buy, p => { q with bestBid := p }
  | .sell, p => { q with bestAsk := p }

/-- The orders of one side and slot, in the order they joined. -/
def queue (q : QueueBook) (s : Side) (i : Nat) : List RestingOrder :=
  q.orders.filter fun o => decide (o.side = s ∧ q.cfg.slot o.price = i)

/-- The occupied slots beyond slot `i`. -/
def slotsBeyond (q : QueueBook) (s : Side) (i : Nat) : List Nat :=
  (q.orders.filter fun o => decide (o.side = s ∧ s.beyond i (q.cfg.slot o.price))).map
    fun o => q.cfg.slot o.price

/-- The price of the nearest occupied slot beyond that of `start`, or the sentinel. -/
def nextOccupied (q : QueueBook) (s : Side) (start : Int) : Int :=
  let found := match s with
    | .buy => (q.slotsBeyond s (q.cfg.slot start)).max?
    | .sell => (q.slotsBeyond s (q.cfg.slot start)).min?
  match found with
  | none => emptySentinel s
  | some j => q.cfg.slotPrice j

/-- The level of `price` has emptied: the best price moves on if it was that price. -/
def levelEmptied (q : QueueBook) (s : Side) (price : Int) : QueueBook :=
  if price = q.best s then q.setBest s (q.nextOccupied s price) else q

/-- Report the level of `price` if it is empty. -/
def settle (q : QueueBook) (s : Side) (price : Int) : QueueBook :=
  if q.queue s (q.cfg.slot price) = [] then q.levelEmptied s price else q

def remove (q : QueueBook) (id : Int) : QueueBook :=
  { q with orders := q.orders.filter fun o => decide (o.id ≠ id) }

/-- `qty` of the order `id` has traded. -/
def reduce (q : QueueBook) (id qty : Int) : QueueBook :=
  { q with orders := q.orders.map fun o =>
      if o.id = id then { o with remaining := o.remaining - qty } else o }

/-- A fill of `qty` against `x`: it leaves if nothing remains. -/
def fill (q : QueueBook) (x : RestingOrder) (qty : Int) : QueueBook :=
  if x.remaining = qty then q.remove x.id else q.reduce x.id qty

/-- An order joins the back of its queue. -/
def add (q : QueueBook) (x : RestingOrder) : QueueBook :=
  let q' := { q with orders := q.orders ++ [x] }
  if x.side.isBetter x.price (q.best x.side) then q'.setBest x.side x.price else q'

def bumpTradeId (q : QueueBook) : QueueBook := { q with nextTradeId := q.nextTradeId + 1 }

section Fields

variable (q : QueueBook) (s t : Side) (p : Int)

@[simp] theorem setBest_orders : (q.setBest s p).orders = q.orders := by cases s <;> rfl
@[simp] theorem setBest_cfg : (q.setBest s p).cfg = q.cfg := by cases s <;> rfl
@[simp] theorem setBest_seq : (q.setBest s p).seq = q.seq := by cases s <;> rfl
@[simp] theorem setBest_nextTradeId : (q.setBest s p).nextTradeId = q.nextTradeId := by
  cases s <;> rfl

theorem setBest_best : (q.setBest s p).best t = if t = s then p else q.best t := by
  cases s <;> cases t <;> rfl

@[simp] theorem levelEmptied_orders : (q.levelEmptied s p).orders = q.orders := by
  rw [levelEmptied]; split <;> simp
@[simp] theorem levelEmptied_cfg : (q.levelEmptied s p).cfg = q.cfg := by
  rw [levelEmptied]; split <;> simp
@[simp] theorem levelEmptied_seq : (q.levelEmptied s p).seq = q.seq := by
  rw [levelEmptied]; split <;> simp
@[simp] theorem levelEmptied_nextTradeId : (q.levelEmptied s p).nextTradeId = q.nextTradeId := by
  rw [levelEmptied]; split <;> simp

@[simp] theorem settle_orders : (q.settle s p).orders = q.orders := by
  rw [settle]; split <;> simp
@[simp] theorem settle_cfg : (q.settle s p).cfg = q.cfg := by
  rw [settle]; split <;> simp
@[simp] theorem settle_seq : (q.settle s p).seq = q.seq := by
  rw [settle]; split <;> simp
@[simp] theorem settle_nextTradeId : (q.settle s p).nextTradeId = q.nextTradeId := by
  rw [settle]; split <;> simp

@[simp] theorem fill_cfg (x : RestingOrder) (n : Int) : (q.fill x n).cfg = q.cfg := by
  rw [fill]; split <;> rfl
@[simp] theorem fill_seq (x : RestingOrder) (n : Int) : (q.fill x n).seq = q.seq := by
  rw [fill]; split <;> rfl
@[simp] theorem fill_nextTradeId (x : RestingOrder) (n : Int) :
    (q.fill x n).nextTradeId = q.nextTradeId := by
  rw [fill]; split <;> rfl
@[simp] theorem fill_best (x : RestingOrder) (n : Int) : (q.fill x n).best s = q.best s := by
  rw [fill]; split <;> cases s <;> rfl

@[simp] theorem add_cfg (x : RestingOrder) : (q.add x).cfg = q.cfg := by
  simp only [add]; split <;> simp
@[simp] theorem add_orders (x : RestingOrder) : (q.add x).orders = q.orders ++ [x] := by
  simp only [add]; split <;> simp
@[simp] theorem add_seq (x : RestingOrder) : (q.add x).seq = q.seq := by
  simp only [add]; split <;> simp
@[simp] theorem add_nextTradeId (x : RestingOrder) : (q.add x).nextTradeId = q.nextTradeId := by
  simp only [add]; split <;> simp

theorem add_best (x : RestingOrder) : (q.add x).best s =
    if s = x.side ∧ s.isBetter x.price (q.best s) = true then x.price else q.best s := by
  simp only [add]
  by_cases hs : s = x.side
  · subst hs
    by_cases hb : x.side.isBetter x.price (q.best x.side) = true
    · rw [if_pos hb, setBest_best, if_pos rfl, if_pos ⟨rfl, hb⟩]
    · have hno : ¬ (x.side = x.side ∧ x.side.isBetter x.price (q.best x.side) = true) :=
        fun hc => hb hc.2
      rw [if_neg hb, if_neg hno]
      cases x.side <;> rfl
  · have hno : ¬ (s = x.side ∧ s.isBetter x.price (q.best s) = true) := fun hc => hs hc.1
    rw [if_neg hno]
    split
    · rw [setBest_best, if_neg hs]
      cases s <;> rfl
    · cases s <;> rfl

end Fields

theorem mem_queue {q : QueueBook} {s : Side} {i : Nat} {o : RestingOrder} :
    o ∈ q.queue s i ↔ o ∈ q.orders ∧ o.side = s ∧ q.cfg.slot o.price = i := by
  rw [queue, List.mem_filter, decide_eq_true_eq]

theorem queue_congr {q q' : QueueBook} (hc : q'.cfg = q.cfg) (ho : q'.orders = q.orders) (s : Side)
    (i : Nat) : q'.queue s i = q.queue s i := by
  rw [queue, queue, hc, ho]

theorem queue_ne_nil_iff {q : QueueBook} {s : Side} {i : Nat} :
    q.queue s i ≠ [] ↔ ∃ o ∈ q.orders, o.side = s ∧ q.cfg.slot o.price = i := by
  constructor
  · intro hne
    obtain ⟨o, ho⟩ := List.exists_mem_of_ne_nil _ hne
    exact ⟨o, mem_queue.1 ho⟩
  · rintro ⟨o, ho⟩
    exact List.ne_nil_of_mem (mem_queue.2 ho)

theorem mem_slotsBeyond {q : QueueBook} {s : Side} {i j : Nat} :
    j ∈ q.slotsBeyond s i ↔ s.beyond i j ∧ q.queue s j ≠ [] := by
  rw [slotsBeyond, List.mem_map, queue_ne_nil_iff]
  constructor
  · rintro ⟨o, ho, rfl⟩
    rw [List.mem_filter, decide_eq_true_eq] at ho
    exact ⟨ho.2.2, o, ho.1, ho.2.1, rfl⟩
  · rintro ⟨hb, o, ho, hs, rfl⟩
    exact ⟨o, by rw [List.mem_filter, decide_eq_true_eq]; exact ⟨ho, hs, hb⟩, rfl⟩

theorem nextOccupied_isNext (q : QueueBook) (s : Side) (p : Int) :
    IsNext q.cfg s (fun i => q.queue s i ≠ []) (q.cfg.slot p) (q.nextOccupied s p) := by
  have hnil : q.slotsBeyond s (q.cfg.slot p) = [] →
      ∀ j, s.beyond (q.cfg.slot p) j → ¬ q.queue s j ≠ [] := by
    intro hnil j hb hocc
    have := mem_slotsBeyond.2 ⟨hb, hocc⟩
    rw [hnil] at this
    cases this
  cases s with
  | buy =>
    rw [nextOccupied]
    cases hf : (q.slotsBeyond .buy (q.cfg.slot p)).max? with
    | none => exact Or.inl ⟨rfl, hnil (List.max?_eq_none_iff.1 hf)⟩
    | some j =>
      rw [List.max?_eq_some_iff] at hf
      obtain ⟨hb, hocc⟩ := mem_slotsBeyond.1 hf.1
      refine Or.inr ⟨j, rfl, hb, hocc, fun k hk hkj hocc' => ?_⟩
      have hle := hf.2 k (mem_slotsBeyond.2 ⟨hk, hocc'⟩)
      exact absurd hkj (Nat.not_lt.2 hle)
  | sell =>
    rw [nextOccupied]
    cases hf : (q.slotsBeyond .sell (q.cfg.slot p)).min? with
    | none => exact Or.inl ⟨rfl, hnil (List.min?_eq_none_iff.1 hf)⟩
    | some j =>
      rw [List.min?_eq_some_iff] at hf
      obtain ⟨hb, hocc⟩ := mem_slotsBeyond.1 hf.1
      refine Or.inr ⟨j, rfl, hb, hocc, fun k hk hkj hocc' => ?_⟩
      have hle := hf.2 k (mem_slotsBeyond.2 ⟨hk, hocc'⟩)
      exact absurd hkj (Nat.not_lt.2 hle)

/-! ## The invariant -/

/-- What holds of every book that was built by its own operations. -/
structure Wf (q : QueueBook) : Prop where
  inRange : ∀ o ∈ q.orders, q.cfg.inRange o.price = true
  positive : ∀ o ∈ q.orders, 0 < o.remaining ∧ o.remaining ≤ o.quantity
  ids : (q.orders.map RestingOrder.id).Nodup
  room : q.orders.length ≤ q.cfg.maxOrders
  seqs : ∀ s i, (q.queue s i).Pairwise fun a b => a.seq < b.seq
  seq_le : ∀ o ∈ q.orders, o.seq ≤ q.seq
  best : ∀ s, q.best s = emptySentinel s ∨ q.cfg.inRange (q.best s) = true
  /-- The tracked best is never behind an order it can see. -/
  ahead : ∀ o ∈ q.orders, q.cfg.hidden o.side o.price = false →
    q.best o.side ≠ emptySentinel o.side ∧
      (q.cfg.slot o.price = q.cfg.slot (q.best o.side) ∨
        o.side.beyond (q.cfg.slot (q.best o.side)) (q.cfg.slot o.price))

section Wf

variable {q : QueueBook}

theorem Wf.eq_of_id (hw : q.Wf) {a b : RestingOrder} (ha : a ∈ q.orders) (hb : b ∈ q.orders)
    (hid : a.id = b.id) : a = b :=
  List.inj_on_of_nodup_map hw.ids ha hb hid

theorem remove_queue (s : Side) (i : Nat) (id : Int) :
    (q.remove id).queue s i = (q.queue s i).filter fun o => decide (o.id ≠ id) := by
  rw [queue, remove, queue, List.filter_filter, List.filter_filter]
  exact List.filter_congr fun o _ => Bool.and_comm ..

theorem remove_sublist (q : QueueBook) (id : Int) : (q.remove id).orders.Sublist q.orders :=
  List.filter_sublist

theorem Wf.remove (hw : q.Wf) (id : Int) : (q.remove id).Wf := by
  have hsub := q.remove_sublist id
  refine ⟨fun o ho => hw.inRange o (hsub.mem ho), fun o ho => hw.positive o (hsub.mem ho),
    hw.ids.sublist (hsub.map _), hsub.length_le.trans hw.room, fun s i => ?_,
    fun o ho => hw.seq_le o (hsub.mem ho), hw.best, fun o ho => hw.ahead o (hsub.mem ho)⟩
  rw [remove_queue]
  exact (hw.seqs s i).filter _

/-- The queue without its head. -/
theorem Wf.remove_head_queue (hw : q.Wf) {s : Side} {i : Nat} {x : RestingOrder}
    {xs : List RestingOrder} (hq : q.queue s i = x :: xs) : (q.remove x.id).queue s i = xs := by
  have hnd : ((x :: xs).map RestingOrder.id).Nodup := by
    rw [← hq]
    exact hw.ids.sublist (List.filter_sublist.map _)
  rw [List.map_cons, List.nodup_cons] at hnd
  rw [remove_queue, hq, List.filter_cons_of_neg (by simp), List.filter_eq_self]
  intro y hy
  rw [decide_eq_true_eq]
  exact fun hid => hnd.1 (List.mem_map.2 ⟨y, hy, hid⟩)

/-- The other queues do not see a removal. -/
theorem Wf.remove_other_queue (hw : q.Wf) {s t : Side} {i j : Nat} {x : RestingOrder}
    (hx : x ∈ q.queue s i) (hne : t ≠ s ∨ j ≠ i) : (q.remove x.id).queue t j = q.queue t j := by
  obtain ⟨hx, hs, hi⟩ := mem_queue.1 hx
  rw [remove_queue, List.filter_eq_self]
  intro y hy
  obtain ⟨hy, ht, hj⟩ := mem_queue.1 hy
  rw [decide_eq_true_eq]
  intro hid
  have hyx := hw.eq_of_id hy hx hid
  subst hyx
  rcases hne with h | h
  · exact h (ht.symm.trans hs)
  · exact h (hj.symm.trans hi)

/-- What a change of the remaining quantities leaves alone. -/
theorem reduce_mem {id qty : Int} {o : RestingOrder} (ho : o ∈ (q.reduce id qty).orders) :
    ∃ o' ∈ q.orders,
      o = if o'.id = id then { o' with remaining := o'.remaining - qty } else o' := by
  obtain ⟨o', ho', rfl⟩ := List.mem_map.1 ho
  exact ⟨o', ho', rfl⟩

theorem reduce_queue (s : Side) (i : Nat) (id qty : Int) :
    (q.reduce id qty).queue s i = (q.queue s i).map fun o =>
      if o.id = id then { o with remaining := o.remaining - qty } else o := by
  rw [queue, reduce, queue, List.filter_map]
  congr 1
  refine List.filter_congr fun o _ => ?_
  simp only [Function.comp]
  split <;> rfl

theorem Wf.reduce (hw : q.Wf) {x : RestingOrder} {qty : Int} (hx : x ∈ q.orders)
    (hqty : 0 ≤ qty ∧ qty < x.remaining) : (q.reduce x.id qty).Wf := by
  have hmap : ∀ {α : Type} (f : RestingOrder → α), (∀ o : RestingOrder,
      f { o with remaining := o.remaining - qty } = f o) →
      ∀ o, f (if o.id = x.id then { o with remaining := o.remaining - qty } else o) = f o := by
    intro α f hf o
    split
    · exact hf o
    · rfl
  refine ⟨fun o ho => ?_, fun o ho => ?_, ?_, ?_, fun s i => ?_, fun o ho => ?_, hw.best,
    fun o ho => ?_⟩
  · obtain ⟨o', ho', rfl⟩ := reduce_mem ho
    rw [hmap RestingOrder.price fun _ => rfl]
    exact hw.inRange o' ho'
  · obtain ⟨o', ho', rfl⟩ := reduce_mem ho
    have hpos := hw.positive o' ho'
    split
    · next hid =>
      rw [hw.eq_of_id ho' hx hid] at hpos ⊢
      dsimp only
      omega
    · exact hpos
  · rw [QueueBook.reduce, List.map_map, show RestingOrder.id ∘ _ = RestingOrder.id from
      funext (hmap RestingOrder.id fun _ => rfl)]
    exact hw.ids
  · rw [QueueBook.reduce, List.length_map]
    exact hw.room
  · rw [reduce_queue, List.pairwise_map]
    refine (hw.seqs s i).imp fun hab => ?_
    rw [hmap RestingOrder.seq fun _ => rfl, hmap RestingOrder.seq fun _ => rfl]
    exact hab
  · obtain ⟨o', ho', rfl⟩ := reduce_mem ho
    rw [hmap RestingOrder.seq fun _ => rfl]
    exact hw.seq_le o' ho'
  · obtain ⟨o', ho', rfl⟩ := reduce_mem ho
    rw [hmap RestingOrder.price fun _ => rfl, hmap RestingOrder.side fun _ => rfl]
    exact hw.ahead o' ho'

/-- **A fill keeps the invariant.** -/
theorem Wf.fill (hw : q.Wf) {x : RestingOrder} {qty : Int} (hx : x ∈ q.orders)
    (hqty : 0 ≤ qty ∧ qty ≤ x.remaining) : (q.fill x qty).Wf := by
  rw [QueueBook.fill]
  split
  · exact hw.remove x.id
  · exact hw.reduce hx (by omega)

/-- Beyond a slot whose own price is the sentinel there are only hidden prices. -/
theorem hidden_of_slotPrice {cfg : BookConfig} {s : Side} {j : Nat} {p : Int}
    (hp : cfg.inRange p = true) (hj : cfg.slotPrice j = emptySentinel s)
    (hb : cfg.slot p = j ∨ s.beyond j (cfg.slot p)) : cfg.hidden s p = true := by
  have hrange := BookConfig.inRange_iff.1 (BookConfig.slotPrice_inRange (BookConfig.slot_lt hp))
  have hlo := cfg.minPrice_fits
  have hhi := cfg.maxPrice_fits
  rw [BookConfig.hidden, decide_eq_true_eq]
  right
  rcases hb with rfl | hb
  · exact hj
  · cases s with
    | buy =>
      have hle : cfg.slotPrice (cfg.slot p) ≤ cfg.slotPrice j := BookConfig.slotPrice_mono hb.le
      rw [hj] at hle
      exact le_antisymm hle (hlo.trans hrange.1)
    | sell =>
      have hle : cfg.slotPrice j ≤ cfg.slotPrice (cfg.slot p) := BookConfig.slotPrice_mono hb.le
      rw [hj] at hle
      exact le_antisymm (hrange.2.trans hhi) hle

/-- **Reporting an emptied level keeps the invariant**: every order the old best price was
ahead of lies in the slot found or beyond it. -/
theorem Wf.levelEmptied (hw : q.Wf) {s : Side} {p : Int}
    (hempty : q.queue s (q.cfg.slot p) = []) : (q.levelEmptied s p).Wf := by
  by_cases hp : p = q.best s
  · have hnext := q.nextOccupied_isNext s p
    rw [QueueBook.levelEmptied, if_pos hp]
    generalize q.nextOccupied s p = r at hnext
    have hq : ∀ t i, (q.setBest s r).queue t i = q.queue t i :=
      queue_congr (setBest_cfg ..) (setBest_orders ..)
    refine ⟨?_, ?_, ?_, ?_, fun t i => ?_, ?_, fun t => ?_, fun o ho hvis => ?_⟩
    · simpa using hw.inRange
    · simpa using hw.positive
    · simpa using hw.ids
    · simpa using hw.room
    · rw [hq]
      exact hw.seqs t i
    · simpa using hw.seq_le
    · rw [setBest_best, setBest_cfg]
      split
      · next ht =>
        subst ht
        rcases hnext with ⟨hr, -⟩ | ⟨j, hr, -, hocc, -⟩
        · exact Or.inl hr
        · obtain ⟨o, ho, -, rfl⟩ := queue_ne_nil_iff.1 hocc
          rw [hr]
          exact Or.inr (BookConfig.slotPrice_inRange (BookConfig.slot_lt (hw.inRange o ho)))
      · exact hw.best t
    · rw [setBest_orders] at ho
      rw [setBest_cfg] at hvis
      rw [setBest_best, setBest_cfg]
      have hold := hw.ahead o ho hvis
      by_cases ht : o.side = s
      · subst ht
        rw [if_pos rfl]
        have hocc : q.queue o.side (q.cfg.slot o.price) ≠ [] := queue_ne_nil_iff.2 ⟨o, ho, rfl, rfl⟩
        have hb : o.side.beyond (q.cfg.slot p) (q.cfg.slot o.price) := by
          rw [← hp] at hold
          refine hold.2.resolve_left fun heq => hocc ?_
          rw [heq]
          exact hempty
        rcases hnext with ⟨-, hno⟩ | ⟨j, hr, -, -, hmin⟩
        · exact absurd hocc (hno _ hb)
        · have hj : q.cfg.slot o.price = j ∨ o.side.beyond j (q.cfg.slot o.price) := by
            rcases o.side.beyond_trichotomy j (q.cfg.slot o.price) with h | h | h
            · exact Or.inr h
            · exact Or.inl h.symm
            · exact absurd hocc (hmin _ hb h)
          refine ⟨fun hsent => ?_, ?_⟩
          · rw [hidden_of_slotPrice (hw.inRange o ho) (hr.symm.trans hsent) hj] at hvis
            cases hvis
          · rw [hr, BookConfig.slot_slotPrice]
            exact hj
      · rw [if_neg ht]
        exact hold
  · rw [QueueBook.levelEmptied, if_neg hp]
    exact hw

theorem Wf.settle (hw : q.Wf) (s : Side) (p : Int) : (q.settle s p).Wf := by
  rw [QueueBook.settle]
  split
  · next hempty => exact hw.levelEmptied hempty
  · exact hw

theorem Wf.bumpTradeId (hw : q.Wf) : q.bumpTradeId.Wf :=
  ⟨hw.inRange, hw.positive, hw.ids, hw.room, hw.seqs, hw.seq_le, hw.best, hw.ahead⟩

theorem isBetter_sentinel {cfg : BookConfig} {s : Side} {p b : Int} (hp : cfg.inRange p = true)
    (hb : b = emptySentinel s ∨ cfg.inRange b = true) :
    (s.isBetter p b = true → p ≠ emptySentinel s) ∧
      (s.isBetter p b = false → b = emptySentinel s → p = emptySentinel s) := by
  have hlo := cfg.minPrice_fits
  have hhi := cfg.maxPrice_fits
  rw [BookConfig.inRange_iff] at hp hb
  cases s <;> simp only [Side.isBetter, emptySentinel, decide_eq_true_eq, decide_eq_false_iff_not]
    at * <;> omega

/-- A price that is not better lies in the same slot or beyond. -/
theorem slot_of_not_better (cfg : BookConfig) {s : Side} {p b : Int}
    (h : s.isBetter p b = false) :
    cfg.slot p = cfg.slot b ∨ s.beyond (cfg.slot b) (cfg.slot p) := by
  cases s with
  | buy =>
    rw [Side.isBetter, decide_eq_false_iff_not, not_lt] at h
    exact (BookConfig.slot_mono h).eq_or_lt
  | sell =>
    rw [Side.isBetter, decide_eq_false_iff_not, not_lt] at h
    exact (BookConfig.slot_mono h).eq_or_lt.imp_left Eq.symm

theorem isBetter_asymm {s : Side} {p b : Int} (h : s.isBetter p b = true) :
    s.isBetter b p = false := by
  cases s <;> simp only [Side.isBetter, decide_eq_true_eq, decide_eq_false_iff_not] at * <;> omega

theorem add_queue (x : RestingOrder) (s : Side) (i : Nat) : (q.add x).queue s i =
    if x.side = s ∧ q.cfg.slot x.price = i then q.queue s i ++ [x] else q.queue s i := by
  rw [queue, add_orders, add_cfg, List.filter_append]
  by_cases hx : x.side = s ∧ q.cfg.slot x.price = i
  · simp [queue, hx]
  · simp [queue, hx]

/-- **An order that rests keeps the invariant**: it is later than those it joins. -/
theorem Wf.add (hw : q.Wf) {x : RestingOrder} (hr : q.cfg.inRange x.price = true)
    (hpos : 0 < x.remaining ∧ x.remaining ≤ x.quantity) (hid : ∀ o ∈ q.orders, o.id ≠ x.id)
    (hroom : q.orders.length < q.cfg.maxOrders)
    (hseq : ∀ o ∈ q.queue x.side (q.cfg.slot x.price), o.seq < x.seq)
    (hle : x.seq ≤ q.seq) : (q.add x).Wf := by
  have hmem : ∀ {o}, o ∈ (q.add x).orders → o ∈ q.orders ∨ o = x := by
    intro o ho
    rw [add_orders, List.mem_append, List.mem_singleton] at ho
    exact ho
  refine ⟨fun o ho => ?_, fun o ho => ?_, ?_, ?_, fun s i => ?_, fun o ho => ?_, fun s => ?_,
    fun o ho hvis => ?_⟩
  · rw [add_cfg]
    rcases hmem ho with ho | rfl
    · exact hw.inRange o ho
    · exact hr
  · rcases hmem ho with ho | rfl
    · exact hw.positive o ho
    · exact hpos
  · rw [add_orders, List.map_append, List.nodup_append]
    refine ⟨hw.ids, List.nodup_singleton _, fun a ha b hb => ?_⟩
    obtain ⟨o, ho, rfl⟩ := List.mem_map.1 ha
    rw [List.map_singleton, List.mem_singleton] at hb
    rw [hb]
    exact hid o ho
  · rw [add_orders, add_cfg, List.length_append, List.length_singleton]
    exact hroom
  · rw [add_queue]
    split
    · next hjoin =>
      rw [List.pairwise_append]
      refine ⟨hw.seqs s i, List.pairwise_singleton _ _, fun a ha b hb => ?_⟩
      rw [List.mem_singleton] at hb
      rw [hb]
      rw [← hjoin.1, ← hjoin.2] at ha
      exact hseq a ha
    · exact hw.seqs s i
  · rw [add_seq]
    rcases hmem ho with ho | rfl
    · exact hw.seq_le o ho
    · exact hle
  · rw [add_best, add_cfg]
    split
    · exact Or.inr hr
    · exact hw.best s
  · rw [add_cfg] at hvis
    rw [add_best, add_cfg]
    have hsent := isBetter_sentinel hr (hw.best x.side)
    rcases hmem ho with ho | rfl
    · have hold := hw.ahead o ho hvis
      split
      · next hb =>
        rw [← hb.1] at hsent
        refine ⟨hsent.1 hb.2, ?_⟩
        rcases slot_of_not_better q.cfg (isBetter_asymm hb.2) with heq | hbey
        · rw [← heq]
          exact hold.2
        · rcases hold.2 with heq | hbey'
          · rw [heq]
            exact Or.inr hbey
          · exact Or.inr (Side.beyond_trans hbey hbey')
      · exact hold
    · have hxs : o.price ≠ emptySentinel o.side := by
        intro heq
        rw [BookConfig.hidden, decide_eq_false_iff_not] at hvis
        exact hvis (Or.inl heq)
      split
      · exact ⟨hxs, Or.inl rfl⟩
      · next hb =>
        have hb' : o.side.isBetter o.price (q.best o.side) = false := by
          rw [Bool.eq_false_iff]
          exact fun hc => hb ⟨rfl, hc⟩
        exact ⟨fun heq => hxs (hsent.2 hb' heq), slot_of_not_better _ hb'⟩

end Wf

/-! ## Matching -/

/-- The loop looks at the best opposite level: quantity is left, there is a best price and it
crosses. -/
structure Looks (q : QueueBook) (o : NewOrder) (rem : Int) : Prop where
  rem_pos : 0 < rem
  hasBest : q.best o.side.opposite ≠ emptySentinel o.side.opposite
  crosses : crosses o.type o.side o.price (q.best o.side.opposite) = true

/-- The queue at the best opposite price. -/
def front (q : QueueBook) (o : NewOrder) : List RestingOrder :=
  q.queue o.side.opposite (q.cfg.slot (q.best o.side.opposite))

/-- The trade of `o` against `x`. -/
def tradeOf (q : QueueBook) (o : NewOrder) (x : RestingOrder) (rem : Int) : Trade :=
  ⟨q.nextTradeId, o.id, x.id, x.price, min rem x.remaining, o.side⟩

/-- The book after that trade. -/
def afterTrade (q : QueueBook) (o : NewOrder) (x : RestingOrder) (rem : Int) : QueueBook :=
  (q.bumpTradeId.fill x (min rem x.remaining)).settle o.side.opposite (q.best o.side.opposite)

/-- The book after self-trade prevention has removed `x`. -/
def afterVictim (q : QueueBook) (o : NewOrder) (x : RestingOrder) : QueueBook :=
  (q.remove x.id).settle o.side.opposite (q.best o.side.opposite)

/-- `Match o q rem outcome ts vs q' rem'`: matching `rem` of `o` against the book `q` ends with
`outcome`, having made the trades `ts` and removed the victims `vs`, and leaves `q'` with `rem'`
unfilled. -/
inductive Match (o : NewOrder) : QueueBook → Int → MatchOutcome → List Trade → List StpVictim →
    QueueBook → Int → Prop
  | exhausted {q rem} (h : ¬ (0 < rem ∧ q.best o.side.opposite ≠ emptySentinel o.side.opposite)) :
      Match o q rem .exhausted [] [] q rem
  | noLongerCrosses {q rem} (hpos : 0 < rem)
      (hbest : q.best o.side.opposite ≠ emptySentinel o.side.opposite)
      (hc : crosses o.type o.side o.price (q.best o.side.opposite) = false) :
      Match o q rem .noLongerCrosses [] [] q rem
  | stale {q rem out ts vs q' rem'} (hl : q.Looks o rem) (hf : q.front o = [])
      (rest : Match o (q.levelEmptied o.side.opposite (q.best o.side.opposite)) rem out ts vs q' rem') :
      Match o q rem out ts vs q' rem'
  | trade {q rem out ts vs q' rem' x xs} (hl : q.Looks o rem) (hf : q.front o = x :: xs)
      (hp : x.participant ≠ o.participant)
      (rest : Match o (q.afterTrade o x rem) (rem - min rem x.remaining) out ts vs q' rem') :
      Match o q rem out (q.tradeOf o x rem :: ts) vs q' rem'
  | stpAggressor {q rem x xs} (hl : q.Looks o rem) (hf : q.front o = x :: xs)
      (hp : x.participant = o.participant) (hs : q.cfg.stp = .cancelAggressor) :
      Match o q rem .stpFired [] [] q rem
  | stpPassive {q rem out ts vs q' rem' x xs} (hl : q.Looks o rem) (hf : q.front o = x :: xs)
      (hp : x.participant = o.participant) (hs : q.cfg.stp = .cancelPassive)
      (rest : Match o (q.afterVictim o x) rem out ts vs q' rem') :
      Match o q rem out ts (x :: vs) q' rem'
  | stpBoth {q rem x xs} (hl : q.Looks o rem) (hf : q.front o = x :: xs)
      (hp : x.participant = o.participant) (hs : q.cfg.stp = .cancelBoth) :
      Match o q rem .stpFired [] [x] (q.afterVictim o x) rem

section Match

variable {o : NewOrder} {q q' : QueueBook} {rem rem' : Int} {out : MatchOutcome} {ts : List Trade}
  {vs : List StpVictim} {x : RestingOrder} {xs : List RestingOrder}

@[simp] theorem afterTrade_cfg : (q.afterTrade o x rem).cfg = q.cfg := by simp [afterTrade, bumpTradeId]

@[simp] theorem afterTrade_seq : (q.afterTrade o x rem).seq = q.seq := by simp [afterTrade, bumpTradeId]

@[simp] theorem afterTrade_nextTradeId :
    (q.afterTrade o x rem).nextTradeId = q.nextTradeId + 1 := by simp [afterTrade, bumpTradeId]

@[simp] theorem afterTrade_orders :
    (q.afterTrade o x rem).orders = (q.fill x (min rem x.remaining)).orders := by
  rw [afterTrade, settle_orders, fill, fill]
  split <;> rfl

@[simp] theorem afterVictim_cfg : (q.afterVictim o x).cfg = q.cfg := by simp [afterVictim, remove]

@[simp] theorem afterVictim_seq : (q.afterVictim o x).seq = q.seq := by simp [afterVictim, remove]

@[simp] theorem afterVictim_nextTradeId : (q.afterVictim o x).nextTradeId = q.nextTradeId := by
  simp [afterVictim, remove]

@[simp] theorem afterVictim_orders : (q.afterVictim o x).orders = (q.remove x.id).orders := by
  simp [afterVictim]

theorem settle_queue (q : QueueBook) (s : Side) (p : Int) (t : Side) (i : Nat) :
    (q.settle s p).queue t i = q.queue t i :=
  queue_congr (settle_cfg ..) (settle_orders ..) t i

theorem afterVictim_queue (s : Side) (i : Nat) :
    (q.afterVictim o x).queue s i = (q.remove x.id).queue s i :=
  settle_queue ..

theorem mem_of_front (hf : q.front o = x :: xs) : x ∈ q.orders ∧ x.side = o.side.opposite ∧
    q.cfg.slot x.price = q.cfg.slot (q.best o.side.opposite) := by
  have hx : x ∈ q.front o := by rw [hf]; exact List.mem_cons_self
  exact mem_queue.1 hx

theorem Wf.afterTrade (hw : q.Wf) (hpos : 0 < rem) (hf : q.front o = x :: xs) :
    (q.afterTrade o x rem).Wf := by
  have hx := (mem_of_front hf).1
  have hrem := hw.positive x hx
  exact (hw.bumpTradeId.fill hx (by omega)).settle _ _

theorem Wf.afterVictim (hw : q.Wf) : (q.afterVictim o x).Wf := (hw.remove _).settle _ _

/-- **Matching keeps the invariant**, the configuration and the arrival counter. -/
theorem Match.wf (hm : Match o q rem out ts vs q' rem') (hw : q.Wf) : q'.Wf := by
  induction hm with
  | exhausted => exact hw
  | noLongerCrosses => exact hw
  | stale _ hf _ ih => exact ih (hw.levelEmptied hf)
  | trade hl hf _ _ ih => exact ih (hw.afterTrade hl.rem_pos hf)
  | stpAggressor => exact hw
  | stpPassive _ _ _ _ _ ih => exact ih hw.afterVictim
  | stpBoth => exact hw.afterVictim

theorem Match.cfg_eq (hm : Match o q rem out ts vs q' rem') : q'.cfg = q.cfg := by
  induction hm with
  | exhausted | noLongerCrosses | stpAggressor => rfl
  | stale _ _ _ ih => simpa using ih
  | trade _ _ _ _ ih => simpa using ih
  | stpPassive _ _ _ _ _ ih => simpa using ih
  | stpBoth => simp

theorem Match.seq_eq (hm : Match o q rem out ts vs q' rem') : q'.seq = q.seq := by
  induction hm with
  | exhausted | noLongerCrosses | stpAggressor => rfl
  | stale _ _ _ ih => simpa using ih
  | trade _ _ _ _ ih => simpa using ih
  | stpPassive _ _ _ _ _ ih => simpa using ih
  | stpBoth => simp

/-- Trade ids are handed out one by one. -/
theorem Match.nextTradeId_eq (hm : Match o q rem out ts vs q' rem') :
    q'.nextTradeId = q.nextTradeId + ts.length := by
  induction hm with
  | exhausted | noLongerCrosses | stpAggressor => simp
  | stale _ _ _ ih => simpa using ih
  | trade _ _ _ _ ih =>
    rw [ih, afterTrade_nextTradeId, List.length_cons]
    push_cast
    ring
  | stpPassive _ _ _ _ _ ih => simpa using ih
  | stpBoth => simp

/-- The remaining quantity never becomes negative, and never grows. -/
theorem Match.rem_bounds (hm : Match o q rem out ts vs q' rem') (hw : q.Wf) (h0 : 0 ≤ rem) :
    0 ≤ rem' ∧ rem' ≤ rem := by
  induction hm with
  | exhausted | noLongerCrosses | stpAggressor | stpBoth => exact ⟨h0, le_rfl⟩
  | stale _ hf _ ih => exact ih (hw.levelEmptied hf) h0
  | trade hl hf _ _ ih =>
    have hpos := hw.positive _ (mem_of_front hf).1
    have := ih (hw.afterTrade hl.rem_pos hf) (by omega)
    omega
  | stpPassive _ _ _ _ _ ih => exact ih hw.afterVictim h0

/-- Matching adds no order: what rests afterwards rested before, with at most less remaining. -/
theorem Match.mem_orders (hm : Match o q rem out ts vs q' rem') {y : RestingOrder}
    (hy : y ∈ q'.orders) : ∃ y' ∈ q.orders, y = { y' with remaining := y.remaining } := by
  induction hm with
  | exhausted | noLongerCrosses | stpAggressor => exact ⟨y, hy, rfl⟩
  | stale _ _ _ ih =>
    obtain ⟨y', hy', heq⟩ := ih hy
    exact ⟨y', by simpa using hy', heq⟩
  | @trade q rem _ _ _ _ _ x _ _ _ _ _ ih =>
    obtain ⟨y', hy', heq⟩ := ih hy
    rw [afterTrade_orders, fill] at hy'
    split at hy'
    · exact ⟨y', (q.remove_sublist _).mem hy', heq⟩
    · obtain ⟨z, hz, rfl⟩ := reduce_mem hy'
      refine ⟨z, hz, ?_⟩
      rw [heq]
      split <;> rfl
  | stpPassive _ _ _ _ _ ih =>
    obtain ⟨y', hy', heq⟩ := ih hy
    rw [afterVictim_orders] at hy'
    exact ⟨y', (remove_sublist _ _).mem hy', heq⟩
  | stpBoth =>
    rw [afterVictim_orders] at hy
    exact ⟨y, (remove_sublist _ _).mem hy, rfl⟩

end Match

end QueueBook

end Velox
