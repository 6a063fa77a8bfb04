import Velox.Engine.PriceTime

/-!
# What the queues determine

The heap of a book is not observable: what a call answers depends on the queues only, not on the
order in which the pool hands out slots, on the layout of the id map, or on when an order of one
level joined relative to an order of another.

* `Step.det` — a call on the queues has one outcome.
* `OrderBook.canonicalWalk` — the walk that snapshots and digests make: bids, then asks, best to
  worst, each level from its head.
* `Sharp.walk_queue` — where the best prices are exact, the walk lists every queue, in order.
* `Repr.reorder` — a heap represents its orders listed in any order that keeps the queues.
* `Alike` — two books that no sequence of calls can tell apart.
-/

namespace Velox

namespace QueueBook

/-! ## One outcome -/

section Det

variable {o : NewOrder} {q q₁ q₂ : QueueBook} {rem rem₁ rem₂ : Int} {oc₁ oc₂ : MatchOutcome}
  {ts₁ ts₂ : List Trade} {vs₁ vs₂ : List StpVictim}

theorem Match.det (h₁ : Match o q rem oc₁ ts₁ vs₁ q₁ rem₁) (h₂ : Match o q rem oc₂ ts₂ vs₂ q₂ rem₂) :
    oc₁ = oc₂ ∧ ts₁ = ts₂ ∧ vs₁ = vs₂ ∧ q₁ = q₂ ∧ rem₁ = rem₂ := by
  induction h₁ generalizing oc₂ ts₂ vs₂ q₂ rem₂ with
  | exhausted | noLongerCrosses | stale | trade | stpAggressor | stpPassive | stpBoth =>
    cases h₂ <;> grind [Looks]

theorem Scan.det {add : Int → Int → Int} {p sum n₁ n₂ : Int} (h₁ : q.Scan o add p sum n₁)
    (h₂ : q.Scan o add p sum n₂) : n₁ = n₂ := by
  induction h₁ with
  | done | returned | next => cases h₂ <;> grind

theorem Submits.det {r₁ r₂ : OrderResult} (h₁ : q.Submits o r₁ ts₁ vs₁ q₁)
    (h₂ : q.Submits o r₂ ts₂ vs₂ q₂) : r₁ = r₂ ∧ ts₁ = ts₂ ∧ vs₁ = vs₂ ∧ q₁ = q₂ := by
  cases h₁ with
  | rejected | unfillable => cases h₂ <;> grind [Admits, Scan.det]
  | stp _ hm | rested _ hm | exhausted _ hm | filled _ hm | residual _ hm | fokResidual _ hm =>
    cases h₂ <;> grind [Admits, Scan.det, Match.det]

theorem Cancels.det (hw : q.Wf) {id : Int} {r₁ r₂ : OrderResult} (h₁ : q.Cancels id r₁ q₁)
    (h₂ : q.Cancels id r₂ q₂) : r₁ = r₂ ∧ q₁ = q₂ := by
  cases h₁ with
  | unknown h =>
    cases h₂ with
    | unknown => exact ⟨rfl, rfl⟩
    | found hx hid => exact absurd hid (h _ hx)
  | found hx hid =>
    cases h₂ with
    | unknown h => exact absurd hid (h _ hx)
    | found hy hid' =>
      rw [hw.eq_of_id hx hy (hid.trans hid'.symm)]
      exact ⟨rfl, rfl⟩

/-- **A call has one outcome.** -/
theorem Step.det (hw : q.Wf) {c : Call} {e₁ e₂ : Effect} (h₁ : q.Step c e₁ q₁)
    (h₂ : q.Step c e₂ q₂) : e₁ = e₂ ∧ q₁ = q₂ := by
  cases h₁ with
  | submit h =>
    cases h₂ with
    | submit h' =>
      obtain ⟨rfl, rfl, rfl, rfl⟩ := h.det h'
      exact ⟨rfl, rfl⟩
  | cancel h =>
    cases h₂ with
    | cancel h' =>
      obtain ⟨rfl, rfl⟩ := h.det hw h'
      exact ⟨rfl, rfl⟩
  | replaceRejected h =>
    cases h₂ with
    | replaceRejected h' =>
      rw [h] at h'
      cases h'
      exact ⟨rfl, rfl⟩
    | replaced h' =>
      rw [h] at h'
      cases h'
  | replaced h hc hs =>
    cases h₂ with
    | replaceRejected h' =>
      rw [h] at h'
      cases h'
    | replaced _ hc' hs' =>
      obtain ⟨rfl, rfl⟩ := hc.det hw hc'
      obtain ⟨rfl, rfl, rfl, rfl⟩ := hs.det hs'
      exact ⟨rfl, rfl⟩

/-- **A run has one outcome.** -/
theorem Steps.det (hw : q.Wf) {cs : List Call} {es₁ es₂ : List Effect} (h₁ : Steps q cs es₁ q₁)
    (h₂ : Steps q cs es₂ q₂) : es₁ = es₂ ∧ q₁ = q₂ := by
  induction h₁ generalizing es₂ with
  | nil =>
    cases h₂
    exact ⟨rfl, rfl⟩
  | cons h _ ih =>
    cases h₂ with
    | cons h' rest' =>
      obtain ⟨rfl, rfl⟩ := h.det hw h'
      obtain ⟨rfl, rfl⟩ := ih (h.wf hw) rest'
      exact ⟨rfl, rfl⟩

end Det

/-! ## The walk over the queues -/

/-- The walk of side `s` from price `p` lists these orders. -/
inductive Walk (q : QueueBook) (s : Side) : Int → List RestingOrder → Prop
  | done : Walk q s (emptySentinel s) []
  | next {p xs} (hp : p ≠ emptySentinel s) (rest : Walk q s (q.nextOccupied s p) xs) :
      Walk q s p (q.queue s (q.cfg.slot p) ++ xs)

theorem Walk.det {q : QueueBook} {s : Side} {p : Int} {xs ys : List RestingOrder}
    (h₁ : q.Walk s p xs) (h₂ : q.Walk s p ys) : xs = ys := by
  induction h₁ generalizing ys with
  | done =>
    cases h₂ with
    | done => rfl
    | next hp => exact absurd rfl hp
  | next hp _ ih =>
    cases h₂ with
    | done => exact absurd rfl hp
    | next _ rest => rw [ih rest]

/-- The orders of one side and slot. -/
def atSlot (cfg : BookConfig) (s : Side) (i : Nat) (xs : List RestingOrder) : List RestingOrder :=
  xs.filter fun x => decide (x.side = s ∧ cfg.slot x.price = i)

theorem queue_eq_atSlot (q : QueueBook) (s : Side) (i : Nat) :
    q.queue s i = atSlot q.cfg s i q.orders := rfl

theorem atSlot_append (cfg : BookConfig) (s : Side) (i : Nat) (xs ys : List RestingOrder) :
    atSlot cfg s i (xs ++ ys) = atSlot cfg s i xs ++ atSlot cfg s i ys :=
  List.filter_append ..

theorem atSlot_queue (q : QueueBook) (s t : Side) (i j : Nat) :
    atSlot q.cfg t j (q.queue s i) = if t = s ∧ j = i then q.queue s i else [] := by
  split
  · next h =>
    obtain ⟨rfl, rfl⟩ := h
    rw [atSlot, List.filter_eq_self]
    intro x hx
    exact decide_eq_true (mem_queue.1 hx).2
  · next h =>
    rw [atSlot, List.filter_eq_nil_iff]
    intro x hx hc
    rw [decide_eq_true_eq] at hc
    obtain ⟨-, hs, hi⟩ := mem_queue.1 hx
    exact h ⟨hc.1.symm.trans hs, hc.2.symm.trans hi⟩

/-- The slots a walk from slot `i` still comes to. -/
def Reaches (s : Side) (i j : Nat) : Prop := j = i ∨ s.beyond i j

instance (s : Side) (i j : Nat) : Decidable (Reaches s i j) :=
  inferInstanceAs (Decidable (_ ∨ _))

section Walk

variable {q : QueueBook} {s : Side} {p : Int} {xs : List RestingOrder}

/-- Where nothing rests out of sight, a walk lists the queues from its start on, and nothing
else. -/
theorem Walk.atSlot_eq (h : q.Walk s p xs)
    (hvis : ∀ x ∈ q.orders, q.cfg.slotPrice (q.cfg.slot x.price) ≠ emptySentinel x.side)
    (t : Side) (i : Nat) :
    atSlot q.cfg t i xs =
      if t = s ∧ p ≠ emptySentinel s ∧ Reaches s (q.cfg.slot p) i then q.queue s i else [] := by
  induction h with
  | done => simp [atSlot]
  | @next p xs hp _ ih =>
    rw [atSlot_append, atSlot_queue, ih]
    by_cases ht : t = s
    · subst ht
      by_cases hi : i = q.cfg.slot p
      · -- The slot itself: the rest of the walk does not come back to it.
        subst hi
        have hback : ¬ (t = t ∧ q.nextOccupied t p ≠ emptySentinel t ∧
            Reaches t (q.cfg.slot (q.nextOccupied t p)) (q.cfg.slot p)) := by
          rintro ⟨-, hne, hreach⟩
          rcases q.nextOccupied_isNext t p with ⟨hr, -⟩ | ⟨j, hr, hb, -, -⟩
          · exact hne hr
          · rw [hr, BookConfig.slot_slotPrice] at hreach
            rcases hreach with heq | hb'
            · rw [← heq] at hb
              exact t.beyond_irrefl _ hb
            · exact t.beyond_irrefl _ (Side.beyond_trans hb hb')
        rw [if_pos ⟨rfl, rfl⟩, if_neg hback, List.append_nil,
          if_pos ⟨rfl, hp, Or.inl rfl⟩]
      · rw [if_neg fun h => hi h.2, List.nil_append]
        -- Beyond the slot: the next occupied one is reached, or there is none.
        by_cases hb : t.beyond (q.cfg.slot p) i
        · rw [if_pos (⟨rfl, hp, Or.inr hb⟩ : t = t ∧ _ ∧ Reaches t (q.cfg.slot p) i)]
          by_cases hocc : q.queue t i = []
          · rw [hocc]
            split <;> rfl
          · rcases q.nextOccupied_isNext t p with ⟨-, hno⟩ | ⟨j, hr, hbj, hj, hmin⟩
            · exact absurd hocc (hno i hb)
            · obtain ⟨x, hx, hside, hslot⟩ := queue_ne_nil_iff.1 hj
              have hne : q.nextOccupied t p ≠ emptySentinel t := by
                rw [hr, ← hslot, ← hside]
                exact hvis x hx
              refine if_pos ⟨rfl, hne, ?_⟩
              rw [hr, BookConfig.slot_slotPrice]
              rcases t.beyond_trichotomy i j with hij | rfl | hij
              · exact absurd hocc (hmin i hb hij)
              · exact Or.inl rfl
              · exact Or.inr hij
        · have hno : ¬ (t = t ∧ p ≠ emptySentinel t ∧ Reaches t (q.cfg.slot p) i) := by
            rintro ⟨-, -, h | h⟩
            · exact hi h
            · exact hb h
          rw [if_neg hno]
          refine if_neg ?_
          rintro ⟨-, hne, hreach⟩
          rcases q.nextOccupied_isNext t p with ⟨hr, -⟩ | ⟨j, hr, hbj, -, -⟩
          · exact hne hr
          · rw [hr, BookConfig.slot_slotPrice] at hreach
            rcases hreach with rfl | hb'
            · exact hb hbj
            · exact hb (Side.beyond_trans hbj hb')
    · simp [ht]

theorem Walk.mem (h : q.Walk s p xs) {x : RestingOrder} (hx : x ∈ xs) :
    x ∈ q.orders ∧ x.side = s := by
  induction h with
  | done => cases hx
  | next _ _ ih =>
    rcases List.mem_append.1 hx with hx | hx
    · exact ⟨(mem_queue.1 hx).1, (mem_queue.1 hx).2.1⟩
    · exact ih hx

/-- Every order rests where the tracked best price knows of it. -/
def InSight (q : QueueBook) : Prop := ∀ x ∈ q.orders, q.cfg.hidden x.side x.price = false

theorem Sharp.inSight (hs : q.Sharp) : q.InSight := fun _ hx => hs.not_hidden hx

theorem InSight.slotPrice_ne (hv : q.InSight) {x : RestingOrder} (hx : x ∈ q.orders) :
    q.cfg.slotPrice (q.cfg.slot x.price) ≠ emptySentinel x.side := fun h =>
  of_decide_eq_false (hv x hx) (Or.inr h)

/-- **The walk from the best price lists the whole side**, queue by queue. -/
theorem Wf.walk_queue (hw : q.Wf) (hv : q.InSight) (h : q.Walk s (q.best s) xs) (t : Side)
    (i : Nat) : atSlot q.cfg t i xs = if t = s then q.queue s i else [] := by
  rw [h.atSlot_eq (fun x hx => hv.slotPrice_ne hx)]
  by_cases ht : t = s
  · by_cases hocc : q.queue s i = []
    · simp [hocc]
    · obtain ⟨x, hx, hside, hslot⟩ := queue_ne_nil_iff.1 hocc
      obtain ⟨hne, hreach⟩ := hw.ahead x hx (hv x hx)
      rw [hside, hslot] at hreach
      rw [hside] at hne
      rw [if_pos ht, if_pos ⟨ht, hne, hreach⟩]
  · rw [if_neg ht, if_neg fun h => ht h.1]

/-- Bids and asks together list every queue. -/
theorem Wf.walks_queue (hw : q.Wf) (hv : q.InSight) {ys : List RestingOrder}
    (hx : q.Walk .buy (q.best .buy) xs) (hy : q.Walk .sell (q.best .sell) ys) (t : Side) (i : Nat) :
    atSlot q.cfg t i (xs ++ ys) = q.queue t i := by
  rw [atSlot_append, hw.walk_queue hv hx, hw.walk_queue hv hy]
  cases t <;> simp

/-- Lists with the same queues hold the same orders. -/
theorem perm_of_atSlot {cfg : BookConfig} {ys : List RestingOrder}
    (h : ∀ t i, atSlot cfg t i xs = atSlot cfg t i ys) : xs.Perm ys := by
  rw [List.perm_iff_count]
  intro a
  have hcount : ∀ zs : List RestingOrder,
      (atSlot cfg a.side (cfg.slot a.price) zs).count a = zs.count a := fun zs =>
    List.count_filter (by simp)
  rw [← hcount xs, ← hcount ys, h]

end Walk

end QueueBook

namespace OrderBook

/-! ## The walk over the heap -/

/-- The orders of one level, from the one at `cur` on. -/
def walkLevel (b : OrderBook) : Nat → Option Ptr → Option (List RestingOrder)
  | _, none => some []
  | 0, some _ => none
  | fuel + 1, some p => do
    let rest ← b.walkLevel fuel (b.heap p).next
    some ((b.heap p).data :: rest)

/-- The levels of one side, from the one at price `p` on. -/
def walkLoop (b : OrderBook) (s : Side) : Nat → Int → Option (List RestingOrder)
  | 0, _ => none
  | fuel + 1, p =>
    if p ≠ emptySentinel s then do
      let i ← (b.sideOf s).levelAt p
      let level ← b.walkLevel (b.pool.inUse + 1) ((b.sideOf s).levels i).head
      let rest ← b.walkLoop s fuel ((b.sideOf s).nextOccupied p)
      some (level ++ rest)
    else
      some []

def walkSide (b : OrderBook) (s : Side) : Option (List RestingOrder) :=
  b.walkLoop s (b.bids.numSlots + 2) (b.sideOf s).best

/-- The walk of `SnapshotWriter::write` and `computeDigest`. -/
def canonicalWalk (b : OrderBook) : Option (List RestingOrder) := do
  let bids ← b.walkSide .buy
  let asks ← b.walkSide .sell
  some (bids ++ asks)

section Walk

variable {b : OrderBook} {ps : List Ptr} {s : Side}

theorem walkLevel_spec {c : List Ptr} {before : Option Ptr}
    (hseg : Chain.Seg (fun p => (b.heap p).next) (fun p => (b.heap p).prev) before c none)
    (fuel : Nat) (hfuel : c.length ≤ fuel) :
    b.walkLevel fuel c.head? = some (c.map fun p => (b.heap p).data) := by
  induction c generalizing before fuel with
  | nil => cases fuel <;> rfl
  | cons p c ih =>
    obtain ⟨-, hlink, hrest⟩ := hseg
    have hnext : (b.heap p).next = c.head? := hlink.trans (Option.or_none ..)
    cases fuel with
    | zero => exact absurd hfuel (Nat.not_succ_le_zero _)
    | succ fuel =>
      rw [List.head?_cons, walkLevel, hnext, ih hrest fuel (Nat.le_of_succ_le_succ hfuel)]
      rfl

/-- The walk along a level lists its queue. -/
theorem walkLevel_queue (hr : b.Repr ps none) {i : Nat} (hi : i < b.cfg.numSlots) (s : Side) :
    b.walkLevel (b.pool.inUse + 1) ((b.sideOf s).levels i).head =
      some ((b.view ps).queue s i) := by
  have hlist := ((hr.side s).levels i (by rw [hr.numSlots]; exact hi)).list
  have hlen : ((b.sideOf s).chain b.heap ps i).length ≤ b.pool.inUse + 1 := by
    have := queue_length_le hr s i
    rw [hr.queue_eq, List.length_map] at this
    exact this.le
  rw [hlist.head, hr.queue_eq]
  exact walkLevel_spec hlist.links _ hlen

theorem walkLoop_spec (hr : b.Repr ps none) (hw : (b.view ps).Wf) (fuel : Nat) {price : Int}
    (hprice : price = emptySentinel s ∨ b.cfg.inRange price = true)
    (hfuel : (b.view ps).distanceFrom s price < fuel) :
    ∃ xs, b.walkLoop s fuel price = some xs ∧ (b.view ps).Walk s price xs := by
  induction fuel generalizing price with
  | zero => exact absurd hfuel (Nat.not_lt_zero _)
  | succ fuel ih =>
    rw [walkLoop]
    by_cases hne : price = emptySentinel s
    · rw [if_neg (not_not.2 hne), hne]
      exact ⟨[], rfl, .done⟩
    · have hin : b.cfg.inRange price = true := hprice.resolve_left hne
      have hnext := hr.nextOccupied_eq hw ⟨rfl, rfl, rfl, rfl, rfl⟩ (hr.side s) (Or.inl rfl) hin
      have hcloser := QueueBook.distanceFrom_nextOccupied hw hin hne
      obtain ⟨xs, hrun, hxs⟩ := ih (QueueBook.nextOccupied_inRange hw s price) (by omega)
      refine ⟨_, ?_, .next hne hxs⟩
      rw [if_pos hne, hr.levelAt_eq _ hin]
      simp only [Option.bind_eq_bind, Option.bind_some, walkLevel_queue hr (BookConfig.slot_lt hin),
        hnext, hrun]
      rfl

theorem walkSide_spec (hr : b.Repr ps none) (hw : (b.view ps).Wf) (s : Side) :
    ∃ xs, b.walkSide s = some xs ∧ (b.view ps).Walk s ((b.view ps).best s) xs := by
  have hle : (b.view ps).distance s ≤ b.cfg.numSlots := QueueBook.distance_le hw _
  have hn : b.bids.numSlots = b.cfg.numSlots := hr.numSlots .buy
  rw [walkSide, ← view_best b ps]
  exact walkLoop_spec hr hw _ (hw.best s) (by rw [← QueueBook.distance]; omega)

/-- **The canonical walk** ends and is the walk over the queues. -/
theorem canonicalWalk_spec (hr : b.Repr ps none) (hw : (b.view ps).Wf) :
    ∃ xs ys, b.canonicalWalk = some (xs ++ ys) ∧
      (b.view ps).Walk .buy ((b.view ps).best .buy) xs ∧
      (b.view ps).Walk .sell ((b.view ps).best .sell) ys := by
  obtain ⟨xs, hxs, hwx⟩ := walkSide_spec hr hw .buy
  obtain ⟨ys, hys, hwy⟩ := walkSide_spec hr hw .sell
  refine ⟨xs, ys, ?_, hwx, hwy⟩
  rw [canonicalWalk, hxs, hys]
  rfl

end Walk

/-! ## Listing the orders in another order -/

/-- A map that is injective on two lists tells them apart. -/
theorem eq_of_map_eq {α β : Type} {f : α → β} {xs ys : List α}
    (hinj : ∀ x ∈ xs, ∀ y ∈ ys, f x = f y → x = y) (h : xs.map f = ys.map f) : xs = ys := by
  induction xs generalizing ys with
  | nil => exact (List.map_eq_nil_iff.1 h.symm).symm
  | cons x xs ih =>
    cases ys with
    | nil => cases h
    | cons y ys =>
      rw [List.map_cons, List.map_cons, List.cons.injEq] at h
      rw [hinj x List.mem_cons_self y List.mem_cons_self h.1,
        ih (fun x hx y hy => hinj x (List.mem_cons_of_mem _ hx) y (List.mem_cons_of_mem _ hy)) h.2]

/-- **A heap represents its orders in any order that keeps the queues.** -/
theorem Repr.reorder {b : OrderBook} {ps : List Ptr} (hr : b.Repr ps none) {xs : List RestingOrder}
    (hxs : ∀ s i, QueueBook.atSlot b.cfg s i xs = (b.view ps).queue s i) :
    ∃ ps', b.Repr ps' none ∧ b.view ps' = { b.view ps with orders := xs } := by
  have hperm : xs.Perm (ps.map fun p => (b.heap p).data) := QueueBook.perm_of_atSlot hxs
  obtain ⟨ps', rfl, hps⟩ := (congrFun₂ (List.eq_map_comp_perm _) xs ps).mpr hperm
  have hview : b.view ps' = { b.view ps with orders := ps'.map fun p => (b.heap p).data } := rfl
  have hchain : ∀ s i, (b.sideOf s).chain b.heap ps' i = (b.sideOf s).chain b.heap ps i := by
    intro s i
    refine eq_of_map_eq (fun p hp p' hp' hdata => ?_) ((?_ : _ = _).trans (hr.queue_eq s i))
    · exact hr.eq_of_id (hps.mem_iff.1 (LevelMap.mem_chain.1 hp).1) (LevelMap.mem_chain.1 hp').1
        (congrArg RestingOrder.id hdata)
    · rw [← hxs s i, QueueBook.atSlot, LevelMap.chain, List.filter_map]
      congr 1
      refine List.filter_congr fun p _ => ?_
      rw [(hr.isSide s).side]
      simp only [Function.comp, (hr.isSide s).slot]
      rfl
  refine ⟨ps', ⟨?_, hr.capacity, hr.isSide, fun s => ?_, hr.idInv, hr.idRoom, ?_, fun id p => ?_⟩,
    hview⟩
  · obtain ⟨fs, hfree, hall⟩ := hr.live.slots
    exact ⟨⟨fs, hfree, (hps.append_right fs).trans hall⟩, hr.live.inUse.trans hps.length_eq.symm⟩
  · exact (hr.side s).congr (hchain s) fun i _ p _ => rfl
  · rw [hr.idSize, hps.length_eq]
  · rw [hr.idMem, hps.mem_iff]

/-! ## Books that answer alike -/

/-- **No one can tell the books apart**: they list the same orders in the same order, their
counters agree, and every sequence of calls gets the same replies. -/
structure Alike (b b' : OrderBook) : Prop where
  walk : b.canonicalWalk = b'.canonicalWalk
  lastSeq : b.seq = b'.seq
  tradeCount : b.nextTradeId = b'.nextTradeId
  replies : ∀ calls, (b.run calls).map Prod.fst = (b'.run calls).map Prod.fst

section Alike

variable {b b' b₁ b₂ b₁' b₂' : OrderBook} {ps ps' : List Ptr}

/-- Two heaps with the same queues. -/
def SameView (b b' : OrderBook) : Prop :=
  ∃ ps ps', b.Repr ps none ∧ b'.Repr ps' none ∧ (b.view ps).Wf ∧ b.view ps = b'.view ps'

theorem SameView.refl (hr : b.Repr ps none) (hw : (b.view ps).Wf) : b.SameView b :=
  ⟨ps, ps, hr, hr, hw, rfl⟩

/-- **One call on two heaps with the same queues**, whatever buffers each is given: it has the
same effect, and the queues stay the same. -/
theorem SameView.call (h : b.SameView b') (c : Call) :
    ∃ e b₁ b₁', (∀ out, b.call c out = some (QueueBook.Effect.reply e out, b₁)) ∧
      (∀ out, b'.call c out = some (QueueBook.Effect.reply e out, b₁')) ∧ b₁.SameView b₁' := by
  obtain ⟨ps, ps', hr, hr', hw, hview⟩ := h
  obtain ⟨e, b₁, ps₁, hcall, hr₁, hs⟩ := call_spec c hr hw
  obtain ⟨e', b₁', ps₁', hcall', hr₁', hs'⟩ := call_spec c hr' (by rw [← hview]; exact hw)
  rw [← hview] at hs'
  obtain ⟨rfl, hview₁⟩ := hs.det hw hs'
  exact ⟨e, b₁, b₁', hcall, hcall', ps₁, ps₁', hr₁, hr₁', hs.wf hw, hview₁⟩

/-- **A run on two heaps with the same queues**, with the same calls and any buffers. -/
theorem SameView.run (h : b.SameView b') (cs : List Call) :
    ∃ es b₁ b₁', (∀ outs : List Sinks, outs.length = cs.length →
        b.run (cs.zip outs) = some (List.zipWith QueueBook.Effect.reply es outs, b₁) ∧
        b'.run (cs.zip outs) = some (List.zipWith QueueBook.Effect.reply es outs, b₁')) ∧
      b₁.SameView b₁' := by
  obtain ⟨ps, ps', hr, hr', hw, hview⟩ := h
  obtain ⟨es, b₁, ps₁, hrun, hr₁, hs⟩ := run_spec cs hr hw
  obtain ⟨es', b₁', ps₁', hrun', hr₁', hs'⟩ := run_spec cs hr' (by rw [← hview]; exact hw)
  rw [← hview] at hs'
  obtain ⟨rfl, hview₁⟩ := hs.det hw hs'
  exact ⟨es, b₁, b₁', fun outs hlen => ⟨hrun outs hlen, hrun' outs hlen⟩, ps₁, ps₁', hr₁, hr₁',
    hs.wf hw, hview₁⟩

/-- **The queues are all there is to see.** -/
theorem SameView.alike (h : b.SameView b') : b.Alike b' := by
  have hrun := h.run
  obtain ⟨ps, ps', hr, hr', hw, hview⟩ := h
  have hw' : (b'.view ps').Wf := by rw [← hview]; exact hw
  obtain ⟨xs, ys, hwalk, hx, hy⟩ := canonicalWalk_spec hr hw
  obtain ⟨xs', ys', hwalk', hx', hy'⟩ := canonicalWalk_spec hr' hw'
  rw [← hview] at hx' hy'
  refine ⟨?_, congrArg QueueBook.seq hview, congrArg QueueBook.nextTradeId hview, fun calls => ?_⟩
  · rw [hwalk, hwalk', hx.det hx', hy.det hy']
  · obtain ⟨es, b₁, b₁', hboth, -⟩ := hrun (calls.map Prod.fst)
    have hzip : (calls.map Prod.fst).zip (calls.map Prod.snd) = calls := by
      rw [← List.unzip_fst, ← List.unzip_snd, List.zip_unzip]
    obtain ⟨h₁, h₂⟩ := hboth (calls.map Prod.snd) (by simp)
    rw [hzip] at h₁ h₂
    rw [h₁, h₂]
    rfl

end Alike

end OrderBook

end Velox
