import Velox.Engine.Calls
import Velox.Engine.Reference

/-!
# Price-time priority

What a caller can rely on when its limit prices lie on the tick grid: the book is the naive
price-time-priority book of `Reference` (`run_eq_reference`), no trade is worse than the limit
and the book is never crossed (`call_respects_limits`).

Off the grid none of this holds. A level then mixes prices, the tracked best price is that of one
of them or of the slot, and the match loop does not look at prices again inside a level. Two more
exceptions are left on the grid: an order that rests at its own side's empty sentinel is never
found, and the 64-bit sum of the fill-or-kill pre-scan can wrap around.
-/

namespace Velox

/-- The claim's own condition: a limit order is on the tick grid. -/
def NewOrder.OnGrid (cfg : BookConfig) (o : NewOrder) : Prop :=
  o.type = .limit → cfg.onGrid o.price = true

instance (cfg : BookConfig) (o : NewOrder) : Decidable (o.OnGrid cfg) :=
  inferInstanceAs (Decidable (_ → _))

/-- A price no worse than the order's limit. -/
def NewOrder.accepts (o : NewOrder) (price : Int) : Prop :=
  match o.side with
  | .buy => price ≤ o.price
  | .sell => o.price ≤ price

theorem NewOrder.accepts_of_crosses {o : NewOrder} {p : Int} (ht : o.type ≠ .market)
    (h : crosses o.type o.side o.price p = true) : o.accepts p := by
  unfold crosses at h
  rw [if_neg ht] at h
  unfold accepts
  cases hs : o.side <;> rw [hs] at h <;> exact of_decide_eq_true h

namespace QueueBook

variable {q q' : QueueBook} {o : NewOrder} {rem rem' : Int} {oc : MatchOutcome} {ts : List Trade}
  {vs : List StpVictim}

/-- No resting bid is at or above a resting ask. -/
def Uncrossed (orders : List RestingOrder) : Prop :=
  ∀ x ∈ orders, ∀ y ∈ orders, x.side = .buy → y.side = .sell → x.price < y.price

/-- **Every trade crosses.** -/
theorem Match.trades_cross (hm : Match o q rem oc ts vs q' rem') (hs : q.Sharp) :
    ∀ t ∈ ts, crosses o.type o.side o.price t.price = true := by
  induction hm with
  | exhausted | noLongerCrosses | stpAggressor | stpBoth => exact fun t ht => nomatch ht
  | stale hl hf => exact absurd hf (hs.front_ne_nil hl.hasBest)
  | trade hl hf _ _ ih =>
    intro t ht
    rcases List.mem_cons.1 ht with rfl | ht
    · have hprice := hs.front_price hl.hasBest (by rw [hf]; exact List.mem_cons_self)
      rw [tradeOf, hprice]
      exact hl.crosses
    · exact ih (hs.afterTrade hl hf) t ht
  | stpPassive hl hf _ _ _ ih => exact ih (hs.afterVictim hl hf)

/-- **Matching that leaves something leaves nothing to match it with.** -/
theorem Match.none_crosses (hm : Match o q rem oc ts vs q' rem') (hs : q.Sharp)
    (hoc : oc ≠ .stpFired) (hrem : 0 < rem') :
    ∀ y ∈ q'.orders, y.side = o.side.opposite → crosses o.type o.side o.price y.price = false := by
  induction hm with
  | exhausted h =>
    intro y hy hside
    have hne := (hs.best_le hy).1
    rw [hside] at hne
    exact absurd ⟨hrem, hne⟩ h
  | noLongerCrosses _ _ hc =>
    intro y hy hside
    have hle := (hs.best_le hy).2
    rw [hside] at hle
    rw [← Bool.not_eq_true]
    intro hy
    rw [crosses_mono hle hy] at hc
    cases hc
  | stale hl hf => exact absurd hf (hs.front_ne_nil hl.hasBest)
  | trade hl hf _ _ ih => exact ih (hs.afterTrade hl hf) hoc hrem
  | stpPassive hl hf _ _ _ ih => exact ih (hs.afterVictim hl hf) hoc hrem
  | stpAggressor | stpBoth => exact absurd rfl hoc

theorem Match.uncrossed (hm : Match o q rem oc ts vs q' rem') (hu : Uncrossed q.orders) :
    Uncrossed q'.orders := by
  intro x hx y hy hxs hys
  obtain ⟨x', hx', hxe⟩ := hm.mem_orders hx
  obtain ⟨y', hy', hye⟩ := hm.mem_orders hy
  rw [hxe] at hxs ⊢
  rw [hye] at hys ⊢
  exact hu x' hx' y' hy' hxs hys

/-- The order that comes to rest does not cross. -/
theorem uncrossed_add (hu : Uncrossed q.orders) {x : RestingOrder} (hside : x.side = o.side)
    (hprice : x.price = o.price) (ht : o.type ≠ .market)
    (h : ∀ y ∈ q.orders, y.side = o.side.opposite →
      crosses o.type o.side o.price y.price = false) : Uncrossed (q.add x).orders := by
  have hnew : ∀ y ∈ q.orders, y.side = o.side.opposite → ¬ o.accepts y.price := by
    intro y hy hs hacc
    have hc := h y hy hs
    unfold crosses at hc
    rw [if_neg ht] at hc
    unfold NewOrder.accepts at hacc
    cases hs : o.side <;> rw [hs] at hc hacc <;> exact of_decide_eq_false hc hacc
  intro a ha c hc has hcs
  rw [add_orders, List.mem_append, List.mem_singleton] at ha hc
  rcases ha with ha | rfl <;> rcases hc with hc | rfl
  · exact hu a ha c hc has hcs
  · rw [hside] at hcs
    have := hnew a ha (by rw [has, hcs]; rfl)
    rw [NewOrder.accepts, hcs] at this
    rw [hprice]
    exact not_le.1 this
  · rw [hside] at has
    have := hnew c hc (by rw [hcs, has]; rfl)
    rw [NewOrder.accepts, has] at this
    rw [hprice]
    exact not_le.1 this
  · rw [has] at hcs
    cases hcs

theorem Submits.uncrossed {r : OrderResult} (h : q.Submits o r ts vs q') (hs : q.Sharp)
    (hu : Uncrossed q.orders) : Uncrossed q'.orders := by
  cases h with
  | rejected | unfillable => exact hu
  | stp _ hm | exhausted _ hm | filled _ hm | residual _ hm | fokResidual _ hm =>
    exact hm.uncrossed hu
  | rested _ hm hout ht hrem =>
    exact uncrossed_add (hm.uncrossed hu) rfl rfl (by rw [ht]; decide)
      (hm.none_crosses hs.arrive hout hrem)

theorem Submits.trades_cross {r : OrderResult} (h : q.Submits o r ts vs q') (hs : q.Sharp) :
    ∀ t ∈ ts, crosses o.type o.side o.price t.price = true := by
  cases h with
  | rejected | unfillable => exact fun t ht => nomatch ht
  | stp _ hm | exhausted _ hm | filled _ hm | residual _ hm | fokResidual _ hm | rested _ hm =>
    exact hm.trades_cross hs.arrive

/-- What one call does for its order and for the book. -/
theorem Step.respects_limits {c : Call} {e : Effect} (h : q.Step c e q') (hs : q.Sharp)
    (hu : Uncrossed q.orders) : Uncrossed q'.orders ∧
      ∀ o ∈ c.order, ∀ t ∈ e.trades, crosses o.type o.side o.price t.price = true := by
  have hcancel : ∀ {id r q'}, q.Cancels id r q' → Uncrossed q'.orders := fun hc x hx y hy =>
    hu x (hc.orders_subset hx) y (hc.orders_subset hy)
  cases h with
  | submit h =>
    refine ⟨h.uncrossed hs hu, fun o ho => ?_⟩
    cases ho
    exact h.trades_cross hs
  | cancel h => exact ⟨hcancel h, fun o ho => nomatch ho⟩
  | replaceRejected => exact ⟨hu, fun o _ t ht => nomatch ht⟩
  | replaced _ hc hsub =>
    have hs₁ := hc.sharp hs
    refine ⟨hsub.uncrossed hs₁ (hcancel hc), fun o ho => ?_⟩
    cases ho
    exact hsub.trades_cross hs₁

theorem Step.sharp {c : Call} {e : Effect} (h : q.Step c e q') (hs : q.Sharp)
    (ha : ∀ o ∈ c.order, o.Aligned q.cfg) : q'.Sharp := by
  cases h with
  | submit h => exact h.sharp hs (ha _ rfl)
  | cancel h => exact h.sharp hs
  | replaceRejected => exact hs
  | replaced _ hc hsub => exact hsub.sharp (hc.sharp hs) (by rw [hc.cfg_eq]; exact ha _ rfl)

end QueueBook

namespace OrderBook

variable {b b' : OrderBook} {ps : List Ptr}

/-! ## The reference -/

/-- A call the book handles like the reference, on the grid: a limit order is not priced at its
side's empty sentinel, and no sum of a fill-or-kill pre-scan can exceed 64 bits. -/
def Comparable (b : OrderBook) (c : Call) : Prop :=
  ∀ o ∈ c.order, (o.type = .limit → o.price ≠ emptySentinel o.side) ∧
    (o.type = .fok → ∀ x ∈ b.resting, x.side = o.side.opposite →
      o.quantity + x.remaining ≤ 2 ^ 63)

instance (b : OrderBook) (c : Call) : Decidable (b.Comparable c) :=
  inferInstanceAs (Decidable (∀ o ∈ c.order, _ ∧ _))

/-- A sharp book runs like the reference from then on. -/
theorem run_eq_reference_of_sharp (calls : List (Call × Sinks)) (hr : b.Repr ps none)
    (hs : (b.view ps).Sharp) (hgrid : ∀ c ∈ calls, ∀ o ∈ c.1.order, o.OnGrid b.cfg)
    (hok : b.Along Comparable calls) :
    ∃ b' ps', b.run calls = some (List.zipWith QueueBook.Effect.reply
        ((b.view ps).ref.run (calls.map Prod.fst)).1 (calls.map Prod.snd), b') ∧
      b'.Repr ps' none ∧ (b'.view ps').Sharp ∧
      (b'.view ps').ref = ((b.view ps).ref.run (calls.map Prod.fst)).2 := by
  induction calls generalizing b ps with
  | nil => exact ⟨b, ps, rfl, hr, hs, rfl⟩
  | cons call calls ih =>
    obtain ⟨c, out⟩ := call
    obtain ⟨e, b₁, ps₁, hcall, hr₁, hstep⟩ := call_spec c hr hs.wf
    have hcomp := hok.head
    obtain ⟨href, hs₁⟩ := hstep.reference hs
      (fun o ho ht => ⟨hgrid _ List.mem_cons_self o ho ht, (hcomp o ho).1 ht⟩)
      (fun o ho ht x hx => (hcomp o ho).2 ht x (hr.mem_resting.2 hx))
    have hcfg : b₁.cfg = b.cfg := hstep.cfg_eq
    obtain ⟨b', ps', hrun, hr', hs', href'⟩ := ih hr₁ hs₁
      (fun c' hc' => by rw [hcfg]; exact hgrid c' (List.mem_cons_of_mem _ hc'))
      (hok.tail (hcall out))
    refine ⟨b', ps', ?_, hr', hs', ?_⟩
    · rw [run, hcall]
      change (b₁.run calls).bind _ = _
      rw [hrun, List.map_cons, List.map_cons, Reference.run, href]
      rfl
    · rw [href', List.map_cons, Reference.run, href]

theorem sharp_create {cfg : BookConfig} (h : create cfg = some b) : (b.view []).Sharp := by
  obtain ⟨-, hview⟩ := repr_create h
  rw [hview]
  exact QueueBook.sharp_of_empty (emptyView_wf cfg) rfl fun s => by cases s <;> rfl

/-- **The book is the naive price-time-priority book.** Whatever buffers the caller hands in, the
results, trades and victims are the reference's. -/
theorem run_eq_reference {cfg : BookConfig} (hb : create cfg = some b)
    (calls : List (Call × Sinks)) (hgrid : ∀ c ∈ calls, ∀ o ∈ c.1.order, o.OnGrid cfg)
    (hok : b.Along Comparable calls) :
    ∃ b', b.run calls = some (List.zipWith QueueBook.Effect.reply
      ((Reference.empty cfg).run (calls.map Prod.fst)).1 (calls.map Prod.snd), b') := by
  obtain ⟨hr, hview⟩ := repr_create hb
  have hcfg : b.cfg = cfg := congrArg QueueBook.cfg hview
  obtain ⟨b', ps', hrun, -⟩ := run_eq_reference_of_sharp calls hr (sharp_create hb)
    (by rw [hcfg]; exact hgrid) hok
  refine ⟨b', ?_⟩
  rw [hrun, hview]
  rfl

/-- A book from 100 to 120 with tick 10. -/
def smallConfig : BookConfig where
  minPrice := 100
  maxPrice := 120
  tick := 10
  maxOrders := 4
  stp := .cancelPassive
  tick_pos := by decide
  ordered := by decide
  minPrice_fits := by decide
  maxPrice_fits := by decide

def smallBook : OrderBook := (create smallConfig).get (by decide)

theorem create_smallConfig : create smallConfig = some smallBook := (Option.some_get _).symm

/-- A book with the single price `kAskEmpty`, which is also the asks' sentinel. -/
def topConfig : BookConfig where
  minPrice := kAskEmpty
  maxPrice := kAskEmpty
  tick := 1
  maxOrders := 4
  stp := .cancelPassive
  tick_pos := by decide
  ordered := by decide
  minPrice_fits := by decide
  maxPrice_fits := by decide

/-- Calls that meet the conditions: a partial fill, a fill-or-kill order, a self-trade and a
replace. -/
def smallCalls : List (Call × Sinks) :=
  [(.submit ⟨1, 110, 5, 1, .sell, .limit⟩, .empty 4),
    (.submit ⟨2, 110, 2, 2, .buy, .fok⟩, .empty 4),
    (.submit ⟨3, 120, 4, 1, .buy, .limit⟩, .empty 4),
    (.replace 3 ⟨4, 100, 1, 3, .sell, .ioc⟩, .empty 0)]

theorem run_eq_reference_smallCalls : ∃ b b', create smallConfig = some b ∧
    b.run smallCalls = some (List.zipWith QueueBook.Effect.reply
      ((Reference.empty smallConfig).run (smallCalls.map Prod.fst)).1
      (smallCalls.map Prod.snd), b') := by
  have hb := create_smallConfig
  obtain ⟨b', h⟩ := run_eq_reference hb smallCalls (by decide) (by decide +kernel)
  exact ⟨_, b', hb, h⟩

/-- What the book and the reference fill, call by call. -/
def filledBoth (cfg : BookConfig) (calls : List (Call × Sinks)) :
    Option (List Int) × List Int :=
  (((create cfg).bind fun b => b.run calls).map fun done => done.1.map (·.result.filled),
    ((Reference.empty cfg).run (calls.map Prod.fst)).1.map (·.result.filled))

/-- A sell that rests at `kAskEmpty` is not found by a buy at that price; a fill-or-kill order is
refused although the book holds its quantity, because the pre-scan's sum wraps around. -/
theorem run_ne_reference :
    filledBoth topConfig
      [(.submit ⟨1, kAskEmpty, 5, 1, .sell, .limit⟩, .empty 4),
        (.submit ⟨2, kAskEmpty, 5, 2, .buy, .limit⟩, .empty 4)] = (some [0, 0], [0, 5]) ∧
    filledBoth smallConfig
      [(.submit ⟨1, 110, 5, 1, .sell, .limit⟩, .empty 4),
        (.submit ⟨2, 110, 2 ^ 63 - 2, 1, .sell, .limit⟩, .empty 4),
        (.submit ⟨3, 110, 2 ^ 63 - 1, 2, .buy, .fok⟩, .empty 4)] =
      (some [0, 0, 0], [0, 0, 2 ^ 63 - 1]) := by
  constructor <;> decide +kernel

/-! ## Limits -/

/-- **Limits are respected and the book is never crossed**, as long as every limit order submitted
before was on the grid and not priced at its side's empty sentinel. -/
theorem call_respects_limits {cfg : BookConfig} (hb : create cfg = some b)
    (calls : List (Call × Sinks)) (hcalls : ∀ c ∈ calls, ∀ o ∈ c.1.order, o.Aligned cfg)
    (c : Call) (out : Sinks) :
    ∃ rs b₁ reply b₂, b.run calls = some (rs, b₁) ∧ b₁.call c out = some (reply, b₂) ∧
      (∀ o ∈ c.order, o.type ≠ .market →
        ∀ t ∈ reply.out.trades.data.drop out.trades.data.length, o.accepts t.price) ∧
      ∀ x ∈ b₂.resting, ∀ y ∈ b₂.resting, x.side = .buy → y.side = .sell → x.price < y.price := by
  obtain ⟨hr, hview⟩ := repr_create hb
  obtain ⟨es, b₁, ps₁, hrun, hr₁, -, -, hs₁, hu₁⟩ := run_induct
    (I := fun q => q.cfg = cfg ∧ q.Sharp ∧ QueueBook.Uncrossed q.orders)
    (P := fun _ c => ∀ o ∈ c.order, o.Aligned cfg) (fun _ hi => hi.2.1.wf)
    (fun _ hi hok hstep => ⟨hstep.cfg_eq.trans hi.1, hstep.sharp hi.2.1 (by rw [hi.1]; exact hok),
      (hstep.respects_limits hi.2.1 hi.2.2).1⟩) calls hr
    (by rw [hview]; exact ⟨rfl, hview ▸ sharp_create hb, fun x hx => nomatch hx⟩)
    (along_of_forall hcalls)
  obtain ⟨e, b₂, ps₂, hcall, hr₂, hstep⟩ := call_spec c hr₁ hs₁.wf
  obtain ⟨hu₂, hcross⟩ := hstep.respects_limits hs₁ hu₁
  refine ⟨_, b₁, _, b₂, hrun, hcall out, fun o ho ht t hmem => ?_, fun x hx y hy => ?_⟩
  · obtain ⟨n, hn⟩ := out.trades.pushAll_data e.trades
    have hdata : (e.reply out).out.trades.data = out.trades.data ++ e.trades.take n := hn
    rw [hdata, List.drop_left] at hmem
    exact NewOrder.accepts_of_crosses ht (hcross o ho t (List.mem_of_mem_take hmem))
  · exact hu₂ x (hr₂.mem_resting.1 hx) y (hr₂.mem_resting.1 hy)

theorem call_respects_limits_smallCalls : ∃ b rs b₁ reply b₂, create smallConfig = some b ∧
    b.run smallCalls = some (rs, b₁) ∧
    b₁.call (.submit ⟨5, 115, 3, 4, .buy, .ioc⟩) (.empty 2) = some (reply, b₂) ∧
    (∀ t ∈ reply.out.trades.data, t.price ≤ 115) ∧
    ∀ x ∈ b₂.resting, ∀ y ∈ b₂.resting, x.side = .buy → y.side = .sell → x.price < y.price := by
  have hb := create_smallConfig
  obtain ⟨rs, b₁, reply, b₂, hrun, hcall, htrades, hbook⟩ :=
    call_respects_limits hb smallCalls (by decide) (.submit ⟨5, 115, 3, 4, .buy, .ioc⟩) (.empty 2)
  exact ⟨_, rs, b₁, reply, b₂, hb, hrun, hcall, htrades _ rfl (by decide), hbook⟩

/-- Two sells share a slot off the grid. The second one sets the best price, the first one stands
at the head of the level: a buy limited to 112 trades at 115. -/
theorem offGrid_buy_trades_above_limit :
    ((create smallConfig).bind fun b => b.run
      [(.submit ⟨1, 115, 5, 1, .sell, .limit⟩, .empty 4),
        (.submit ⟨2, 112, 5, 1, .sell, .limit⟩, .empty 4),
        (.submit ⟨3, 112, 5, 2, .buy, .limit⟩, .empty 4)]).map
      (fun done => done.1.map fun r => r.out.trades.data.map Trade.price) = some [[], [], [115]] ∧
    ¬ (⟨3, 112, 5, 2, .buy, .limit⟩ : NewOrder).accepts 115 := by
  constructor
  · decide +kernel
  · exact fun h => absurd (show (115 : Int) ≤ 112 from h) (by decide)

end OrderBook

end Velox
