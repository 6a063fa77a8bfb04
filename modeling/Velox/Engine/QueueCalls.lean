import Velox.Engine.Queues

/-!
# The calls on the queues

The three calls of the book as relations on `QueueBook`, one constructor for each way a call can
end. `Step` collects them, and `Step.wf` carries the invariant through a call; what a whole run
does is then an induction over its steps.

The fill-or-kill pre-scan walks the same levels as the match loop, adding up quantities with a
machine addition. `Scan` takes the addition as a parameter, so that the walk with exact sums can
be compared with the one the code makes.
-/

namespace Velox

/-- The result fields that are filled in before anything is checked. -/
def NewOrder.result (o : NewOrder) : OrderResult :=
  { price := o.price, quantity := o.quantity, participant := o.participant, side := o.side }

/-- The order at rest, with its arrival number. -/
def NewOrder.resting (o : NewOrder) (seq remaining : Int) : RestingOrder :=
  ⟨o.id, o.price, o.quantity, remaining, o.participant, seq, o.side⟩

/-- What a successful cancel reports. -/
def RestingOrder.cancelled (x : RestingOrder) : OrderResult :=
  { status := .ok, remaining := x.remaining, filled := x.quantity - x.remaining, price := x.price,
    quantity := x.quantity, participant := x.participant, seq := x.seq, side := x.side }

namespace QueueBook

/-! ## The pre-scan -/

/-- The walk along one queue. -/
def scanQueue (stp : StpPolicy) (o : NewOrder) (add : Int → Int → Int) :
    List RestingOrder → Int → Bool × Int
  | [], sum => (false, sum)
  | x :: xs, sum =>
    if x.participant = o.participant then
      if stp = .cancelPassive then scanQueue stp o add xs sum else (true, sum)
    else if o.quantity ≤ add sum x.remaining then (true, add sum x.remaining)
    else scanQueue stp o add xs (add sum x.remaining)

/-- The walk over the levels from price `p`, with `sum` found so far, returns the last
argument. -/
inductive Scan (q : QueueBook) (o : NewOrder) (add : Int → Int → Int) : Int → Int → Int → Prop
  | done {p sum} (h : p = emptySentinel o.side.opposite ∨ crosses o.type o.side o.price p = false) :
      Scan q o add p sum sum
  | returned {p sum n} (hp : p ≠ emptySentinel o.side.opposite)
      (hc : crosses o.type o.side o.price p = true)
      (h : scanQueue q.cfg.stp o add (q.queue o.side.opposite (q.cfg.slot p)) sum = (true, n)) :
      Scan q o add p sum n
  | next {p sum sum' n} (hp : p ≠ emptySentinel o.side.opposite)
      (hc : crosses o.type o.side o.price p = true)
      (h : scanQueue q.cfg.stp o add (q.queue o.side.opposite (q.cfg.slot p)) sum = (false, sum'))
      (rest : Scan q o add (q.nextOccupied o.side.opposite p) sum' n) : Scan q o add p sum n

/-- The addition of the code: 64-bit. -/
def add64 (x y : Int) : Int := wrap64 (x + y)

/-! ## The calls -/

/-- The checks of `submitEx` before the pre-scan. -/
def check (q : QueueBook) (o : NewOrder) : Option SubmitStatus :=
  if o.quantity ≤ 0 then some .rejectedInvalidQuantity
  else if o.type ≠ .market ∧ q.cfg.inRange o.price = false then some .rejectedPriceOutOfRange
  else if q.orders.any (fun x => decide (x.id = o.id)) then some .rejectedDuplicateId
  else if o.type = .market ∧ q.best o.side.opposite = emptySentinel o.side.opposite then
    some .rejectedMarketIntoEmptyBook
  else none

/-- The order is matched: the checks pass, and so does the pre-scan of a fill-or-kill order. -/
structure Admits (q : QueueBook) (o : NewOrder) : Prop where
  check : q.check o = none
  fok : o.type = .fok → ∃ n, q.Scan o add64 (q.best o.side.opposite) 0 n ∧ o.quantity ≤ n

/-- The arrival counter is advanced before matching. -/
def arrive (q : QueueBook) : QueueBook := { q with seq := q.seq + 1 }

/-- The result of an order that was matched, before its status is set. -/
def arrived (q : QueueBook) (o : NewOrder) (rem : Int) : OrderResult :=
  { o.result with seq := q.seq + 1, filled := o.quantity - rem, remaining := rem }

/-- The ways `submitEx` can end. -/
inductive Submits (q : QueueBook) (o : NewOrder) :
    OrderResult → List Trade → List StpVictim → QueueBook → Prop
  | rejected {status} (h : q.check o = some status) :
      Submits q o { o.result with status := status } [] [] q
  | unfillable {n} (h : q.check o = none) (ht : o.type = .fok)
      (hs : q.Scan o add64 (q.best o.side.opposite) 0 n) (hn : n < o.quantity) :
      Submits q o { o.result with status := .rejectedFokUnfillable } [] [] q
  | stp {ts vs q' rem} (ha : q.Admits o)
      (hm : Match o q.arrive o.quantity .stpFired ts vs q' rem) :
      Submits q o { q.arrived o rem with status := .cancelledBySelfTradePrevention } ts vs q'
  | rested {out ts vs q' rem} (ha : q.Admits o)
      (hm : Match o q.arrive o.quantity out ts vs q' rem) (hout : out ≠ .stpFired)
      (ht : o.type = .limit) (hrem : 0 < rem) (hroom : q'.orders.length < q.cfg.maxOrders) :
      Submits q o { q.arrived o rem with status := .ok, rested := true } ts vs
        (q'.add (o.resting (q.seq + 1) rem))
  | exhausted {out ts vs q' rem} (ha : q.Admits o)
      (hm : Match o q.arrive o.quantity out ts vs q' rem) (hout : out ≠ .stpFired)
      (ht : o.type = .limit) (hrem : 0 < rem) (hroom : q.cfg.maxOrders ≤ q'.orders.length) :
      Submits q o { q.arrived o rem with status := .rejectedPoolExhausted } ts vs q'
  | filled {out ts vs q' rem} (ha : q.Admits o)
      (hm : Match o q.arrive o.quantity out ts vs q' rem) (hout : out ≠ .stpFired)
      (hrem : ¬ 0 < rem) : Submits q o { q.arrived o rem with status := .ok } ts vs q'
  | residual {out ts vs q' rem} (ha : q.Admits o)
      (hm : Match o q.arrive o.quantity out ts vs q' rem) (hout : out ≠ .stpFired)
      (ht : o.type = .market ∨ o.type = .ioc) (hrem : 0 < rem) :
      Submits q o { q.arrived o rem with status := .cancelledResidual } ts vs q'
  | fokResidual {out ts vs q' rem} (ha : q.Admits o)
      (hm : Match o q.arrive o.quantity out ts vs q' rem) (hout : out ≠ .stpFired)
      (ht : o.type = .fok) (hrem : 0 < rem) :
      Submits q o { q.arrived o rem with status := .rejectedFokUnfillable } ts vs q'

/-- The ways `cancel` can end. -/
inductive Cancels (q : QueueBook) (id : Int) : OrderResult → QueueBook → Prop
  | unknown (h : ∀ x ∈ q.orders, x.id ≠ id) : Cancels q id { status := .rejectedUnknownOrder } q
  | found {x} (hx : x ∈ q.orders) (hid : x.id = id) :
      Cancels q id x.cancelled ((q.remove id).settle x.side x.price)

/-- The checks of `replace`. -/
def checkReplace (q : QueueBook) (oldId : Int) (fresh : NewOrder) : Option SubmitStatus :=
  if q.orders.any (fun x => decide (x.id = oldId)) = false then some .rejectedUnknownOrder
  else if fresh.quantity ≤ 0 then some .rejectedInvalidQuantity
  else if fresh.type ≠ .market ∧ q.cfg.inRange fresh.price = false then
    some .rejectedPriceOutOfRange
  else if fresh.id ≠ oldId ∧ q.orders.any (fun x => decide (x.id = fresh.id)) = true then
    some .rejectedDuplicateId
  else none

/-- What a call reports, with the trades and victims it pushed. -/
structure Effect where
  result : OrderResult
  oldResult : Option OrderResult
  trades : List Trade
  victims : List StpVictim
  deriving DecidableEq

/-- The ways a call can end. -/
inductive Step (q : QueueBook) : Call → Effect → QueueBook → Prop
  | submit {o r ts vs q'} (h : q.Submits o r ts vs q') : Step q (.submit o) ⟨r, none, ts, vs⟩ q'
  | cancel {id r q'} (h : q.Cancels id r q') : Step q (.cancel id) ⟨r, none, [], []⟩ q'
  | replaceRejected {oldId fresh status} (h : q.checkReplace oldId fresh = some status) :
      Step q (.replace oldId fresh) ⟨{ status := status }, none, [], []⟩ q
  | replaced {oldId fresh old q₁ r ts vs q'} (h : q.checkReplace oldId fresh = none)
      (hc : q.Cancels oldId old q₁) (hs : q₁.Submits fresh r ts vs q') :
      Step q (.replace oldId fresh) ⟨r, some old, ts, vs⟩ q'

/-- What the caller sees of an effect: its buffers, pushed to. -/
def Effect.reply (e : Effect) (out : Sinks) : Reply :=
  ⟨e.result, e.oldResult, out.pushAll e.trades e.victims⟩

/-- A run of calls. -/
inductive Steps : QueueBook → List Call → List Effect → QueueBook → Prop
  | nil {q} : Steps q [] [] q
  | cons {q c e q' cs es q''} (h : q.Step c e q') (rest : Steps q' cs es q'') :
      Steps q (c :: cs) (e :: es) q''

section Wf

variable {q q' : QueueBook} {o : NewOrder}

theorem Wf.arrive (hw : q.Wf) : q.arrive.Wf :=
  ⟨hw.inRange, hw.positive, hw.ids, hw.room, hw.seqs,
    fun x hx => (hw.seq_le x hx).trans (by simp [QueueBook.arrive]), hw.best, hw.ahead⟩

/-- What passing the checks means. -/
theorem check_eq_none (h : q.check o = none) : 0 < o.quantity ∧
    (o.type ≠ .market → q.cfg.inRange o.price = true) ∧ (∀ x ∈ q.orders, x.id ≠ o.id) ∧
    (o.type = .market → q.best o.side.opposite ≠ emptySentinel o.side.opposite) := by
  rw [check] at h
  split at h
  · cases h
  · next hq =>
    split at h
    · cases h
    · next hr =>
      split at h
      · cases h
      · next hd =>
        split at h
        · cases h
        · next hm =>
          refine ⟨by omega, fun ht => ?_, fun x hx hid => hd ?_, fun ht hb => hm ⟨ht, hb⟩⟩
          · rw [← Bool.not_eq_false]
            exact fun hf => hr ⟨ht, hf⟩
          · rw [List.any_eq_true]
            exact ⟨x, hx, decide_eq_true hid⟩

/-- What passing the checks of `replace` means. -/
theorem checkReplace_eq_none {oldId : Int} {fresh : NewOrder}
    (h : q.checkReplace oldId fresh = none) : (∃ x ∈ q.orders, x.id = oldId) ∧
    0 < fresh.quantity ∧ (fresh.type ≠ .market → q.cfg.inRange fresh.price = true) ∧
    ∀ x ∈ q.orders, x.id ≠ oldId → x.id ≠ fresh.id := by
  rw [checkReplace] at h
  split at h
  · cases h
  · next hold =>
    split at h
    · cases h
    · next hq =>
      split at h
      · cases h
      · next hr =>
        split at h
        · cases h
        · next hd =>
          rw [Bool.not_eq_false, List.any_eq_true] at hold
          obtain ⟨x, hx, hid⟩ := hold
          refine ⟨⟨x, hx, of_decide_eq_true hid⟩, by omega, fun ht => ?_, fun y hy hne hid => ?_⟩
          · rw [← Bool.not_eq_false]
            exact fun hf => hr ⟨ht, hf⟩
          · refine hd ⟨fun heq => hne (hid.trans heq), ?_⟩
            rw [List.any_eq_true]
            exact ⟨y, hy, decide_eq_true hid⟩

/-- After the checks of `replace` and the cancel, only a market order can fail a check. -/
theorem check_after_cancel {q₁ : QueueBook} {oldId : Int} {fresh : NewOrder} {old : OrderResult}
    {status : SubmitStatus} (h : q.checkReplace oldId fresh = none)
    (hc : q.Cancels oldId old q₁) (hs : q₁.check fresh = some status) :
    status = .rejectedMarketIntoEmptyBook ∧ fresh.type = .market ∧
      q₁.best fresh.side.opposite = emptySentinel fresh.side.opposite := by
  obtain ⟨⟨x, hx, hid⟩, hq, hrange, hfresh⟩ := checkReplace_eq_none h
  cases hc with
  | unknown hno => exact absurd hid (hno x hx)
  | found =>
    rw [check, if_neg (by omega), if_neg, if_neg] at hs
    · split at hs <;> cases hs
      next hmarket => exact ⟨rfl, hmarket⟩
    · rw [Bool.not_eq_true, List.any_eq_false]
      intro y hy
      rw [settle_orders] at hy
      obtain ⟨hy, hne⟩ := List.mem_filter.1 hy
      simpa using hfresh y hy (of_decide_eq_true hne)
    · rintro ⟨ht, hf⟩
      rw [settle_cfg] at hf
      exact absurd (hrange ht) (by rw [show q.cfg.inRange fresh.price = false from hf]; decide)

theorem Submits.wf {r : OrderResult} {ts : List Trade} {vs : List StpVictim}
    (h : q.Submits o r ts vs q') (hw : q.Wf) : q'.Wf := by
  cases h with
  | rejected | unfillable => exact hw
  | stp _ hm | exhausted _ hm | filled _ hm | residual _ hm | fokResidual _ hm =>
    exact hm.wf hw.arrive
  | @rested out ts vs q₁ rem ha hm _ ht hrem hroom =>
    obtain ⟨hq, hr, hid, -⟩ := check_eq_none ha.check
    have hcfg : q₁.cfg = q.cfg := hm.cfg_eq
    have hseq : q₁.seq = q.seq + 1 := hm.seq_eq
    have hbound := hm.rem_bounds hw.arrive hq.le
    refine (hm.wf hw.arrive).add ?_ ⟨hrem, hbound.2⟩ (fun x hx => ?_) ?_ (fun x hx => ?_) ?_
    · rw [hcfg]
      exact hr (by rw [ht]; decide)
    · obtain ⟨y, hy, heq⟩ := hm.mem_orders hx
      rw [heq]
      exact hid y hy
    · rw [hcfg]
      exact hroom
    · obtain ⟨y, hy, heq⟩ := hm.mem_orders (mem_queue.1 hx).1
      rw [heq]
      exact Int.lt_add_one_of_le (hw.seq_le y hy)
    · rw [hseq]
      exact le_rfl

theorem Cancels.wf {id : Int} {r : OrderResult} (h : q.Cancels id r q') (hw : q.Wf) : q'.Wf := by
  cases h with
  | unknown => exact hw
  | found => exact (hw.remove _).settle _ _

/-- **Every call keeps the invariant.** -/
theorem Step.wf {c : Call} {e : Effect} (h : q.Step c e q') (hw : q.Wf) : q'.Wf := by
  cases h with
  | submit h => exact h.wf hw
  | cancel h => exact h.wf hw
  | replaceRejected => exact hw
  | replaced _ hc hs => exact hs.wf (hc.wf hw)

theorem Steps.wf {cs : List Call} {es : List Effect} (h : Steps q cs es q') (hw : q.Wf) : q'.Wf := by
  induction h with
  | nil => exact hw
  | cons h _ ih => exact ih (h.wf hw)

theorem Submits.cfg_eq {r : OrderResult} {ts : List Trade} {vs : List StpVictim}
    (h : q.Submits o r ts vs q') : q'.cfg = q.cfg := by
  cases h with
  | rejected | unfillable => rfl
  | stp _ hm | exhausted _ hm | filled _ hm | residual _ hm | fokResidual _ hm => exact hm.cfg_eq
  | rested _ hm => exact (add_cfg _ _).trans hm.cfg_eq

theorem Cancels.cfg_eq {id : Int} {r : OrderResult} (h : q.Cancels id r q') : q'.cfg = q.cfg := by
  cases h with
  | unknown => rfl
  | found => exact settle_cfg ..

theorem Step.cfg_eq {c : Call} {e : Effect} (h : q.Step c e q') : q'.cfg = q.cfg := by
  cases h with
  | submit h => exact h.cfg_eq
  | cancel h => exact h.cfg_eq
  | replaceRejected => rfl
  | replaced _ hc hs => exact hs.cfg_eq.trans hc.cfg_eq

end Wf

end QueueBook

end Velox
