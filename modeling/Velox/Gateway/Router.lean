import Velox.Gateway.Requests

/-!
# The exec-report router

Following `routeOne`, `routeExecReport` and `routeReject` of `gateway/gateway.hpp`. An event of the
matching thread becomes at most two reports; a report looks its order up in the table of routes and
is sent to the session found there, if that still exists. A reject takes the route out of the table.
How many reports found no session is only counted, and is left out.

The router sees a trade and not what is left of the two orders. It reports every trade as a fill
that leaves nothing, which is right for an order exactly when the trade was its last
(`trade_reports_iff`).
-/

namespace Velox

open QueueBook MatchingThread

/-- One call of `routeExecReport` or `routeReject`. -/
inductive Report where
  | exec (orderId : Int) (type : ExecType) (execQty leavesQty price tradeId globalSeq : Int)
  | reject (orderId : Int) (reason : RejectReason) (globalSeq : Int)
  deriving DecidableEq

def Report.orderId : Report → Int
  | .exec id .. => id
  | .reject id .. => id

/-- The frame that is sent. -/
def Report.message : Report → Message
  | .exec id type execQty leavesQty price tradeId seq =>
    .execReport ⟨.ofInt id, type.toByte, .ofInt execQty, .ofInt leavesQty, .ofInt price,
      .ofInt tradeId, .ofInt seq⟩
  | .reject id reason seq => .reject ⟨.ofInt id, reason.toByte, .ofInt seq⟩

/-- The reports of an event, in the order in which they are made. -/
def routeOne : OutboundEvent → List Report
  | .trade t seq =>
    [.exec t.aggressorId .fill t.quantity 0 t.price t.id seq,
      .exec t.passiveId .fill t.quantity 0 t.price t.id seq]
  | .status id status seq =>
    if status = .ok then [.exec id .newAck 0 0 0 0 seq] else [.reject id .engineReject seq]
  | .orderUpdate .. => []

/-! ## What the reports of a trade say -/

/-- A report that says what is left of its order. -/
def Report.Tells (r : Report) (left : Int) : Prop :=
  ∃ id execQty price tradeId seq,
    r = .exec id (if 0 < left then .partialFill else .fill) execQty left price tradeId seq

/-- The trades among events. -/
def tradesIn (events : List OutboundEvent) : List Trade := events.filterMap OutboundEvent.trade?

theorem tells_fill_iff {id execQty price tradeId seq left : Int} :
    (Report.exec id .fill execQty 0 price tradeId seq).Tells left ↔ left = 0 := by
  constructor
  · rintro ⟨_, _, _, _, _, h⟩
    rw [Report.exec.injEq] at h
    exact h.2.2.2.1.symm
  · rintro rfl
    exact ⟨_, _, _, _, _, rfl⟩

/-- The trades that were published up to one of them are the first of those that were made. -/
theorem tradesIn_publish {cmd : Command} {e : Effect} {n : Int} {k : CommandKind}
    (hk : k = .cancel → e.trades = []) {before after : List OutboundEvent} {t : Trade} {seq : Int}
    (h : publish cmd (e.reply (Sinks.empty kTradeBufCapacity)) n k =
      before ++ .trade t seq :: after) :
    ∃ later, e.trades = tradesIn before ++ t :: later := by
  have htrades := publish_trades cmd e n k hk
  have hcons : (OutboundEvent.trade t seq :: after).filterMap OutboundEvent.trade? =
    t :: after.filterMap OutboundEvent.trade? := rfl
  rw [h, List.filterMap_append, hcons] at htrades
  refine ⟨after.filterMap OutboundEvent.trade? ++ e.trades.drop kTradeBufCapacity, ?_⟩
  rw [← List.cons_append, ← List.append_assoc, tradesIn, htrades, List.take_append_drop]

section Left

variable {q q' : QueueBook} {c : Call} {e : Effect} {t : Trade} {earlier later : List Trade}

/-- What a trade leaves of an order is not negative. -/
theorem QueueBook.Step.left_nonneg (h : q.Step c e q') (hw : q.Wf)
    (he : e.trades = earlier ++ t :: later) :
    (∀ o ∈ c.order, 0 ≤ o.quantity - tradedBy o.id (earlier ++ [t])) ∧
      ∀ x ∈ q.orders, x.id = t.passiveId → 0 ≤ x.remaining - tradedBy x.id (earlier ++ [t]) := by
  obtain ⟨hpos, hle⟩ := h.traded_le hw
  have hmem : t ∈ e.trades := by
    rw [he]
    exact List.mem_append_right _ List.mem_cons_self
  have hsplit : ∀ id, tradedBy id (earlier ++ [t]) ≤ tradedBy id e.trades := by
    intro id
    have hlater : 0 ≤ tradedBy id later := tradedBy_nonneg fun t' ht' => hpos t' (by
      rw [he]
      exact List.mem_append_right _ (List.mem_cons_of_mem _ ht'))
    have hcut : earlier ++ t :: later = (earlier ++ [t]) ++ later := by
      rw [List.append_assoc, List.singleton_append]
    rw [he, hcut, tradedBy_append id (earlier ++ [t]) later]
    omega
  refine ⟨fun o ho => ?_, fun x hx hid => ?_⟩
  · have := hle (List.ne_nil_of_mem hmem) o ho
    have := tradedBy_le_tradedIn o.id hpos
    have := hsplit o.id
    omega
  · obtain ⟨o, ho, -, -, y, hy, hyid, hown, htarget⟩ := h.trade_spec hmem
    obtain rfl := hw.eq_of_id hx hy (hid.trans hyid.symm)
    have hown' : ∀ o' ∈ c.order, x.participant ≠ o'.participant := fun o' ho' =>
      Option.some.inj (ho.symm.trans ho') ▸ hown
    have := (h.fate hw hx hown' htarget).le
    have := hsplit x.id
    omega

end Left

/-- **A trade is reported to an order's session as it is exactly if it was the order's last.** In
the events of any command on any reachable book, for the command's own order and for the order at
rest: what the order has left after the trade is what it had, less what it traded up to there. -/
theorem trade_reports_iff {m : MatchingThread} (hm : m.book.Reachable) {cmd : Command}
    {k : CommandKind} (hk : CommandKind.ofByte cmd.kind = some k) :
    ∃ events m', m.dispatch cmd = some (events, m') ∧
      ∀ before t seq after, events = before ++ .trade t seq :: after →
        ∃ aggressor passive o x, routeOne (.trade t seq) = [aggressor, passive] ∧
          aggressor.orderId = t.aggressorId ∧ passive.orderId = t.passiveId ∧
          o ∈ (cmd.call k).order ∧ o.id = t.aggressorId ∧
          0 ≤ o.quantity - tradedBy o.id (tradesIn before ++ [t]) ∧
          (aggressor.Tells (o.quantity - tradedBy o.id (tradesIn before ++ [t])) ↔
            o.quantity - tradedBy o.id (tradesIn before ++ [t]) = 0) ∧
          x ∈ m.book.resting ∧ x.id = t.passiveId ∧
          0 ≤ x.remaining - tradedBy x.id (tradesIn before ++ [t]) ∧
          (passive.Tells (x.remaining - tradedBy x.id (tradesIn before ++ [t])) ↔
            x.remaining - tradedBy x.id (tradesIn before ++ [t]) = 0) := by
  obtain ⟨ps, hr, hw⟩ := hm.repr
  obtain ⟨e, b, ps', hcall, hr', hs⟩ := OrderBook.call_spec (cmd.call k) hr hw
  refine ⟨_, _, m.dispatch_some hk (hcall _), fun before t seq after hevents => ?_⟩
  have hcancel : k = .cancel → e.trades = [] := by
    rintro rfl
    cases hs
    rfl
  obtain ⟨later, hlater⟩ := tradesIn_publish hcancel hevents
  have hmem : t ∈ e.trades := by
    rw [hlater]
    exact List.mem_append_right _ List.mem_cons_self
  obtain ⟨o, ho, ha, -, x, hx, hp, -, -⟩ := hs.trade_spec hmem
  obtain ⟨hleft, hleft'⟩ := hs.left_nonneg hw hlater
  exact ⟨_, _, o, x, rfl, rfl, rfl, ho, ha.symm, hleft o ho, tells_fill_iff,
    hr.mem_resting.2 hx, hp, hleft' x hx hp, tells_fill_iff⟩

/-- Participant 2 buys 3 at 110. -/
def buyThree : Command := NewOrderMsg.command ⟨1, 2, 1, .buy, .limit, 110, 3, .day⟩ 2

/-- The one trade of that buy with the sell of 5. -/
def tradeOfThree : Trade := ⟨0, 2, 1, 110, 3, .buy⟩

theorem trade_reports_iff_buyThree : ∃ events m',
    (⟨firstBook .sell, 1⟩ : MatchingThread).dispatch buyThree = some (events, m') ∧
      ∀ before t seq after, events = before ++ .trade t seq :: after →
        ∃ passive x, (routeOne (.trade t seq))[1]? = some passive ∧
          x ∈ (firstBook .sell).resting ∧ x.id = t.passiveId ∧
          (passive.Tells (x.remaining - tradedBy x.id (tradesIn before ++ [t])) ↔
            x.remaining - tradedBy x.id (tradesIn before ++ [t]) = 0) := by
  obtain ⟨events, m', hdispatch, hreports⟩ := trade_reports_iff (m := ⟨firstBook .sell, 1⟩)
    (firstBook_reachable .sell) (rfl : CommandKind.ofByte buyThree.kind = some .new)
  refine ⟨events, m', hdispatch, fun before t seq after hevents => ?_⟩
  obtain ⟨aggressor, passive, o, x, hroute, -, -, -, -, -, -, hx, hid, -, hiff⟩ :=
    hreports before t seq after hevents
  exact ⟨passive, x, by rw [hroute]; rfl, hx, hid, hiff⟩

/-- The sell of 5 has 2 left after that trade and rests with them; it is reported as filled, with
nothing left. -/
theorem partial_fill_reported_as_fill :
    ((⟨firstBook .sell, 1⟩ : MatchingThread).dispatch buyThree).map
        (fun step => (tradesIn step.1, step.2.book.resting)) =
          some ([tradeOfThree], [⟨1, 110, 5, 2, 1, 1, .sell⟩]) ∧
      routeOne (.trade tradeOfThree 2) =
        [.exec 2 .fill 3 0 110 0 2, .exec 1 .fill 3 0 110 0 2] ∧
      ¬ (Report.exec 1 .fill 3 0 110 0 2).Tells 2 := by
  refine ⟨by decide +kernel, rfl, fun h => ?_⟩
  exact absurd (tells_fill_iff.1 h) (by decide)

end Velox
