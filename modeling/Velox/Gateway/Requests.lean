import Velox.Engine.Others
import Velox.Gateway.Session
import Velox.Runtime.Events

/-!
# Requests on the book

What the commands of a session do to the book of their shard. Two things that the command of a
cancel or a replace does not carry decide the results here.

* The side of a replace is not on the wire, and the command's side is `Buy`. The side of an order
  survives a replace if and only if the order is a buy (`cancelReplace_keepsSide_iff`).
* Nobody compares the participant of a cancel or a replace with that of the order it names. Every
  order of another participant is safe, except the one that is named (`request_spares_others`).
-/

namespace Velox

open QueueBook

namespace MatchingThread

/-- A trade that is published was made. -/
theorem mem_trades_of_publish {cmd : Command} {e : Effect} {seq : Int} {k : CommandKind}
    (hk : k = .cancel → e.trades = []) {t : Trade} {n : Int}
    (h : .trade t n ∈ publish cmd (e.reply (Sinks.empty kTradeBufCapacity)) seq k) :
    t ∈ e.trades := by
  have hmem : t ∈ (publish cmd (e.reply (Sinks.empty kTradeBufCapacity)) seq k).filterMap
    OutboundEvent.trade? := List.mem_filterMap.2 ⟨_, h, rfl⟩
  rw [publish_trades cmd e seq k hk] at hmem
  exact List.mem_of_mem_take hmem

end MatchingThread

open MatchingThread

section Replace

variable {q q' q₁ : QueueBook} {fresh : NewOrder} {old r : OrderResult} {ts : List Trade}
  {vs : List StpVictim} {x : RestingOrder}

/-- A replace of an order at rest under its own id, with a valid quantity and price, is carried
out. -/
theorem QueueBook.checkReplace_eq_none_of_valid (hx : x ∈ q.orders) (hid : fresh.id = x.id)
    (hquantity : 0 < fresh.quantity) (hprice : q.cfg.inRange fresh.price = true) :
    q.checkReplace x.id fresh = none := by
  have hany : q.orders.any (fun y => decide (y.id = x.id)) = true :=
    List.any_eq_true.2 ⟨x, hx, decide_eq_true rfl⟩
  rw [checkReplace, if_neg (by rw [hany]; decide), if_neg (by omega),
    if_neg (by rw [hprice]; exact fun h => absurd h.2 (by decide)), if_neg fun h => h.1 hid]

end Replace

/-- Participant 1 buys, or sells, 5 at 110. -/
def firstOrder (side : Side) : Command := NewOrderMsg.command ⟨1, 1, 1, side, .limit, 110, 5, .day⟩ 1

/-- The small book with that order at rest. -/
def firstBook (side : Side) : OrderBook :=
  ((OrderBook.create OrderBook.smallConfig).bind
    (·.applyAll ⟨.empty 0, none⟩ [(firstOrder side).submission])).get
      (by cases side <;> decide +kernel)

theorem firstBook_reachable (side : Side) : (firstBook side).Reachable := by
  obtain ⟨b₀, hb₀, hall⟩ := Option.bind_eq_some_iff.1 (Option.some_get _).symm
  exact OrderBook.reachable_of_applyAll hb₀ hall

def firstResting (side : Side) : RestingOrder := ⟨1, 110, 5, 5, 1, 1, side⟩

theorem firstBook_resting (side : Side) : (firstBook side).resting = [firstResting side] := by
  cases side <;> decide +kernel

/-- The order is moved to another price. -/
def moveToHundred : CancelReplaceMsg := ⟨2, 1, 1, 100, 5⟩

/-- **A cancel or a replace of participant `p` touches no order of another participant**, except
the one it names and, with what they trade, those its replacement trades with. -/
theorem request_spares_others {t : MatchingThread} (ht : t.book.Reachable) {m : Message}
    {r : Request} (hm : m.request? = some r) (hnew : ∀ n, m ≠ .newOrder n) (p : Int64) :
    ∃ k, ∃ e : Effect, ∃ events t', CommandKind.ofByte (r.command p).kind = some k ∧
      (∀ out, t.book.call ((r.command p).call k) out = some (e.reply out, t'.book)) ∧
      t.dispatch (r.command p) = some (events, t') ∧ (k = .cancel → e.trades = []) ∧
      ∀ x ∈ t.book.resting, x.participant ≠ p.toInt → x.id ≠ r.orderId.toInt →
        Fate x (tradedBy x.id e.trades) t'.book.resting := by
  obtain ⟨ps, hr, hw⟩ := ht.repr
  have hcommand : ∃ k, CommandKind.ofByte (r.command p).kind = some k ∧
      ((r.command p).call k).target = some r.orderId.toInt ∧
      (∀ o ∈ ((r.command p).call k).order, o.participant = p.toInt) ∧
      (k = .cancel → (r.command p).call k = .cancel r.orderId.toInt) := by
    cases m with
    | newOrder n => exact absurd rfl (hnew n)
    | cancel n =>
      cases hm
      exact ⟨.cancel, rfl, rfl, nofun, fun _ => rfl⟩
    | cancelReplace n =>
      cases hm
      refine ⟨.replace, rfl, rfl, fun o ho => ?_, nofun⟩
      rw [← Option.some.inj ho]
      rfl
    | _ => cases hm
  obtain ⟨k, hk, htarget, hparticipant, hcancel⟩ := hcommand
  obtain ⟨e, b, ps', hcall, hr', hs⟩ := OrderBook.call_spec ((r.command p).call k) hr hw
  refine ⟨k, e, _, _, hk, hcall, t.dispatch_some hk (hcall _), fun hkind => ?_,
    fun x hx hown hname => ?_⟩
  · rw [hcancel hkind] at hs
    cases hs
    rfl
  · refine (hs.fate hw (hr.mem_resting.1 hx) (fun o ho => ?_) fun id hid => ?_).congr
      fun y => hr'.mem_resting
    · rw [hparticipant o ho]
      exact hown
    · rw [htarget] at hid
      exact Option.some.inj hid ▸ hname

def cancelOrder (id : Int64) : CancelMsg := ⟨1, id, 1⟩

theorem request_spares_others_firstBook : ∃ (e : Effect) (events : List OutboundEvent)
    (t' : MatchingThread), (⟨firstBook .sell, 1⟩ : MatchingThread).dispatch ((cancelOrder 2).command 2) =
        some (events, t') ∧
      (∀ out, (firstBook .sell).call (.cancel 2) out = some (e.reply out, t'.book)) ∧
      Fate (firstResting .sell) (tradedBy 1 e.trades) t'.book.resting := by
  obtain ⟨k, e, events, t', hk, hcall, hdispatch, -, hothers⟩ := request_spares_others
    (t := ⟨firstBook .sell, 1⟩) (m := .cancel (cancelOrder 2)) (firstBook_reachable .sell) rfl
    nofun 2
  obtain rfl : CommandKind.cancel = k := Option.some.inj hk
  refine ⟨e, events, t', hdispatch, hcall, hothers _ ?_ (by decide) (by decide)⟩
  rw [firstBook_resting]
  exact List.mem_singleton_self _

/-- Participant 2 cancels the order of participant 1, or makes it its own. -/
theorem foreign_order_cancelled_and_taken :
    (firstBook .sell).resting = [firstResting .sell] ∧
      ((⟨firstBook .sell, 1⟩ : MatchingThread).dispatch ((cancelOrder 1).command 2)).map
        (·.2.book.resting) = some [] ∧
      ((⟨firstBook .sell, 1⟩ : MatchingThread).dispatch (moveToHundred.command 2)).map
        (·.2.book.resting) = some [⟨1, 100, 5, 5, 2, 2, .buy⟩] :=
  ⟨firstBook_resting .sell, by decide +kernel, by decide +kernel⟩

end Velox
