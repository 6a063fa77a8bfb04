import Velox.Engine.Ledger
import Velox.Engine.Sweep
import Velox.Runtime.MatchingThread

/-!
# What the outbound events tell

The matching thread publishes, for one command, the trades first, then the orders self-trade
prevention removed, then the fate of the command's own order. The match loop makes trades and
removals in any mixture. `Replica` is what a reader of the events can know of the book: the
resting orders in the order they joined, and the two counters.

The reader ends up with the book's own orders (`publish_replica`), because a removal commutes
with the fills before it: neither looks at an order with another id. All of this is about a
command whose trades and victims fit the thread's buffers.
-/

namespace Velox

namespace MatchingThread

/-- The events that tell of what a command did. -/
def publish (cmd : Command) (r : Reply) (seq : Int) : CommandKind → List OutboundEvent
  | .new =>
    publishTrades r.out seq ++ publishStpVictims r.out seq ++
      (if r.result.status ≠ .ok then [.status cmd.id.toInt r.result.status seq] else []) ++
      [emitOrderUpdate cmd.id.toInt cmd.side r.result seq]
  | .cancel =>
    .status cmd.id.toInt r.result.status seq ::
      (if r.result.status = .ok then
        [.orderUpdate .cancelled r.result.side (resultUpdate cmd.id.toInt r.result) .ok seq]
        else [])
  | .replace =>
    (if rejectedBeforeDispatch r.result.status then [] else
      [.orderUpdate .cancelled (r.oldResult.getD {}).side
        (resultUpdate cmd.id.toInt (r.oldResult.getD {})) .ok seq]) ++
      publishTrades r.out seq ++ publishStpVictims r.out seq ++
      [.status cmd.newId.toInt r.result.status seq] ++
      (if rejectedBeforeDispatch r.result.status then [] else
        [emitOrderUpdate cmd.newId.toInt cmd.side r.result seq])

theorem dispatch_none (m : MatchingThread) {cmd : Command}
    (h : CommandKind.ofByte cmd.kind = none) :
    m.dispatch cmd = some ([], ⟨m.book, m.dispatchSeq + 1⟩) := by
  rw [dispatch, h]

/-- A dispatch calls the book and publishes its reply. -/
theorem dispatch_some (m : MatchingThread) {cmd : Command} {k : CommandKind} {r : Reply}
    {b : OrderBook} (hk : CommandKind.ofByte cmd.kind = some k)
    (h : m.book.call (cmd.call k) (Sinks.empty kTradeBufCapacity) = some (r, b)) :
    m.dispatch cmd = some (publish cmd r (m.dispatchSeq + 1) k, ⟨b, m.dispatchSeq + 1⟩) := by
  rw [dispatch, hk]
  cases k with
  | new =>
    simp only [Command.call, OrderBook.call] at h
    cases hs : m.book.submitEx cmd.toNewOrder (Sinks.empty kTradeBufCapacity) with
    | none => simp [hs] at h
    | some res =>
      rw [hs] at h
      cases h
      change (m.book.submitEx cmd.toNewOrder (Sinks.empty kTradeBufCapacity)).bind _ = _
      rw [hs]
      rfl
  | cancel =>
    simp only [Command.call, OrderBook.call] at h
    cases hs : m.book.cancel cmd.id.toInt with
    | none => simp [hs] at h
    | some res =>
      rw [hs] at h
      cases h
      rfl
  | replace =>
    simp only [Command.call, OrderBook.call] at h
    cases hs : m.book.replace cmd.id.toInt { cmd.toNewOrder with id := cmd.newId.toInt }
        (Sinks.empty kTradeBufCapacity) with
    | none => simp [hs] at h
    | some res =>
      rw [hs] at h
      cases h
      change (m.book.replace cmd.id.toInt { cmd.toNewOrder with id := cmd.newId.toInt }
        (Sinks.empty kTradeBufCapacity)).bind _ = _
      rw [hs]
      rfl

end MatchingThread

/-- The order at rest that an update describes. -/
def OrderUpdate.order (u : OrderUpdate) (side : Side) : RestingOrder :=
  ⟨u.orderId, u.price, u.quantity, u.remaining, u.participant, u.seq, side⟩

/-- What a reader of the events knows of the book. -/
structure Replica where
  orders : List RestingOrder
  lastSeq : Int
  tradeCount : Int
  deriving DecidableEq

namespace Replica

def empty : Replica := ⟨[], 0, 0⟩

/-- `qty` off what remains of the order `id`. -/
def takenOff (id qty : Int) (xs : List RestingOrder) : List RestingOrder :=
  xs.map fun x => if x.id = id then { x with remaining := x.remaining - qty } else x

/-- `qty` of the order `id` has traded; it leaves if nothing remains. -/
def fillOrder (id qty : Int) (xs : List RestingOrder) : List RestingOrder :=
  (takenOff id qty xs).filter fun x => decide (x.id ≠ id ∨ 0 < x.remaining)

def dropOrder (id : Int) (xs : List RestingOrder) : List RestingOrder :=
  xs.filter fun x => decide (x.id ≠ id)

def applyTrade (r : Replica) (t : Trade) : Replica :=
  ⟨fillOrder t.passiveId t.quantity r.orders, r.lastSeq, r.tradeCount + 1⟩

def updateOrders (action : UpdateAction) (side : Side) (u : OrderUpdate)
    (xs : List RestingOrder) : List RestingOrder :=
  match action with
  | .rested => xs ++ [u.order side]
  | .cancelled | .replaced => dropOrder u.orderId xs
  | .rejected => xs

def applyOrderUpdate (r : Replica) (action : UpdateAction) (side : Side) (u : OrderUpdate) :
    Replica :=
  ⟨updateOrders action side u r.orders, max r.lastSeq u.seq, r.tradeCount⟩

def apply (r : Replica) : OutboundEvent → Replica
  | .trade t _ => r.applyTrade t
  | .status _ _ _ => r
  | .orderUpdate action side u _ _ => r.applyOrderUpdate action side u

def applyAll (r : Replica) (es : List OutboundEvent) : Replica := es.foldl apply r

@[simp] theorem applyAll_nil (r : Replica) : r.applyAll [] = r := rfl

@[simp] theorem applyAll_cons (r : Replica) (e : OutboundEvent) (es : List OutboundEvent) :
    r.applyAll (e :: es) = (r.apply e).applyAll es := rfl

@[simp] theorem applyAll_append (r : Replica) (es es' : List OutboundEvent) :
    r.applyAll (es ++ es') = (r.applyAll es).applyAll es' := List.foldl_append

/-- A removal and a fill do not see each other: both leave the ids of other orders alone. -/
theorem dropOrder_fillOrder (id id' qty : Int) (xs : List RestingOrder) :
    dropOrder id (fillOrder id' qty xs) = fillOrder id' qty (dropOrder id xs) := by
  have hid : ∀ x : RestingOrder,
      (if x.id = id' then { x with remaining := x.remaining - qty } else x).id = x.id := by
    intro x
    split <;> rfl
  simp only [dropOrder, fillOrder, takenOff, List.filter_filter, List.filter_map]
  congr 1
  apply List.filter_congr
  intro x _
  simp only [Function.comp_apply, hid]
  exact Bool.and_comm _ _

section Orders

variable {xs : List RestingOrder} {x : RestingOrder} {id qty : Int}

theorem dropOrder_of_forall_ne (h : ∀ y ∈ xs, y.id ≠ id) : dropOrder id xs = xs :=
  List.filter_eq_self.2 fun y hy => by simpa using h y hy

/-- An order and the others. -/
theorem perm_cons_dropOrder (hn : (xs.map RestingOrder.id).Nodup) (hx : x ∈ xs) :
    xs.Perm (x :: dropOrder x.id xs) := by
  induction xs with
  | nil => cases hx
  | cons y ys ih =>
    obtain ⟨hy, hys⟩ := List.nodup_cons.1 hn
    rcases List.mem_cons.1 hx with rfl | hx
    · rw [dropOrder, List.filter_cons_of_neg (by simp), ← dropOrder, dropOrder_of_forall_ne]
      exact fun z hz hid => hy (hid ▸ List.mem_map_of_mem hz)
    · have hne : y.id ≠ x.id := fun hid => hy (hid ▸ List.mem_map_of_mem hx)
      rw [dropOrder, List.filter_cons_of_pos (by simpa using hne), ← dropOrder]
      exact ((ih hys hx).cons y).trans (List.Perm.swap x y _)

theorem takenOff_of_forall_ne (h : ∀ y ∈ xs, y.id ≠ id) : takenOff id qty xs = xs :=
  (List.map_congr_left fun y hy => if_neg (h y hy)).trans (List.map_id _)

theorem fillOrder_of_forall_ne (h : ∀ y ∈ xs, y.id ≠ id) : fillOrder id qty xs = xs := by
  rw [fillOrder, takenOff_of_forall_ne h]
  exact List.filter_eq_self.2 fun y hy => by simp [h y hy]

/-- The fill takes all that remains: the order leaves. -/
theorem fillOrder_eq_dropOrder (hn : (xs.map RestingOrder.id).Nodup) (hx : x ∈ xs)
    (hrem : x.remaining - qty ≤ 0) : fillOrder x.id qty xs = dropOrder x.id xs := by
  have hkeep : xs.filter ((fun y => decide (y.id ≠ x.id ∨ 0 < y.remaining)) ∘ fun y =>
      if y.id = x.id then { y with remaining := y.remaining - qty } else y) =
      dropOrder x.id xs := by
    refine List.filter_congr fun y hy => ?_
    by_cases hid : y.id = x.id
    · rw [List.inj_on_of_nodup_map hn hy hx hid]
      simp
      omega
    · simp [hid]
  rw [fillOrder, takenOff, List.filter_map, hkeep]
  exact takenOff_of_forall_ne fun y hy => by simpa using (List.mem_filter.1 hy).2

/-- Something remains: the order keeps its place. -/
theorem fillOrder_eq_takenOff (hn : (xs.map RestingOrder.id).Nodup) (hx : x ∈ xs)
    (hrem : 0 < x.remaining - qty) : fillOrder x.id qty xs = takenOff x.id qty xs := by
  refine List.filter_eq_self.2 fun y hy => ?_
  obtain ⟨z, hz, rfl⟩ := List.mem_map.1 hy
  by_cases hid : z.id = x.id
  · rw [List.inj_on_of_nodup_map hn hz hx hid]
    simpa using hrem
  · simp [hid]

end Orders

theorem applyTrade_cancelled (r : Replica) (t : Trade) (side : Side) (u : OrderUpdate) :
    (r.applyTrade t).applyOrderUpdate .cancelled side u =
      (r.applyOrderUpdate .cancelled side u).applyTrade t := by
  simp [applyTrade, applyOrderUpdate, updateOrders, dropOrder_fillOrder]

/-- A removal may be read before the trades. -/
theorem applyAll_trades_cancelled (r : Replica) (ts : List Trade) (seq : Int) (side : Side)
    (u : OrderUpdate) :
    (r.applyAll (ts.map (OutboundEvent.trade · seq))).applyOrderUpdate .cancelled side u =
      (r.applyOrderUpdate .cancelled side u).applyAll (ts.map (OutboundEvent.trade · seq)) := by
  induction ts generalizing r with
  | nil => rfl
  | cons t ts ih =>
    rw [List.map_cons, applyAll_cons, applyAll_cons, ih]
    exact congrArg (applyAll · _) (r.applyTrade_cancelled t side u)

end Replica

/-! ## The buffers -/

/-- A buffer keeps what there is room for. -/
theorem Buffer.pushAll_data_eq {α : Type} (b : Buffer α) (xs : List α) :
    (b.pushAll xs).data = b.data ++ xs.take (b.capacity - b.count) := by
  induction xs generalizing b with
  | nil => simp
  | cons x xs ih =>
    have hcap : (b.push x).capacity - (b.push x).count = b.capacity - b.count - 1 := by
      rw [Nat.sub_sub]
      rfl
    rw [pushAll_cons, ih, push_data, hcap]
    split
    · next h =>
      obtain ⟨k, hk⟩ := Nat.exists_eq_succ_of_ne_zero (Nat.sub_ne_zero_of_lt h)
      simp [hk]
    · next h => simp [Nat.sub_eq_zero_of_le (Nat.not_lt.1 h)]

theorem Buffer.pushAll_capacity {α : Type} (b : Buffer α) (xs : List α) :
    (b.pushAll xs).capacity = b.capacity := by
  induction xs generalizing b with
  | nil => rfl
  | cons x xs ih => exact ih (b.push x)

theorem Buffer.pushAll_count {α : Type} (b : Buffer α) (xs : List α) :
    (b.pushAll xs).count = b.count + xs.length := by
  induction xs generalizing b with
  | nil => rfl
  | cons x xs ih =>
    rw [pushAll_cons, ih, List.length_cons, Nat.add_comm xs.length, ← Nat.add_assoc]
    rfl

namespace MatchingThread

/-- The update that tells of a victim of self-trade prevention. -/
def victimEvent (seq : Int) (v : StpVictim) : OutboundEvent :=
  .orderUpdate .cancelled v.side ⟨v.id, v.price, v.quantity, v.remaining, v.participant, v.seq⟩ .ok
    seq

theorem publishTrades_pushAll (n : Nat) (ts : List Trade) (vs : List StpVictim) (seq : Int) :
    publishTrades ((Sinks.empty n).pushAll ts vs) seq =
      (ts.take n).map (OutboundEvent.trade · seq) := by
  rw [publishTrades, Sinks.pushAll, Buffer.pushAll_data_eq]
  rfl

theorem publishStpVictims_pushAll (n : Nat) (ts : List Trade) (vs : List StpVictim) (seq : Int) :
    publishStpVictims ((Sinks.empty n).pushAll ts vs) seq =
      (vs.take n).map (victimEvent seq) := by
  simp only [publishStpVictims, Sinks.pushAll, Sinks.empty, Option.map_some, Option.elim_some,
    Buffer.pushAll_data_eq]
  rfl

end MatchingThread

/-! ## Reading one command -/

namespace QueueBook

open MatchingThread

/-- What there is to know of the book. -/
def replica (q : QueueBook) : Replica := ⟨q.orders, q.seq, q.nextTradeId⟩

section Replica

variable {q q' : QueueBook} {o : NewOrder} {rem rem' seq n : Int} {oc : MatchOutcome}
  {ts : List Trade} {vs : List StpVictim} {x : RestingOrder} {xs : List RestingOrder}

/-- A trade, as its event tells it. -/
theorem Wf.afterTrade_fillOrder (hw : q.Wf) (hf : q.front o = x :: xs) :
    (q.afterTrade o x rem).orders = Replica.fillOrder x.id (min rem x.remaining) q.orders := by
  have hx := (mem_of_front hf).1
  rw [afterTrade_orders, QueueBook.fill]
  split
  · rw [Replica.fillOrder_eq_dropOrder hw.ids hx (by omega)]
    rfl
  · rw [Replica.fillOrder_eq_takenOff hw.ids hx (by omega)]
    rfl

/-- A removal, as its event tells it. -/
theorem apply_victimEvent (q : QueueBook) (o : NewOrder) (seq : Int) (hx : x.seq ≤ n) :
    (Replica.mk q.orders n q.nextTradeId).apply (victimEvent seq x) =
      ⟨(q.afterVictim o x).orders, n, (q.afterVictim o x).nextTradeId⟩ := by
  rw [afterVictim_orders, afterVictim_nextTradeId]
  simp [victimEvent, Replica.apply, Replica.applyOrderUpdate, Replica.updateOrders,
    Replica.dropOrder, remove, hx]

/-- **What a match does, read from its events.** -/
theorem Match.replica (hm : Match o q rem oc ts vs q' rem') (hw : q.Wf)
    (hn : ∀ x ∈ q.orders, x.seq ≤ n) :
    (Replica.mk q.orders n q.nextTradeId).applyAll
      (ts.map (OutboundEvent.trade · seq) ++ vs.map (victimEvent seq)) =
      ⟨q'.orders, n, q'.nextTradeId⟩ := by
  induction hm with
  | exhausted | noLongerCrosses | stpAggressor => rfl
  | stale _ hf _ ih => simpa using ih (hw.levelEmptied hf) (by simpa using hn)
  | @trade q rem _ ts vs q' _ x xs hl hf _ rest ih =>
    have hseqs : ∀ y ∈ (q.afterTrade o x rem).orders, y.seq ≤ n := by
      intro y hy
      rw [hw.afterTrade_fillOrder hf] at hy
      obtain ⟨z, hz, rfl⟩ := List.mem_map.1 (List.mem_filter.1 hy).1
      have := hn z hz
      split <;> exact this
    rw [← ih (hw.afterTrade hl.rem_pos hf) hseqs, hw.afterTrade_fillOrder hf,
      afterTrade_nextTradeId]
    rfl
  | @stpPassive q rem _ ts vs q' _ x xs _ hf _ _ _ ih =>
    have hx := hn x (mem_of_front hf).1
    have hrest := ih hw.afterVictim fun y hy => hn y ((q.remove_sublist x.id).mem (by simpa using hy))
    rw [← q.apply_victimEvent o seq hx, victimEvent, Replica.apply,
      Replica.applyAll_append, ← Replica.applyAll_trades_cancelled] at hrest
    rw [List.map_cons, Replica.applyAll_append, Replica.applyAll_cons]
    exact hrest
  | @stpBoth q rem x xs _ hf _ _ =>
    have hx := hn x (mem_of_front hf).1
    exact q.apply_victimEvent o seq hx

/-- The last event of a new order, or of the fresh order of a replace. -/
theorem applyAll_emitOrderUpdate (q : QueueBook) (o : NewOrder) (side : Side) (rem : Int)
    (status : SubmitStatus) (r : Replica) (hr : r.lastSeq ≤ q.seq + 1) :
    r.apply (emitOrderUpdate o.id side { q.arrived o rem with status := status } seq) =
      ⟨r.orders, q.seq + 1, r.tradeCount⟩ := by
  simp [emitOrderUpdate, arrived, NewOrder.result, Replica.apply, Replica.applyOrderUpdate,
    Replica.updateOrders, resultUpdate, hr]

/-- **What a submit does, read from its events.** -/
theorem Submits.replica {r : OrderResult} (h : q.Submits o r ts vs q') (hw : q.Wf)
    (h0 : 0 ≤ q.seq) (side : Side) (seq : Int) :
    ((q.replica.applyAll (ts.map (OutboundEvent.trade · seq) ++ vs.map (victimEvent seq))).apply
      (emitOrderUpdate o.id side r seq)) = q'.replica := by
  have hmatch : ∀ {rem oc q₁}, Match o q.arrive o.quantity oc ts vs q₁ rem →
      q.replica.applyAll (ts.map (OutboundEvent.trade · seq) ++ vs.map (victimEvent seq)) =
        ⟨q₁.orders, q.seq, q₁.nextTradeId⟩ := fun hm => hm.replica hw.arrive hw.seq_le
  have hcount : ∀ {rem oc q₁}, Match o q.arrive o.quantity oc ts vs q₁ rem →
      q₁.seq = q.seq + 1 := fun hm => hm.seq_eq
  cases h with
  | rejected | unfillable =>
    simp [emitOrderUpdate, NewOrder.result, Replica.apply, Replica.applyOrderUpdate,
      Replica.updateOrders, resultUpdate, QueueBook.replica, h0]
  | stp _ hm | exhausted _ hm | filled _ hm | residual _ hm | fokResidual _ hm =>
    rw [hmatch hm, applyAll_emitOrderUpdate _ _ _ _ _ _ (by simp), QueueBook.replica, hcount hm]
  | rested _ hm =>
    rw [hmatch hm, QueueBook.replica, add_orders, add_seq, add_nextTradeId, hcount hm]
    simp [emitOrderUpdate, arrived, NewOrder.result, NewOrder.resting, Replica.apply,
      Replica.applyOrderUpdate, Replica.updateOrders, resultUpdate, OrderUpdate.order]

/-- What a cancel does, read from its event. -/
theorem Cancels.replica {id : Int} {r : OrderResult} (h : q.Cancels id r q') (hw : q.Wf)
    (hok : r.status = .ok) :
    q.replica.applyOrderUpdate .cancelled r.side (resultUpdate id r) = q'.replica := by
  cases h with
  | unknown => cases hok
  | @found x hx hid =>
    have hle := hw.seq_le x hx
    have horders : Replica.dropOrder id q.orders = (q.remove id).orders := rfl
    have hseq : (q.remove id).seq = q.seq := rfl
    have hcount : (q.remove id).nextTradeId = q.nextTradeId := rfl
    simp [Replica.applyOrderUpdate, Replica.updateOrders, resultUpdate, RestingOrder.cancelled,
      QueueBook.replica, horders, hseq, hcount, hle]

/-- `replace` returns one of the four statuses exactly when it stopped before the cancel. -/
theorem rejectedBeforeDispatch_check {oldId : Int} {fresh : NewOrder} {status : SubmitStatus}
    (h : q.checkReplace oldId fresh = some status) : rejectedBeforeDispatch status = true := by
  rw [checkReplace] at h
  split at h
  · cases h
    rfl
  · split at h
    · cases h
      rfl
    · split at h
      · cases h
        rfl
      · split at h <;> cases h
        rfl

/-- The old order has been cancelled, and none of the four statuses follows. -/
theorem replaced_status {oldId : Int} {fresh : NewOrder} {q₁ : QueueBook} {old r : OrderResult}
    (h : q.checkReplace oldId fresh = none) (hc : q.Cancels oldId old q₁)
    (hs : q₁.Submits fresh r ts vs q') :
    old.status = .ok ∧ rejectedBeforeDispatch r.status = false := by
  obtain ⟨⟨x, hx, hid⟩, -⟩ := checkReplace_eq_none h
  constructor
  · cases hc with
    | unknown hno => exact absurd hid (hno x hx)
    | found => rfl
  · cases hs with
    | unfillable | stp | rested | exhausted | filled | residual | fokResidual => rfl
    | rejected hcheck =>
      rw [(check_after_cancel h hc hcheck).1]
      rfl

theorem Effect.reply_result (e : Effect) (out : Sinks) : (e.reply out).result = e.result := rfl

/-- The trades and victims of a command fit the thread's buffers. -/
def Effect.Fits (e : Effect) : Prop :=
  e.trades.length ≤ kTradeBufCapacity ∧ e.victims.length ≤ kTradeBufCapacity

/-- The buffers then hold all of them. -/
theorem Effect.Fits.publish_out {e : Effect} (h : e.Fits) (seq : Int) :
    publishTrades (e.reply (Sinks.empty kTradeBufCapacity)).out seq ++
      publishStpVictims (e.reply (Sinks.empty kTradeBufCapacity)).out seq =
      e.trades.map (OutboundEvent.trade · seq) ++ e.victims.map (victimEvent seq) := by
  obtain ⟨htrades, hvictims⟩ := h
  rw [Effect.reply, publishTrades_pushAll, publishStpVictims_pushAll,
    List.take_of_length_le htrades, List.take_of_length_le hvictims]

/-- **The events of a command lead a reader from the old book to the new one.** -/
theorem Step.publish_replica {cmd : Command} {k : CommandKind} {e : Effect}
    (h : q.Step (cmd.call k) e q') (hw : q.Wf) (h0 : 0 ≤ q.seq) (seq : Int) (hfit : e.Fits) :
    q.replica.applyAll (publish cmd (e.reply (Sinks.empty kTradeBufCapacity)) seq k) =
      q'.replica := by
  have hout := hfit.publish_out seq
  generalize hc : cmd.call k = c at h
  cases k with
  | new =>
    cases hc
    obtain ⟨hs⟩ := h
    have hread := hs.replica hw h0 cmd.side seq
    rw [publish, hout]
    split
    · rw [Replica.applyAll_append, Replica.applyAll_append]
      exact hread
    · rw [List.append_nil, Replica.applyAll_append]
      exact hread
  | cancel =>
    cases hc
    obtain ⟨⟩ | ⟨hs⟩ := h
    rw [publish, Replica.applyAll_cons]
    split
    · next hok => exact hs.replica hw hok
    · next hok =>
      cases hs with
      | unknown => rfl
      | found => exact absurd rfl hok
  | replace =>
    cases hc
    cases h with
    | replaceRejected h =>
      have hr := rejectedBeforeDispatch_check h
      rw [publish, Effect.reply_result, if_pos hr, if_pos hr, List.nil_append, hout, List.append_nil]
      rfl
    | replaced h hc hs =>
      obtain ⟨hok, hr⟩ := replaced_status h hc hs
      have hread := hs.replica (hc.wf hw) (by rwa [hc.seq_eq]) cmd.side seq
      rw [publish, Effect.reply_result, if_neg (ne_true_of_eq_false hr),
        if_neg (ne_true_of_eq_false hr), List.append_assoc [_], hout, ← hread, ← hc.replica hw hok, Replica.applyAll_append,
        Replica.applyAll_append, Replica.applyAll_append]
      rfl

end Replica

end QueueBook

/-! ## Nothing lost, nothing twice -/

def OutboundEvent.trade? : OutboundEvent → Option Trade
  | .trade t _ => some t
  | _ => none

/-- The id of the order that an event says was cancelled. -/
def OutboundEvent.cancelled? : OutboundEvent → Option Int
  | .orderUpdate .cancelled _ u _ _ => some u.orderId
  | _ => none

/-- The events tell of every trade, in order, and of every removal, once. -/
structure Tells (events : List OutboundEvent) (e : QueueBook.Effect) : Prop where
  trades : events.filterMap OutboundEvent.trade? = e.trades
  victims : ∀ v ∈ e.victims, (events.filterMap OutboundEvent.cancelled?).count v.id = 1

namespace QueueBook

open MatchingThread

section Told

variable {q q' : QueueBook} {o : NewOrder} {rem rem' seq : Int} {oc : MatchOutcome}
  {ts : List Trade} {vs : List StpVictim} {cmd : Command} {k : CommandKind} {e : Effect}

theorem Match.tradeIds (hm : Match o q rem oc ts vs q' rem') :
    ts.map Trade.id = (List.range ts.length).map fun i : Nat => q.nextTradeId + i := by
  induction hm with
  | exhausted | noLongerCrosses | stpAggressor | stpBoth => rfl
  | stale _ _ _ ih | stpPassive _ _ _ _ _ ih => simpa using ih
  | trade _ _ _ _ ih =>
    rw [List.map_cons, ih, List.length_cons, List.range_succ_eq_map, List.map_cons, List.map_map]
    simp only [tradeOf, afterTrade_nextTradeId, Nat.cast_zero, add_zero, List.cons.injEq, true_and]
    refine List.map_congr_left fun i _ => ?_
    simp only [Function.comp_apply, Nat.succ_eq_add_one, Nat.cast_add, Nat.cast_one]
    ring

/-- The victims are orders that were at rest, each once. -/
theorem Match.victims (hm : Match o q rem oc ts vs q' rem') :
    (vs.map RestingOrder.id).Nodup ∧ ∀ v ∈ vs, ∃ x ∈ q.orders, x.id = v.id := by
  induction hm with
  | exhausted | noLongerCrosses | stpAggressor => simp
  | stale _ _ _ ih => simpa using ih
  | @trade q rem _ _ _ _ _ x _ _ _ _ _ ih =>
    refine ⟨ih.1, fun v hv => ?_⟩
    obtain ⟨y, hy, hid⟩ := ih.2 v hv
    obtain ⟨z, hz, hsame⟩ := afterTrade_origin hy
    exact ⟨z, hz, hsame.id.symm.trans hid⟩
  | @stpPassive q rem _ _ _ _ _ x _ _ hf _ _ _ ih =>
    simp only [afterVictim_orders] at ih
    refine ⟨List.nodup_cons.2 ⟨fun hmem => ?_, ih.1⟩, fun v hv => ?_⟩
    · obtain ⟨v, hv, hid⟩ := List.mem_map.1 hmem
      obtain ⟨y, hy, hid'⟩ := ih.2 v hv
      exact of_decide_eq_true (List.mem_filter.1 hy).2 (hid'.trans hid)
    · rcases List.mem_cons.1 hv with rfl | hv
      · exact ⟨v, (mem_of_front hf).1, rfl⟩
      · obtain ⟨y, hy, hid⟩ := ih.2 v hv
        exact ⟨y, (q.remove_sublist _).mem hy, hid⟩
  | @stpBoth q rem x _ _ hf =>
    refine ⟨List.nodup_singleton _, fun v hv => ?_⟩
    rw [List.mem_singleton.1 hv]
    exact ⟨x, (mem_of_front hf).1, rfl⟩

theorem Submits.tradeIds {r : OrderResult} (h : q.Submits o r ts vs q') :
    ts.map Trade.id = (List.range ts.length).map (fun i : Nat => q.nextTradeId + i) ∧
      q'.nextTradeId = q.nextTradeId + ts.length := by
  cases h with
  | rejected | unfillable => simp
  | stp _ hm | exhausted _ hm | filled _ hm | residual _ hm | fokResidual _ hm =>
    exact ⟨hm.tradeIds, hm.nextTradeId_eq⟩
  | rested _ hm =>
    rw [add_nextTradeId]
    exact ⟨hm.tradeIds, hm.nextTradeId_eq⟩

theorem Cancels.nextTradeId_eq {id : Int} {r : OrderResult} (h : q.Cancels id r q') :
    q'.nextTradeId = q.nextTradeId := by
  cases h with
  | unknown => rfl
  | found => exact settle_nextTradeId ..

/-- Trades are numbered one after the other. -/
theorem Step.tradeIds {c : Call} (h : q.Step c e q') :
    e.trades.map Trade.id = (List.range e.trades.length).map (fun i : Nat => q.nextTradeId + i) ∧
      q'.nextTradeId = q.nextTradeId + e.trades.length := by
  cases h with
  | submit h => exact h.tradeIds
  | cancel h => exact ⟨rfl, by rw [h.nextTradeId_eq]; simp⟩
  | replaceRejected => simp
  | replaced _ hc hs =>
    rw [← hc.nextTradeId_eq]
    exact hs.tradeIds

theorem Submits.victims {r : OrderResult} (h : q.Submits o r ts vs q') :
    (vs.map RestingOrder.id).Nodup ∧ ∀ v ∈ vs, ∃ x ∈ q.orders, x.id = v.id := by
  cases h with
  | rejected | unfillable => simp
  | stp _ hm | rested _ hm | exhausted _ hm | filled _ hm | residual _ hm | fokResidual _ hm =>
    exact hm.victims

/-- The ids that the events of a command say were cancelled: that of the order the command names,
and those of the victims there was room for. -/
theorem publish_cancelled (cmd : Command) (e : Effect) (seq : Int) (k : CommandKind) :
    ∃ own, (own = [] ∨ own = [cmd.id.toInt] ∧ k ≠ .new) ∧
      (publish cmd (e.reply (Sinks.empty kTradeBufCapacity)) seq k).filterMap
        OutboundEvent.cancelled? = own ++ if k = .cancel then [] else
          (e.victims.take kTradeBufCapacity).map RestingOrder.id := by
  have htrades : (publishTrades (e.reply (Sinks.empty kTradeBufCapacity)).out seq).filterMap
      OutboundEvent.cancelled? = [] := by
    rw [Effect.reply, publishTrades_pushAll, List.filterMap_map]
    exact List.filterMap_eq_nil_iff.2 fun _ _ => rfl
  have hvictims : (publishStpVictims (e.reply (Sinks.empty kTradeBufCapacity)).out seq).filterMap
      OutboundEvent.cancelled? = (e.victims.take kTradeBufCapacity).map RestingOrder.id := by
    rw [Effect.reply, publishStpVictims_pushAll, List.filterMap_map]
    exact congrFun List.filterMap_eq_map _
  have hemit : ∀ id side r, [emitOrderUpdate id side r seq].filterMap OutboundEvent.cancelled? =
      [] := by
    intro id side r
    rw [emitOrderUpdate]
    split <;> rfl
  cases k with
  | new =>
    refine ⟨[], Or.inl rfl, ?_⟩
    simp only [publish, List.filterMap_append, htrades, hvictims, hemit]
    split <;> simp [OutboundEvent.cancelled?]
  | cancel =>
    simp only [publish]
    split
    · exact ⟨[cmd.id.toInt], Or.inr ⟨rfl, by decide⟩, rfl⟩
    · exact ⟨[], Or.inl rfl, rfl⟩
  | replace =>
    simp only [publish, List.filterMap_append, htrades, hvictims]
    split
    · exact ⟨[], Or.inl rfl, by simp [OutboundEvent.cancelled?]⟩
    · refine ⟨[cmd.id.toInt], Or.inr ⟨rfl, by decide⟩, ?_⟩
      simp [hemit, OutboundEvent.cancelled?, resultUpdate]

theorem publish_trades (cmd : Command) (e : Effect) (seq : Int) (k : CommandKind)
    (hk : k = .cancel → e.trades = []) :
    (publish cmd (e.reply (Sinks.empty kTradeBufCapacity)) seq k).filterMap OutboundEvent.trade? =
      e.trades.take kTradeBufCapacity := by
  have htrades : (publishTrades (e.reply (Sinks.empty kTradeBufCapacity)).out seq).filterMap
      OutboundEvent.trade? = e.trades.take kTradeBufCapacity := by
    rw [Effect.reply, publishTrades_pushAll, List.filterMap_map]
    exact List.filterMap_some
  have hvictims : (publishStpVictims (e.reply (Sinks.empty kTradeBufCapacity)).out seq).filterMap
      OutboundEvent.trade? = [] := by
    rw [Effect.reply, publishStpVictims_pushAll, List.filterMap_map]
    exact List.filterMap_eq_nil_iff.2 fun _ _ => rfl
  have hemit : ∀ id side r, [emitOrderUpdate id side r seq].filterMap OutboundEvent.trade? =
      [] := by
    intro id side r
    rw [emitOrderUpdate]
    split <;> rfl
  cases k with
  | new =>
    simp only [publish, List.filterMap_append, htrades, hvictims, hemit]
    split <;> simp [OutboundEvent.trade?]
  | cancel =>
    rw [hk rfl, publish]
    split <;> rfl
  | replace =>
    have hstatus : ∀ id status, [OutboundEvent.status id status seq].filterMap
      OutboundEvent.trade? = [] := fun _ _ => rfl
    have hold : ∀ side u, [OutboundEvent.orderUpdate .cancelled side u .ok seq].filterMap
      OutboundEvent.trade? = [] := fun _ _ => rfl
    simp only [publish, List.filterMap_append, htrades, hvictims, hstatus]
    split
    · simp
    · simp [hemit, hold]

/-- The victims are different orders, and none is the order the command names. -/
theorem Step.victims (h : q.Step (cmd.call k) e q') :
    (e.victims.map RestingOrder.id).Nodup ∧
      (k ≠ .new → ∀ v ∈ e.victims, v.id ≠ cmd.id.toInt) ∧
      (k = .cancel → e.trades = [] ∧ e.victims = []) := by
  generalize hc : cmd.call k = c at h
  cases k with
  | new =>
    cases hc
    obtain ⟨hs⟩ := h
    exact ⟨hs.victims.1, fun hk => absurd rfl hk, nofun⟩
  | cancel =>
    cases hc
    obtain ⟨⟩ | ⟨hs⟩ := h
    exact ⟨List.nodup_nil, fun _ _ hv => (nomatch hv), fun _ => ⟨rfl, rfl⟩⟩
  | replace =>
    cases hc
    cases h with
    | replaceRejected => exact ⟨List.nodup_nil, fun _ _ hv => (nomatch hv), nofun⟩
    | replaced _ hc hs =>
      refine ⟨hs.victims.1, fun _ v hv => ?_, nofun⟩
      obtain ⟨x, hx, hid⟩ := hs.victims.2 v hv
      cases hc with
      | unknown hno =>
        rw [← hid]
        exact hno x hx
      | found =>
        rw [settle_orders] at hx
        rw [← hid]
        exact of_decide_eq_true (List.mem_filter.1 hx).2

/-- **The events tell everything exactly when the buffers had room.** -/
theorem Step.tells_iff (h : q.Step (cmd.call k) e q') (seq : Int) :
    Tells (publish cmd (e.reply (Sinks.empty kTradeBufCapacity)) seq k) e ↔ e.Fits := by
  obtain ⟨hnodup, hnamed, hcancel⟩ := h.victims
  have htrades := publish_trades cmd e seq k fun hk => (hcancel hk).1
  obtain ⟨own, hown, hcancelled⟩ := publish_cancelled cmd e seq k
  have hnone : ∀ v ∈ e.victims, own.count v.id = 0 := by
    intro v hv
    rcases hown with rfl | ⟨rfl, hk⟩
    · rfl
    · exact List.count_eq_zero.2 fun hmem => hnamed hk v hv (List.mem_singleton.1 hmem)
  have hcount : ∀ v ∈ e.victims, ((publish cmd (e.reply (Sinks.empty kTradeBufCapacity)) seq
      k).filterMap OutboundEvent.cancelled?).count v.id =
      ((e.victims.take kTradeBufCapacity).map RestingOrder.id).count v.id := by
    intro v hv
    rw [hcancelled, List.count_append, hnone v hv, Nat.zero_add]
    split
    · next hk => simp [(hcancel hk).2] at hv
    · rfl
  constructor
  · rintro ⟨ht, hv⟩
    rw [htrades, List.take_eq_self_iff] at ht
    refine ⟨ht, ?_⟩
    by_contra hlong
    -- The first victim that was not stored is in no event.
    have hlt : kTradeBufCapacity < e.victims.length := not_le.1 hlong
    have hmem : e.victims[kTradeBufCapacity] ∈ e.victims := List.getElem_mem hlt
    have hone := (hcount _ hmem).symm.trans (hv _ hmem)
    have hstored := List.count_pos_iff.1 (hone ▸ Nat.one_pos)
    have hsplit : (e.victims.map RestingOrder.id).Nodup := hnodup
    rw [← List.take_append_drop kTradeBufCapacity e.victims, List.map_append,
      List.nodup_append] at hsplit
    refine hsplit.2.2 _ hstored _ (List.mem_map_of_mem ?_) rfl
    rw [List.drop_eq_getElem_cons hlt]
    exact List.mem_cons_self
  · rintro ⟨ht, hv⟩
    refine ⟨by rw [htrades, List.take_of_length_le ht], fun v hmem => ?_⟩
    rw [hcount v hmem, List.take_of_length_le hv]
    exact List.count_eq_one_of_mem hnodup (List.mem_map_of_mem hmem)

end Told

end QueueBook

/-- More was pushed than there was room for. -/
def Buffer.overflowed {α : Type} (b : Buffer α) : Bool := decide (b.capacity < b.count)

namespace MatchingThread

/-- This command overflows the buffers; a debug build asserts that none does. -/
def overflows (m : MatchingThread) (cmd : Command) : Bool :=
  match CommandKind.ofByte cmd.kind with
  | none => false
  | some k => (m.book.call (cmd.call k) (Sinks.empty kTradeBufCapacity)).any fun r =>
      r.1.out.trades.overflowed || r.1.out.victims.any Buffer.overflowed

/-- None of these commands overflows the buffers. -/
def runFits (m : MatchingThread) : List Command → Bool
  | [] => true
  | cmd :: cmds => !m.overflows cmd && (m.dispatch cmd).all fun step => step.2.runFits cmds

theorem overflows_eq_false_iff {m : MatchingThread} {cmd : Command} {k : CommandKind}
    {e : QueueBook.Effect} {b : OrderBook} (hk : CommandKind.ofByte cmd.kind = some k)
    (hcall : ∀ out, m.book.call (cmd.call k) out = some (e.reply out, b)) :
    m.overflows cmd = false ↔ e.Fits := by
  simp only [overflows, hk, hcall, Option.any_some, QueueBook.Effect.reply, Sinks.pushAll,
    Sinks.empty, Option.map_some, Buffer.overflowed, Buffer.pushAll_count, Buffer.pushAll_capacity,
    Bool.or_eq_false_iff, decide_eq_false_iff_not, not_lt, QueueBook.Effect.Fits, Buffer.empty,
    Nat.zero_add]

/-- **A dispatch on a represented book**: a command of no known kind does nothing, any other one
takes a step and publishes what it did. -/
theorem dispatch_spec {m : MatchingThread} {ps : List Ptr} (hr : m.book.Repr ps none)
    (hw : (m.book.view ps).Wf) (cmd : Command) :
    (CommandKind.ofByte cmd.kind = none ∧
        m.dispatch cmd = some ([], ⟨m.book, m.dispatchSeq + 1⟩)) ∨
      ∃ k e b ps', CommandKind.ofByte cmd.kind = some k ∧
        (∀ out, m.book.call (cmd.call k) out = some (e.reply out, b)) ∧
        m.dispatch cmd = some (publish cmd (e.reply (Sinks.empty kTradeBufCapacity))
          (m.dispatchSeq + 1) k, ⟨b, m.dispatchSeq + 1⟩) ∧
        b.Repr ps' none ∧ (m.book.view ps).Step (cmd.call k) e (b.view ps') := by
  cases hk : CommandKind.ofByte cmd.kind with
  | none => exact Or.inl ⟨rfl, m.dispatch_none hk⟩
  | some k =>
    obtain ⟨e, b, ps', hcall, hr', hs⟩ := OrderBook.call_spec (cmd.call k) hr hw
    exact Or.inr ⟨k, e, b, ps', rfl, hcall, m.dispatch_some hk (hcall _), hr', hs⟩

/-- **One event for each execution, as long as the sweep fits the buffers.** -/
theorem dispatch_tells_iff {m : MatchingThread} (hm : m.book.Reachable) {cmd : Command}
    {k : CommandKind} (hk : CommandKind.ofByte cmd.kind = some k) :
    ∃ ps e events m', m.book.Repr ps none ∧
      (∀ out, m.book.call (cmd.call k) out = some (e.reply out, m'.book)) ∧
      m.dispatch cmd = some (events, m') ∧
      e.trades.map Trade.id =
        (List.range e.trades.length).map (fun i : Nat => m.book.nextTradeId + i) ∧
      m'.book.nextTradeId = m.book.nextTradeId + e.trades.length ∧
      (Tells events e ↔ ∀ n, (m.book.view ps).Sweeps (cmd.call k) n →
        n.1 ≤ kTradeBufCapacity ∧ n.2 ≤ kTradeBufCapacity) := by
  obtain ⟨ps, hr, hw⟩ := hm.repr
  obtain ⟨e, b, ps', hcall, hr', hs⟩ := OrderBook.call_spec (cmd.call k) hr hw
  have hdispatch := m.dispatch_some hk (hcall (Sinks.empty kTradeBufCapacity))
  refine ⟨ps, e, _, _, hr, hcall, hdispatch, hs.tradeIds.1, hs.tradeIds.2, ?_⟩
  rw [hs.tells_iff]
  constructor
  · intro hfits n hn
    rw [hn.count hs hw]
    exact hfits
  · intro hn
    rcases hs.sweeps hw with ⟨ht, hv⟩ | hsweeps
    · rw [QueueBook.Effect.Fits, ht, hv]
      exact ⟨Nat.zero_le _, Nat.zero_le _⟩
    · exact hn _ hsweeps

/-- A sell into an empty book. -/
def smallSell : Command := ⟨1, 0, 110, 1, 1, 0, .sell, .limit, 0⟩

theorem dispatch_tells_iff_smallConfig : ∃ b ps e events m',
    OrderBook.create OrderBook.smallConfig = some b ∧ b.Repr ps none ∧
      (∀ out, b.call (smallSell.call .new) out = some (e.reply out, m'.book)) ∧
      (⟨b, 0⟩ : MatchingThread).dispatch smallSell = some (events, m') ∧
      (Tells events e ↔ ∀ n, (b.view ps).Sweeps (smallSell.call .new) n →
        n.1 ≤ kTradeBufCapacity ∧ n.2 ≤ kTradeBufCapacity) := by
  have hb := OrderBook.create_smallConfig
  obtain ⟨b, hall, hreach⟩ := OrderBook.reachable_applyAll hb []
  obtain rfl : _ = b := Option.some.inj (hall ⟨.empty 0, none⟩)
  obtain ⟨ps, e, events, m', hr, hcall, hdispatch, -, -, hiff⟩ :=
    dispatch_tells_iff (m := ⟨_, 0⟩) hreach
      (rfl : CommandKind.ofByte smallSell.kind = some .new)
  exact ⟨_, ps, e, events, m', hb, hr, hcall, hdispatch, hiff⟩

/-! ### A deep book -/

/-- One price, and room for more orders than the buffers hold. -/
def deepConfig : BookConfig where
  minPrice := 1
  maxPrice := 1
  tick := 1
  maxOrders := 1025
  stp := .cancelAggressor
  tick_pos := OrderBook.topConfig.tick_pos
  ordered := by decide
  minPrice_fits := by decide
  maxPrice_fits := by decide

/-- The sells of 1 that fill the book. -/
def lot (i : Nat) : Command := ⟨.ofNat (i + 1), 0, 1, 1, 1, 0, .sell, .limit, 0⟩

def restingLot (i : Nat) : RestingOrder := ⟨i + 1, 1, 1, 1, 1, i + 1, .sell⟩

/-- The buy that sweeps it. -/
def sweepingBuy : Command := ⟨0, 0, 1, 1025, 2, 0, .buy, .limit, 0⟩

/-- The queues after `n` sells. -/
def deepView (n : Nat) : QueueBook :=
  ⟨deepConfig, (List.range n).map restingLot, kBidEmpty, if n = 0 then kAskEmpty else 1, n, 0⟩

theorem deepView_orders (n : Nat) : (deepView n).orders = (List.range n).map restingLot := rfl

theorem lot_toNewOrder {i : Nat} (h : i < 1025) :
    (lot i).toNewOrder = ⟨i + 1, 1, 1, 1, .sell, .limit⟩ := by
  have hid : (Int64.ofNat (i + 1)).toInt = (i : Int) + 1 := by
    rw [Int64.toInt_ofNat_of_lt (by omega)]
    push_cast
    rfl
  rw [lot, Command.toNewOrder, hid]
  rfl

/-- Each sell joins the others: there is no bid to trade with. -/
theorem deepView_step {n : Nat} (h : n < 1025) :
    (deepView n).Submits (lot n).toNewOrder
      { (deepView n).arrived (lot n).toNewOrder 1 with status := .ok, rested := true } [] []
      (deepView (n + 1)) := by
  have hcheck : (deepView n).check (lot n).toNewOrder = none := by
    have hr : (deepView n).cfg.inRange 1 = true := rfl
    rw [lot_toNewOrder h, QueueBook.check, if_neg (by simp), if_neg (by simp [hr]), if_neg,
      if_neg (by simp)]
    simp [deepView, restingLot]
  have hmatch : QueueBook.Match (lot n).toNewOrder (deepView n).arrive 1 .exhausted [] []
      (deepView n).arrive 1 := by
    apply QueueBook.Match.exhausted
    rw [lot_toNewOrder h]
    simp [deepView, QueueBook.arrive, QueueBook.best, Side.opposite, emptySentinel]
  have hadd : (deepView n).arrive.add ((lot n).toNewOrder.resting ((deepView n).seq + 1) 1) =
      deepView (n + 1) := by
    rw [lot_toNewOrder h, QueueBook.add]
    simp only [deepView, QueueBook.arrive, QueueBook.best, QueueBook.setBest, NewOrder.resting,
      Side.isBetter, List.range_succ, List.map_append, List.map_singleton, restingLot,
      Nat.cast_add, Nat.cast_one, Nat.add_eq_zero_iff, one_ne_zero, and_false, if_false]
    by_cases h0 : n = 0
    · simp [h0, kAskEmpty]
    · simp [h0]
  rw [← hadd]
  have hroom : (deepView n).arrive.orders.length < (deepView n).cfg.maxOrders := by
    simp only [deepView, QueueBook.arrive, List.length_map, List.length_range]
    exact h
  exact .rested ⟨hcheck, fun ht => by rw [lot_toNewOrder h] at ht; cases ht⟩ hmatch (by decide)
    (by rw [lot_toNewOrder h]) Int.one_pos hroom

/-- The book that the first `n` sells make. -/
theorem deep_applyAll {b : OrderBook} (hb : OrderBook.create deepConfig = some b) {n : Nat}
    (h : n ≤ 1025) : ∃ b₁ ps₁,
      (∀ out, b.applyAll out ((List.range n).map fun i => (lot i).submission) = some b₁) ∧
      b₁.Repr ps₁ none ∧ (b₁.view ps₁).Wf ∧ b₁.view ps₁ = deepView n := by
  induction n with
  | zero =>
    obtain ⟨hr, hview⟩ := OrderBook.repr_create hb
    exact ⟨b, [], fun _ => rfl, hr, by rw [hview]; exact OrderBook.emptyView_wf _, hview⟩
  | succ n ih =>
    obtain ⟨b₁, ps₁, hall, hr, hw, hview⟩ := ih (Nat.le_of_succ_le h)
    obtain ⟨e, b₂, ps₂, hcall, hr₂, hs⟩ := OrderBook.call_spec ((lot n).call .new) hr hw
    have hstep := QueueBook.Step.submit (deepView_step h)
    rw [← hview] at hstep
    obtain ⟨-, hnext⟩ := hs.det hw hstep
    refine ⟨b₂, ps₂, fun out => ?_, hr₂, hs.wf hw, hnext⟩
    have happly : b₁.apply (lot n).submission.kind (lot n).submission.command out = some b₂ := by
      change (b₁.call ((lot n).call .new) out).map Prod.snd = some b₂
      rw [hcall]
      rfl
    rw [List.range_succ, List.map_append, OrderBook.applyAll_append, hall, Option.bind_some,
      List.map_singleton, OrderBook.applyAll, happly]
    rfl

/-- Orders of 1 of another participant are traded with one by one. -/
theorem sweep_lots (stp : StpPolicy) {o : NewOrder} {xs : List RestingOrder}
    (hxs : ∀ x ∈ xs, x.participant ≠ o.participant ∧ x.remaining = 1) (ys : List RestingOrder) :
    QueueBook.sweep stp o (xs ++ ys) xs.length = (xs.length, 0) := by
  induction xs with
  | nil => exact QueueBook.sweep_of_filled _ _ _ le_rfl
  | cons x xs ih =>
    obtain ⟨hpart, hrem⟩ := hxs x List.mem_cons_self
    have hleft : ((xs.length + 1 : Nat) : Int) - min ((xs.length + 1 : Nat) : Int) 1 = xs.length := by
      omega
    rw [List.cons_append, QueueBook.sweep, List.length_cons, if_neg (by omega), if_neg hpart, hrem,
      hleft, ih fun y hy => hxs y (List.mem_cons_of_mem _ hy)]

/-- All the sells are on one level. -/
theorem deepView_queue (n : Nat) :
    (deepView n).queue .sell (deepConfig.slot 1) = (List.range n).map restingLot := by
  refine List.filter_eq_self.2 fun x hx => ?_
  obtain ⟨i, -, rfl⟩ := List.mem_map.1 hx
  exact decide_eq_true ⟨rfl, rfl⟩

/-- The buy sweeps that level. -/
theorem deepView_sweeps (hw : (deepView 1025).Wf) :
    (deepView 1025).Sweeps (sweepingBuy.call .new) (1025, 0) := by
  have hadmits : (deepView 1025).Admits sweepingBuy.toNewOrder := by
    refine ⟨?_, nofun⟩
    have hr : (deepView 1025).cfg.inRange 1 = true := rfl
    rw [QueueBook.check, if_neg (by decide), if_neg, if_neg, if_neg (by decide)]
    · rw [List.any_eq_true, deepView_orders]
      rintro ⟨x, hx, hid⟩
      obtain ⟨i, -, rfl⟩ := List.mem_map.1 hx
      have hid : (i : Int) + 1 = 0 := of_decide_eq_true hid
      omega
    · exact fun h => absurd (hr.symm.trans h.2) (by decide)
  obtain ⟨ys, hys⟩ := hw.exists_reach sweepingBuy.toNewOrder
    (QueueBook.nextOccupied_inRange hw .sell 1)
  have hreach : (deepView 1025).Reach sweepingBuy.toNewOrder 1
      ((deepView 1025).queue .sell (deepConfig.slot 1) ++ ys) :=
    .level (by decide) (by decide) hys
  have hlots : ∀ x ∈ (List.range 1025).map restingLot,
      x.participant ≠ sweepingBuy.toNewOrder.participant ∧ x.remaining = 1 := by
    intro x hx
    obtain ⟨i, -, rfl⟩ := List.mem_map.1 hx
    exact ⟨(by decide : (1 : Int) ≠ 2), rfl⟩
  have hcount := sweep_lots StpPolicy.cancelAggressor hlots ys
  rw [List.length_map, List.length_range, ← deepView_queue] at hcount
  rw [← hcount]
  exact .submit hadmits hreach

/-- A buy that takes 1025 orders makes 1025 trades, and 1024 events tell of them. -/
theorem deep_sweep_loses_trade : ∃ (b : OrderBook) (m m' : MatchingThread)
    (e : QueueBook.Effect) (events : List OutboundEvent),
    OrderBook.create deepConfig = some b ∧ m.book.Reachable ∧
    (∀ out, m.book.call (sweepingBuy.call .new) out = some (e.reply out, m'.book)) ∧
    m.dispatch sweepingBuy = some (events, m') ∧ e.trades.length = 1025 ∧ ¬ Tells events e := by
  have hb : OrderBook.create deepConfig = some ((OrderBook.create deepConfig).get (by decide)) :=
    (Option.some_get _).symm
  obtain ⟨b, ps, hall, hr, hw, hview⟩ := deep_applyAll hb le_rfl
  obtain ⟨b', hall', hreach⟩ := OrderBook.reachable_applyAll hb
    ((List.range 1025).map fun i => (lot i).submission)
  obtain rfl : b = b' := Option.some.inj ((hall ⟨.empty 0, none⟩).symm.trans (hall' _))
  obtain ⟨e, b₁, ps₁, hcall, hr₁, hs⟩ := OrderBook.call_spec (sweepingBuy.call .new) hr hw
  have hdispatch := dispatch_some ⟨b, 0⟩ (rfl : CommandKind.ofByte sweepingBuy.kind = some .new)
    (hcall (Sinks.empty kTradeBufCapacity))
  have hcount : e.trades.length = 1025 := by
    have hsweeps := deepView_sweeps (hview ▸ hw)
    rw [← hview] at hsweeps
    exact (congrArg Prod.fst (hsweeps.count hs hw)).symm
  refine ⟨_, ⟨b, 0⟩, _, e, _, hb, hreach, hcall, hdispatch, hcount, ?_⟩
  rw [hs.tells_iff]
  intro hfits
  have := hfits.1
  rw [hcount] at this
  exact absurd this (by decide)

end MatchingThread

end Velox
