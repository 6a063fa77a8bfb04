import Velox.Gateway.Router

/-!
# Which session a report reaches

The sessions of one shard, its ring, its matching thread and its router, in any interleaving. A
session writes its route into the table before it submits; the command waits in the session while
the ring is full, then in the ring, until the matching thread dispatches it; its events wait until
the router makes their reports, one step for each. Routes are keyed by order id alone, the last
writer wins, and a reject takes the entry away, whoever's it is.

For the statement, a shard also carries what the program does not have: whose command each is,
which session put each order at rest there, and a record of where each report went. None of this is
read by a step.

A report of a trade reaches the session whose order it is about in every run in which sessions keep
to ids of their own: a new order uses an id that is not in use, and a cancel or a replace one that
nobody else has a stake in (`RoutedShard.deliveries_right`).
-/

namespace Velox

open QueueBook MatchingThread

structure RouteEntry where
  session : Nat
  clientSeqNum : UInt64

/-- A report that the router has not made yet. A report of a trade knows the session that put the
order into the engine. -/
structure Waiting where
  report : Report
  owner : Option Nat

def Waiting.id (w : Waiting) : Int := w.report.orderId

def Waiting.rejects (w : Waiting) : Bool :=
  match w.report with
  | .reject .. => true
  | .exec .. => false

/-- Where a report went. -/
structure Delivery where
  report : Report
  owner : Option Nat
  ownerOpen : Bool
  recipient : Option Nat

/-- A command with the session it comes from. -/
structure Sent where
  session : Nat
  command : Command
  deriving DecidableEq

def Sent.id (e : Sent) : Int := e.command.routedId.toInt

def Sent.isNew (e : Sent) : Bool := decide (e.command.kind = CommandKind.new.toByte)

structure RoutedShard where
  routes : SortedMap Int RouteEntry
  /-- Commands that are routed but not sequenced, at most one for each session. -/
  held : List Sent
  ring : List Sent
  thread : MatchingThread
  waiting : List Waiting
  closed : List Nat
  /-- Who put the orders at rest there. -/
  owner : SortedMap Int Nat
  deliveries : List Delivery

/-- The reports of an event of a command of session `s`, with their owners. -/
def ownedReports (s : Nat) (owner : SortedMap Int Nat) (ev : OutboundEvent) : List Waiting :=
  match ev with
  | .trade t seq =>
    [⟨.exec t.aggressorId .fill t.quantity 0 t.price t.id seq, some s⟩,
      ⟨.exec t.passiveId .fill t.quantity 0 t.price t.id seq, owner.find t.passiveId⟩]
  | .status id status seq => (routeOne (.status id status seq)).map (Waiting.mk · none)
  | .orderUpdate .. => []

/-- The owners are an annotation: these are the reports of `routeOne`. -/
theorem ownedReports_report (s : Nat) (owner : SortedMap Int Nat) (ev : OutboundEvent) :
    (ownedReports s owner ev).map Waiting.report = routeOne ev := by
  cases ev with
  | trade => rfl
  | status =>
    rw [ownedReports, List.map_map]
    exact List.map_id _
  | orderUpdate => rfl

/-- The id under which an event says an order now rests. -/
def OutboundEvent.restedId? : OutboundEvent → Option Int
  | .orderUpdate .rested _ u _ _ => some u.orderId
  | _ => none

def ownersAfter (owner : SortedMap Int Nat) (s : Nat) (events : List OutboundEvent) :
    SortedMap Int Nat :=
  (events.filterMap OutboundEvent.restedId?).foldl (fun owner id => owner.put id s) owner

inductive Move where
  /-- A request of session `s` that passed the decoder and the check of its number `n`. -/
  | request (s : Nat) (n : UInt64) (participant : Int64) (m : Message)
  | sequenced (s : Nat)
  | durabilityFailure (s : Nat)
  | dispatch
  | route
  | close (s : Nat)

instance (g : Gate) (m : Message) : Decidable (g.Admits m) := by
  cases m <;> unfold Gate.Admits <;> infer_instance

/-! ## The reports of one dispatch -/

section Dispatch

variable {s : Nat} {owner : SortedMap Int Nat} {e : Effect} {seq : Int}

theorem ownedReports_orderUpdate (action : UpdateAction) (side : Side) (u : OrderUpdate)
    (status : SubmitStatus) (n : Int) :
    ownedReports s owner (.orderUpdate action side u status n) = [] := rfl

theorem ownedReports_emit (id : Int) (side : Side) (r : OrderResult) (n : Int) :
    ownedReports s owner (emitOrderUpdate id side r n) = [] := by
  rw [emitOrderUpdate]
  split <;> rfl

theorem ownedReports_victims (n : Nat) (ts : List Trade) (vs : List StpVictim) :
    (publishStpVictims ((Sinks.empty n).pushAll ts vs) seq).flatMap (ownedReports s owner) = [] := by
  rw [publishStpVictims_pushAll, List.flatMap_map]
  exact List.flatMap_eq_nil_iff.2 fun _ _ => rfl

/-- The reports of the first trades. -/
def tradeReports (s : Nat) (owner : SortedMap Int Nat) (seq : Int) (ts : List Trade) :
    List Waiting :=
  (ts.take kTradeBufCapacity).flatMap fun t => ownedReports s owner (.trade t seq)

theorem ownedReports_trades (ts : List Trade) (vs : List StpVictim) :
    (publishTrades ((Sinks.empty kTradeBufCapacity).pushAll ts vs) seq).flatMap
      (ownedReports s owner) = tradeReports s owner seq ts := by
  rw [publishTrades_pushAll, List.flatMap_map]
  rfl

theorem ownedReports_new (cmd : Command) :
    (publish cmd (e.reply (Sinks.empty kTradeBufCapacity)) seq .new).flatMap
        (ownedReports s owner) =
      tradeReports s owner seq e.trades ++
        if e.result.status ≠ .ok then ownedReports s owner (.status cmd.id.toInt e.result.status seq)
        else [] := by
  simp only [publish, List.flatMap_append, Effect.reply, ownedReports_trades, ownedReports_victims,
    List.append_nil, List.flatMap_cons, ownedReports_emit, List.flatMap_nil]
  by_cases hok : e.result.status = .ok
  · simp [hok]
  · simp [hok]

theorem ownedReports_cancel (cmd : Command) :
    (publish cmd (e.reply (Sinks.empty kTradeBufCapacity)) seq .cancel).flatMap
        (ownedReports s owner) =
      ownedReports s owner (.status cmd.id.toInt e.result.status seq) := by
  simp only [publish, Effect.reply, List.flatMap_cons]
  by_cases hok : e.result.status = .ok
  · simp [hok, ownedReports_orderUpdate]
  · simp [hok]

theorem ownedReports_replace (cmd : Command) :
    (publish cmd (e.reply (Sinks.empty kTradeBufCapacity)) seq .replace).flatMap
        (ownedReports s owner) =
      tradeReports s owner seq e.trades ++
        ownedReports s owner (.status cmd.newId.toInt e.result.status seq) := by
  simp only [publish, List.flatMap_append, Effect.reply, ownedReports_trades, ownedReports_victims,
    List.append_nil, List.flatMap_cons, List.flatMap_nil]
  by_cases huntouched : rejectedBeforeDispatch e.result.status = true
  · simp [huntouched]
  · simp [huntouched, ownedReports_emit, ownedReports_orderUpdate]

theorem restedId_trades (out : Sinks) :
    (publishTrades out seq).filterMap OutboundEvent.restedId? = [] := by
  rw [publishTrades, List.filterMap_map]
  exact List.filterMap_eq_nil_iff.2 fun _ _ => rfl

theorem restedId_victims (out : Sinks) :
    (publishStpVictims out seq).filterMap OutboundEvent.restedId? = [] := by
  rw [publishStpVictims, List.filterMap_map]
  exact List.filterMap_eq_nil_iff.2 fun _ _ => rfl

theorem restedId_emit (id : Int) (side : Side) (r : OrderResult) :
    [emitOrderUpdate id side r seq].filterMap OutboundEvent.restedId? =
      if r.rested then [id] else [] := by
  rw [emitOrderUpdate]
  split <;> rfl

theorem restedId_new (cmd : Command) (r : Reply) :
    (publish cmd r seq .new).filterMap OutboundEvent.restedId? =
      if r.result.rested then [cmd.id.toInt] else [] := by
  simp only [publish, List.filterMap_append, restedId_trades, restedId_victims, restedId_emit]
  by_cases hok : r.result.status = .ok
  · simp [hok]
  · simp [hok, OutboundEvent.restedId?]

theorem restedId_cancel (cmd : Command) (r : Reply) :
    (publish cmd r seq .cancel).filterMap OutboundEvent.restedId? = [] := by
  simp only [publish]
  by_cases hok : r.result.status = .ok
  · simp [hok, OutboundEvent.restedId?]
  · simp [hok, OutboundEvent.restedId?]

theorem restedId_replace (cmd : Command) (r : Reply) :
    (publish cmd r seq .replace).filterMap OutboundEvent.restedId? =
      if rejectedBeforeDispatch r.result.status = false ∧ r.result.rested then [cmd.newId.toInt]
      else [] := by
  have hcancelled : ∀ side u, [OutboundEvent.orderUpdate .cancelled side u .ok seq].filterMap
    OutboundEvent.restedId? = [] := fun _ _ => rfl
  have hstatus : ∀ id status, [OutboundEvent.status id status seq].filterMap
    OutboundEvent.restedId? = [] := fun _ _ => rfl
  simp only [publish, List.filterMap_append, restedId_trades, restedId_victims, hstatus]
  by_cases huntouched : rejectedBeforeDispatch r.result.status = true
  · simp [huntouched]
  · simp [huntouched, restedId_emit, hcancelled]

/-- An order with this id is among these. -/
def Rests (xs : List RestingOrder) (i : Int) : Prop := ∃ x ∈ xs, x.id = i

/-- What a dispatch of session `s` about the order `i` can do: `before` and `after` are the orders
at rest, `ws` the reports. -/
structure Dispatched (s : Nat) (i : Int) (isNew : Bool) (owner owner' : SortedMap Int Nat)
    (before after : List RestingOrder) (ws : List Waiting) : Prop where
  reports : ∃ trades status, ws = trades ++ status ∧
    (∀ w ∈ trades, w.rejects = false ∧
      (w.id = i ∧ w.owner = some s ∧ (isNew = true ∨ Rests before i) ∨
        w.id ≠ i ∧ Rests before w.id ∧ w.owner = owner.find w.id)) ∧
    ∀ w ∈ status, w.owner = none ∧ w.id = i ∧ (w.rejects = true → ¬ Rests after i)
  rests : ∀ j, Rests after j → j ≠ i ∧ Rests before j ∨
    j = i ∧ owner'.find i = some s ∧ (isNew = true ∨ Rests before i)
  owners : ∀ j ≠ i, owner'.find j = owner.find j

variable {i : Int} {isNew : Bool} {before after : List RestingOrder}

theorem mem_tradeReports {ts : List Trade} {w : Waiting} (hw : w ∈ tradeReports s owner seq ts)
    (hts : ∀ t ∈ ts, t.aggressorId = i ∧ t.passiveId ≠ i ∧ Rests before t.passiveId)
    (hi : isNew = true ∨ Rests before i) : w.rejects = false ∧
      (w.id = i ∧ w.owner = some s ∧ (isNew = true ∨ Rests before i) ∨
        w.id ≠ i ∧ Rests before w.id ∧ w.owner = owner.find w.id) := by
  obtain ⟨t, ht, hw⟩ := List.mem_flatMap.1 hw
  obtain ⟨haggressor, hne, hpassive⟩ := hts t (List.mem_of_mem_take ht)
  rcases List.mem_cons.1 hw with rfl | hw
  · exact ⟨rfl, Or.inl ⟨haggressor, rfl, hi⟩⟩
  · rw [List.mem_singleton.1 hw]
    exact ⟨rfl, Or.inr ⟨hne, hpassive, rfl⟩⟩

theorem mem_statusReports {id : Int} {status : SubmitStatus} {w : Waiting}
    (hw : w ∈ ownedReports s owner (.status id status seq)) :
    w.owner = none ∧ w.id = id ∧ (w.rejects = true → status ≠ .ok) := by
  rw [ownedReports, routeOne] at hw
  split at hw
  · rw [List.mem_singleton.1 hw]
    exact ⟨rfl, rfl, fun h => absurd h Bool.false_ne_true⟩
  · next hstatus =>
    rw [List.mem_singleton.1 hw]
    exact ⟨rfl, rfl, fun _ => hstatus⟩

/-- The order of the command is matched and may come to rest; none with its id was there. -/
theorem QueueBook.Submits.dispatched {q q' : QueueBook} {o : NewOrder} {r : OrderResult}
    {ts : List Trade} {vs : List StpVictim} {status : List Waiting}
    (h : q.Submits o r ts vs q') (hid : o.id = i) (hfresh : ∀ z ∈ q.orders, z.id ≠ i)
    (hsub : q.orders ⊆ before) (hi : isNew = true ∨ Rests before i)
    (hstatus : ∀ w ∈ status, w.owner = none ∧ w.id = i ∧ (w.rejects = true → r.status ≠ .ok)) :
    Dispatched s i isNew owner (if r.rested then owner.put i s else owner) before q'.orders
      (tradeReports s owner seq ts ++ status) := by
  have hafter : ∀ y ∈ q'.orders, y.id ≠ i ∧ Rests before y.id ∨
      y.id = i ∧ r.rested = true ∧ r.status = .ok := by
    intro y hy
    rcases h.mem_orders hy with ⟨z, hz, heq⟩ | ⟨hrested, hok, hyid, -⟩
    · have hyz : y.id = z.id := by rw [heq]
      rw [hyz]
      exact Or.inl ⟨hfresh z hz, z, hsub hz, rfl⟩
    · exact Or.inr ⟨hyid.trans hid, hrested, hok⟩
  refine ⟨⟨_, status, rfl, fun w hw => mem_tradeReports hw (fun t ht => ?_) hi, fun w hw => ?_⟩,
    fun j => ?_, fun j hj => ?_⟩
  · obtain ⟨ha, -, x, hx, hpassive, -⟩ := h.trade_spec t ht
    rw [← hpassive]
    exact ⟨ha.trans hid, hfresh x hx, x, hsub hx, rfl⟩
  · obtain ⟨howner, hwid, hreject⟩ := hstatus w hw
    refine ⟨howner, hwid, fun hrej => ?_⟩
    rintro ⟨y, hy, hyi⟩
    rcases hafter y hy with ⟨hne, -⟩ | ⟨-, -, hok⟩
    · exact hne hyi
    · exact hreject hrej hok
  · rintro ⟨y, hy, rfl⟩
    rcases hafter y hy with hother | ⟨hyi, hrested, -⟩
    · exact Or.inl hother
    · refine Or.inr ⟨hyi, ?_, hi⟩
      rw [if_pos hrested, SortedMap.find_put, if_pos rfl]
  · split
    · rw [SortedMap.find_put, if_neg hj]
    · rfl

theorem inRange_of_admitted {g : Gate} {cfg : BookConfig} {price : Int64}
    (hrange : g.minPrice.toInt = cfg.minPrice ∧ g.maxPrice.toInt = cfg.maxPrice)
    (h : g.outOfRange price = false) : cfg.inRange price.toInt = true := by
  rw [Gate.outOfRange, decide_eq_false_iff_not, not_or, Int64.not_lt, Int64.not_lt,
    Int64.le_iff_toInt_le, Int64.le_iff_toInt_le, hrange.1, hrange.2] at h
  exact BookConfig.inRange_iff.2 h

theorem Dispatched.congr {owner' : SortedMap Int Nat} {after' : List RestingOrder}
    {ws : List Waiting} (h : Dispatched s i isNew owner owner' before after ws)
    (hafter : ∀ y, y ∈ after' ↔ y ∈ after) :
    Dispatched s i isNew owner owner' before after' ws := by
  have hrests : ∀ j, Rests after' j ↔ Rests after j := fun j =>
    exists_congr fun y => and_congr_left fun _ => hafter y
  refine ⟨?_, fun j hj => h.rests j ((hrests j).1 hj), h.owners⟩
  rw [hrests]
  exact h.reports

/-- A cancel takes the order away, or did not find it. -/
theorem QueueBook.Cancels.dispatched {q q' : QueueBook} {r : OrderResult} {status : List Waiting}
    (h : q.Cancels i r q') (hsub : q.orders ⊆ before)
    (hstatus : ∀ w ∈ status, w.owner = none ∧ w.id = i) :
    Dispatched s i false owner owner before q'.orders status := by
  have hgone : ¬ Rests q'.orders i := fun ⟨y, hy, hyi⟩ => h.ne_of_mem hy hyi
  refine ⟨⟨[], status, rfl, nofun, fun w hw => ?_⟩, ?_, fun _ _ => rfl⟩
  · exact ⟨(hstatus w hw).1, (hstatus w hw).2, fun _ => hgone⟩
  · rintro j ⟨y, hy, rfl⟩
    exact Or.inl ⟨h.ne_of_mem hy, y, hsub (h.origin hy), rfl⟩

/-- A replace that stops at its checks did not find its order: nothing else can be wrong with
it. -/
theorem QueueBook.checkReplace_dispatched {q : QueueBook} {fresh : NewOrder}
    {reason : SubmitStatus} {status : List Waiting} (h : q.checkReplace i fresh = some reason)
    (hid : fresh.id = i) (hquantity : 0 < fresh.quantity)
    (hprice : q.cfg.inRange fresh.price = true) (hsub : q.orders ⊆ before)
    (hstatus : ∀ w ∈ status, w.owner = none ∧ w.id = i) :
    Dispatched s i false owner owner before q.orders status := by
  have hgone : ¬ Rests q.orders i := by
    rintro ⟨x, hx, rfl⟩
    rw [checkReplace_eq_none_of_valid hx hid hquantity hprice] at h
    cases h
  refine ⟨⟨[], status, rfl, nofun, fun w hw => ?_⟩, ?_, fun _ _ => rfl⟩
  · exact ⟨(hstatus w hw).1, (hstatus w hw).2, fun _ => hgone⟩
  · rintro j ⟨y, hy, rfl⟩
    exact Or.inl ⟨fun hyi => hgone ⟨y, hy, hyi⟩, y, hsub hy, rfl⟩

theorem foldl_put_ite (owner : SortedMap Int Nat) (s : Nat) (i : Int) (c : Bool) :
    (if c then [i] else []).foldl (fun owner id => owner.put id s) owner =
      if c then owner.put i s else owner := by
  split <;> rfl

/-- What the step of a request on the queues publishes. -/
theorem QueueBook.Step.dispatched {q q' : QueueBook} {g : Gate} {m : Message} {r : Request}
    {p : Int64} {k : CommandKind} (hm : g.Admits m) (hr : m.request? = some r)
    (hrange : g.minPrice.toInt = q.cfg.minPrice ∧ g.maxPrice.toInt = q.cfg.maxPrice)
    (hk : CommandKind.ofByte (r.command p).kind = some k)
    (h : q.Step ((r.command p).call k) e q') (hsub : q.orders ⊆ before)
    (hfresh : Sent.isNew ⟨s, r.command p⟩ = true → ∀ z ∈ q.orders, z.id ≠ r.orderId.toInt) :
    Dispatched s r.orderId.toInt (Sent.isNew ⟨s, r.command p⟩) owner
      (ownersAfter owner s
        (publish (r.command p) (e.reply (Sinks.empty kTradeBufCapacity)) seq k))
      before q'.orders
      ((publish (r.command p) (e.reply (Sinks.empty kTradeBufCapacity)) seq k).flatMap
        (ownedReports s owner)) := by
  cases m with
  | newOrder m =>
    cases hr
    cases hk
    cases h with
    | submit h =>
      rw [ownedReports_new, ownersAfter, restedId_new, foldl_put_ite]
      refine h.dispatched rfl (hfresh rfl) hsub (Or.inl rfl) fun w hw => ?_
      split at hw
      · exact mem_statusReports hw
      · cases hw
  | cancel m =>
    cases hr
    cases hk
    cases h with
    | cancel h =>
      rw [ownedReports_cancel, ownersAfter, restedId_cancel]
      exact h.dispatched hsub fun w hw =>
        ⟨(mem_statusReports hw).1, (mem_statusReports hw).2.1⟩
  | cancelReplace m =>
    cases hr
    cases hk
    obtain ⟨-, hquantity, hprice⟩ := hm
    have hqty : 0 < m.newQuantity.toInt := Int64.lt_iff_toInt_lt.1 hquantity
    have hin := inRange_of_admitted hrange hprice
    cases h with
    | replaceRejected hcheck =>
      have htrades : tradeReports s owner seq [] = [] := rfl
      rw [ownedReports_replace, ownersAfter, restedId_replace, if_neg (fun h => nomatch h.2), htrades,
        List.nil_append]
      refine checkReplace_dispatched hcheck rfl hqty hin hsub fun w hw => ?_
      exact ⟨(mem_statusReports hw).1, (mem_statusReports hw).2.1⟩
    | replaced hcheck hc hs =>
      obtain ⟨⟨x, hx, hxi⟩, -⟩ := checkReplace_eq_none hcheck
      have huntouched := (replaced_status hcheck hc hs).2
      simp only [ownedReports_replace, ownersAfter, restedId_replace, Effect.reply_result,
        huntouched, true_and]
      rw [foldl_put_ite]
      exact hs.dispatched rfl (fun z hz => hc.ne_of_mem hz) (fun z hz => hsub (hc.origin hz))
        (Or.inr ⟨x, hsub hx, hxi⟩) fun w hw => mem_statusReports hw
  | _ => cases hr

/-- **The dispatch of a request.** -/
theorem dispatch_dispatched (s : Nat) (owner : SortedMap Int Nat) {t : MatchingThread} (ht : t.book.Reachable) {g : Gate}
    (hrange : g.minPrice.toInt = t.book.cfg.minPrice ∧ g.maxPrice.toInt = t.book.cfg.maxPrice)
    {m : Message} {r : Request} (p : Int64) (hm : g.Admits m) (hr : m.request? = some r)
    (hfresh : Sent.isNew ⟨s, r.command p⟩ = true → ¬ Rests t.book.resting r.orderId.toInt) :
    ∃ events t', t.dispatch (r.command p) = some (events, t') ∧ t'.book.Reachable ∧
      t'.book.cfg = t.book.cfg ∧
      Dispatched s r.orderId.toInt (Sent.isNew ⟨s, r.command p⟩) owner (ownersAfter owner s events)
        t.book.resting t'.book.resting (events.flatMap (ownedReports s owner)) := by
  obtain ⟨ps, hrepr, hw⟩ := ht.repr
  obtain ⟨b', hap, hreach⟩ := ht.apply (r.command p).kind (r.command p)
  obtain ⟨k, hk⟩ : ∃ k, CommandKind.ofByte (r.command p).kind = some k := by
    cases m with
    | newOrder | cancel | cancelReplace =>
      cases hr
      exact ⟨_, rfl⟩
    | _ => cases hr
  obtain ⟨e, b, ps', hcall, hrepr', hs⟩ := OrderBook.call_spec ((r.command p).call k) hrepr hw
  have hb : b = b' := by
    have hap' := hap ⟨.empty 0, none⟩
    rw [OrderBook.apply, hk] at hap'
    simp only [hcall, Option.map_some, Option.some.injEq] at hap'
    exact hap'
  refine ⟨_, _, t.dispatch_some hk (hcall _), hb ▸ hreach, hs.cfg_eq, ?_⟩
  refine (hs.dispatched hm hr hrange hk (fun y hy => hrepr.mem_resting.2 hy) ?_).congr
    fun y => hrepr'.mem_resting
  exact fun hnew z hz hzi => hfresh hnew ⟨z, hrepr.mem_resting.2 hz, hzi⟩

end Dispatch

namespace RoutedShard

def start (t : MatchingThread) : RoutedShard := ⟨.empty, [], [], t, [], [], .empty, []⟩

def isOpen (st : RoutedShard) (s : Nat) : Bool := decide (s ∉ st.closed)

/-- The session that a report finds in the table. -/
def recipient (st : RoutedShard) (r : Report) : Option Nat :=
  ((st.routes.find r.orderId).map RouteEntry.session).filter st.isOpen

/-- One step, if it can be taken. -/
def move (g : Gate) (st : RoutedShard) : Move → Option RoutedShard
  | .request s n p m =>
    match m.request? with
    | none => none
    | some r =>
      let e : Sent := ⟨s, r.command p⟩
      if g.Admits m ∧ st.isOpen s = true ∧ ∀ e ∈ st.held, e.session ≠ s then
        some { st with routes := st.routes.put e.id ⟨s, n⟩, held := st.held ++ [e] }
      else none
  | .sequenced s =>
    (st.held.find? (·.session = s)).map fun e =>
      { st with held := st.held.filter (·.session ≠ s), ring := st.ring ++ [e] }
  | .durabilityFailure s =>
    (st.held.find? (·.session = s)).map fun e =>
      { st with
          held := st.held.filter (·.session ≠ s), routes := st.routes.erase e.id,
          closed := s :: st.closed }
  | .dispatch =>
    match st.ring with
    | [] => none
    | e :: ring =>
      (st.thread.dispatch e.command).map fun step =>
        { st with
            ring := ring, thread := step.2,
            waiting := st.waiting ++ step.1.flatMap (ownedReports e.session st.owner),
            owner := ownersAfter st.owner e.session step.1 }
  | .route =>
    match st.waiting with
    | [] => none
    | w :: waiting =>
      some { st with
        waiting := waiting,
        routes := if w.rejects then st.routes.erase w.id else st.routes,
        deliveries := st.deliveries ++
          [⟨w.report, w.owner, w.owner.any st.isOpen, st.recipient w.report⟩] }
  | .close s =>
    some { st with held := st.held.filter (·.session ≠ s), closed := s :: st.closed }

def moves (g : Gate) (st : RoutedShard) : List Move → Option RoutedShard
  | [] => some st
  | mv :: mvs => (st.move g mv).bind (·.moves g mvs)

/-! ## Ids in use -/

/-- The commands on the way that are about the order `i`, first things first. -/
def commandsOn (st : RoutedShard) (i : Int) : List Sent :=
  (st.ring ++ st.held).filter (·.id = i)

def rests (st : RoutedShard) (i : Int) : Bool := st.thread.book.resting.any (·.id = i)

/-- The sessions with a stake in the order `i`: one that has put it there, one with a command about
it on the way, one that waits for the report of a trade on it. -/
def stakes (st : RoutedShard) (i : Int) : List Nat :=
  (st.commandsOn i).map Sent.session ++ (if st.rests i then (st.owner.find i).toList else []) ++
    (st.waiting.filter (·.id = i)).filterMap Waiting.owner

/-- The order `i` is of no concern to anybody. -/
def quiet (st : RoutedShard) (i : Int) : Prop :=
  st.commandsOn i = [] ∧ st.rests i = false ∧ ∀ w ∈ st.waiting, w.id ≠ i

/-- A new order uses an id that is not in use, any other request one that nobody else has a stake
in. -/
def careful (st : RoutedShard) : Move → Prop
  | .request _ _ _ (.newOrder m) => st.quiet m.orderId.toInt
  | .request s _ _ (.cancel m) => ∀ s' ∈ st.stakes m.orderId.toInt, s' = s
  | .request s _ _ (.cancelReplace m) => ∀ s' ∈ st.stakes m.orderId.toInt, s' = s
  | _ => True

/-- Every request of the run is careful. -/
def Careful (g : Gate) (st : RoutedShard) : List Move → Prop
  | [] => True
  | mv :: mvs => st.careful mv ∧
    match st.move g mv with
    | none => True
    | some st' => st'.Careful g mvs

instance (st : RoutedShard) (i : Int) : Decidable (st.quiet i) := by
  unfold quiet
  infer_instance

instance (st : RoutedShard) (mv : Move) : Decidable (st.careful mv) := by
  cases mv with
  | request _ _ _ m => cases m <;> unfold careful <;> infer_instance
  | _ => exact .isTrue trivial

instance decidableCareful (g : Gate) (st : RoutedShard) (mvs : List Move) :
    Decidable (st.Careful g mvs) := by
  induction mvs generalizing st with
  | nil => exact .isTrue trivial
  | cons mv mvs ih =>
    unfold Careful
    cases st.move g mv with
    | none => infer_instance
    | some st' => exact @instDecidableAnd _ _ _ (ih st')

end RoutedShard

end Velox
