import Velox.Gateway.Delivery
import Velox.Gateway.Handlers
import Velox.Runtime.Pipeline

/-!
# Acknowledged before executed

The whole gateway: the io thread with the handlers of all sessions, and for each shard its ring, its
matching thread and its router, in any interleaving. A handler of a session runs to its end before
the next one starts, but while it runs the other threads go on: what it has submitted may be
dispatched and routed at once. The router does not queue frames itself. It posts a task, which the
io thread runs between two handlers.

So the frames for a session hold the acknowledgement of every order before anything that came of it
(`GatewayServer.acks_come_first`). A handler that has an order sequenced queues the acknowledgement
before it ends, unless the session is closed, and then nothing is queued any more.
-/

namespace Velox

open QueueBook MatchingThread

/-! ## Whose orders a dispatch is about -/

/-- The order `j` is brought by the command, or rests among these. -/
def Known (cmd : Command) (xs : List RestingOrder) (j : Int) : Prop :=
  cmd.isNew = true ∧ j = cmd.id.toInt ∨ Rests xs j

theorem QueueBook.Submits.known {q q₁ q' : QueueBook} {cmd : Command} {o : NewOrder} {r : OrderResult}
    {ts : List Trade} {vs : List StpVictim} (h : q₁.Submits o r ts vs q')
    (ho : Known cmd q.orders o.id) (hsub : q₁.orders ⊆ q.orders) :
    (∀ t ∈ ts, Known cmd q.orders t.aggressorId ∧ Known cmd q.orders t.passiveId) ∧
      ∀ y ∈ q'.orders, Known cmd q.orders y.id := by
  refine ⟨fun t ht => ?_, fun y hy => ?_⟩
  · obtain ⟨ha, -, x, hx, hpassive, -⟩ := h.trade_spec t ht
    exact ⟨ha ▸ ho, Or.inr ⟨x, hsub hx, hpassive⟩⟩
  · rcases h.mem_orders hy with ⟨z, hz, heq⟩ | ⟨-, -, hyid, -⟩
    · rw [heq]
      exact Or.inr ⟨z, hsub hz, rfl⟩
    · exact hyid ▸ ho

theorem QueueBook.Step.known {q q' : QueueBook} {cmd : Command} {k : CommandKind} {e : Effect}
    (h : q.Step (cmd.call k) e q') (hk : CommandKind.ofByte cmd.kind = some k)
    (hid : cmd.KeepsId) :
    (∀ t ∈ e.trades, Known cmd q.orders t.aggressorId ∧ Known cmd q.orders t.passiveId) ∧
      ∀ y ∈ q'.orders, Known cmd q.orders y.id := by
  have hkind := CommandKind.toByte_of_ofByte hk
  cases k with
  | new =>
    cases h with
    | submit h => exact h.known (Or.inl ⟨decide_eq_true hkind, rfl⟩) (List.Subset.refl _)
  | cancel =>
    cases h with
    | cancel h => exact ⟨List.forall_mem_nil _, fun y hy => Or.inr ⟨y, h.origin hy, rfl⟩⟩
  | replace =>
    cases h with
    | replaceRejected => exact ⟨List.forall_mem_nil _, fun y hy => Or.inr ⟨y, hy, rfl⟩⟩
    | replaced hcheck hc hs =>
      obtain ⟨⟨x, hx, hxi⟩, -⟩ := checkReplace_eq_none hcheck
      refine hs.known (Or.inr ⟨x, hx, hxi.trans ?_⟩) fun y hy => hc.origin hy
      exact congrArg Int64.toInt (hid hkind).symm

/-- The status of a command is told under the id it is routed by. -/
theorem publish_status {cmd : Command} {k : CommandKind} (hk : CommandKind.ofByte cmd.kind = some k)
    {r : Reply} {seq n id : Int} {status : SubmitStatus}
    (h : .status id status n ∈ publish cmd r seq k) : id = cmd.routedId.toInt := by
  have hkind := CommandKind.toByte_of_ofByte hk
  have htrades : ∀ out, .status id status n ∉ publishTrades out seq := fun out h => by
    obtain ⟨_, -, heq⟩ := List.mem_map.1 h
    cases heq
  have hvictims : ∀ out, .status id status n ∉ publishStpVictims out seq := fun out h => by
    obtain ⟨_, -, heq⟩ := List.mem_map.1 h
    cases heq
  have hemit : ∀ id' side r, .status id status n ≠ emitOrderUpdate id' side r seq := by
    intro id' side r
    rw [emitOrderUpdate]
    split <;> (intro heq; cases heq)
  cases k with
  | new =>
    have hrouted : cmd.routedId = cmd.id := if_neg (by rw [hkind]; decide)
    by_cases hok : r.result.status = .ok
    · simp [publish, htrades, hvictims, hemit, hok] at h
    · simp [publish, htrades, hvictims, hemit, hok] at h
      rw [hrouted, h.1]
  | cancel =>
    have hrouted : cmd.routedId = cmd.id := if_neg (by rw [hkind]; decide)
    by_cases hok : r.result.status = .ok
    · simp [publish, hok] at h
      rw [hrouted, h.1]
    · simp [publish, hok] at h
      rw [hrouted, h.1]
  | replace =>
    have hrouted : cmd.routedId = cmd.newId := if_pos hkind
    by_cases huntouched : rejectedBeforeDispatch r.result.status = true
    · simp [publish, htrades, hvictims, huntouched] at h
      rw [hrouted, h.1]
    · simp [publish, htrades, hvictims, hemit, huntouched] at h
      rw [hrouted, h.1]

/-- **What a dispatch is about**: orders of its own command, or orders at rest. -/
theorem dispatch_known {t t' : MatchingThread} {cmd : Command} {events : List OutboundEvent}
    (hb : t.book.Represented) (hid : cmd.KeepsId) (h : t.dispatch cmd = some (events, t')) :
    t'.book.Represented ∧ (∀ j, Rests t'.book.resting j → Known cmd t.book.resting j) ∧
      (∀ tr n, .trade tr n ∈ events →
        Known cmd t.book.resting tr.aggressorId ∧ Known cmd t.book.resting tr.passiveId) ∧
      ∀ id status n, .status id status n ∈ events → id = cmd.routedId.toInt := by
  obtain ⟨ps, hr, hw⟩ := hb
  rcases dispatch_spec hr hw cmd with ⟨-, hd⟩ | ⟨k, e, b, ps', hk, -, hd, hr', hs⟩
  · rw [hd] at h
    cases h
    exact ⟨⟨ps, hr, hw⟩, fun j hj => Or.inr hj, nofun, nofun⟩
  · rw [hd] at h
    cases h
    have hknown : ∀ j, Known cmd (t.book.view ps).orders j → Known cmd t.book.resting j := fun j =>
      Or.imp_right fun ⟨x, hx, hxj⟩ => ⟨x, hr.mem_resting.2 hx, hxj⟩
    obtain ⟨htrades, hrests⟩ := hs.known hk hid
    refine ⟨⟨ps', hr', hs.wf hw⟩, ?_, fun tr n htr => ?_, fun id status n => publish_status hk⟩
    · rintro j ⟨y, hy, rfl⟩
      exact hknown _ (hrests y (hr'.mem_resting.1 hy))
    · have hmem := mem_trades_of_publish ?_ htr
      · exact ⟨hknown _ (htrades tr hmem).1, hknown _ (htrades tr hmem).2⟩
      · rintro rfl
        cases hs
        rfl

/-! ## The gateway -/

def Report.globalSeq : Report → Int
  | .exec _ _ _ _ _ _ seq => seq
  | .reject _ _ seq => seq

/-- A reject takes the route away. -/
def Report.routesAfter (routes : SortedMap Int RouteEntry) : Report → SortedMap Int RouteEntry
  | .exec .. => routes
  | .reject id _ _ => routes.erase id

/-- One shard. -/
structure Lane where
  routes : SortedMap Int RouteEntry
  /-- The counter of the sequencer. -/
  seq : Int
  ring : List Command
  thread : MatchingThread
  /-- The reports that the router has still to make. -/
  waiting : List Report
  /-- What the router has posted to the io thread: a frame for a session. -/
  posted : List (Nat × Report)

/-- What makes the io thread call a handler of a session. -/
inductive Stimulus where
  | read (data : List UInt8) (answers : ClientSession.Answers)
  | retry (answer : TrySubmitResult)
  | authTimeout
  | heartbeatTimeout
  | ioError

def Stimulus.handle (g : GatewayConfig) (h : ClientSession.Handled) :
    Stimulus → ClientSession.Handled
  | .read data answers => ClientSession.onRead g data answers h
  | .retry answer => ClientSession.retryPending answer h
  | .authTimeout => ClientSession.authTimeout h
  | .heartbeatTimeout => ClientSession.heartbeatTimeout h
  | .ioError => ClientSession.closeSession h

/-- The history of session `s`, one entry longer. -/
def record (history : Nat → List Entry) (s : Nat) (e : Entry) : Nat → List Entry :=
  Function.update history s (history s ++ [e])

structure GatewayServer where
  lanes : Nat → Lane
  sessions : Nat → ClientSession
  /-- The handler that runs: its session, and what it has still to do. -/
  running : Option (Nat × List Action)
  history : Nat → List Entry

namespace GatewayServer

/-- Nobody is connected. Each shard has recovered its thread, and its sequencer goes on from the
same number. -/
def start (g : GatewayConfig) (threads : Nat → MatchingThread) : GatewayServer where
  lanes k := ⟨.empty, (threads k).dispatchSeq, [], threads k, [], []⟩
  sessions _ := .create g
  running := none
  history _ := []

def setLane (st : GatewayServer) (k : Nat) (l : Lane) : GatewayServer :=
  { st with lanes := Function.update st.lanes k l }

def log (st : GatewayServer) (s : Nat) (e : Entry) : GatewayServer :=
  { st with history := record st.history s e }

/-- An action of session `s`. The sequencer gives out its next number; any other answer of it is
possible at any time. -/
def perform (st : GatewayServer) (s : Nat) : Action → Option GatewayServer
  | .registerRoute k id n =>
    some (st.setLane k { st.lanes k with routes := (st.lanes k).routes.put id.toInt ⟨s, n⟩ })
  | .eraseRoute k id =>
    some (st.setLane k { st.lanes k with routes := (st.lanes k).routes.erase id.toInt })
  | .trySubmit k _ cmd (.sequenced seq) =>
    if seq = (st.lanes k).seq + 1 then
      some (st.setLane k { st.lanes k with seq := seq, ring := (st.lanes k).ring ++ [cmd] })
    else none
  | _ => some st

inductive Turn where
  /-- The io thread calls a handler of session `s`. -/
  | handle (s : Nat) (stimulus : Stimulus)
  /-- The handler goes on, or ends. -/
  | go
  | dispatch (k : Nat)
  | route (k : Nat)
  /-- The io thread runs a task that the router of shard `k` has posted. -/
  | deliver (k : Nat)

def step (g : GatewayConfig) (st : GatewayServer) : Turn → Option GatewayServer
  | .handle s stimulus =>
    if st.running.isNone then
      let h := stimulus.handle g (st.sessions s, [])
      some { st with
        sessions := Function.update st.sessions s h.1
        running := some (s, h.2) }
    else none
  | .go =>
    match st.running with
    | none => none
    | some (_, []) => some { st with running := none }
    | some (s, a :: as) =>
      (st.perform s a).map fun st => { st.log s (.action a) with running := some (s, as) }
  | .dispatch k =>
    match (st.lanes k).ring with
    | [] => none
    | cmd :: rest =>
      ((st.lanes k).thread.dispatch cmd).map fun d =>
        st.setLane k { st.lanes k with
          ring := rest
          thread := d.2
          waiting := (st.lanes k).waiting ++ d.1.flatMap routeOne }
  | .route k =>
    match (st.lanes k).waiting with
    | [] => none
    | r :: rest =>
      some (st.setLane k { st.lanes k with
        waiting := rest
        routes := r.routesAfter (st.lanes k).routes
        posted := (st.lanes k).posted ++
          ((st.lanes k).routes.find r.orderId).toList.map fun entry => (entry.session, r) })
  | .deliver k =>
    match (st.lanes k).posted with
    | [] => none
    | (s, r) :: rest =>
      if st.running.isNone then
        let st' := st.setLane k { st.lanes k with posted := rest }
        some (if (st.sessions s).closed then st' else st'.log s (.report k r))
      else none

def run (g : GatewayConfig) (st : GatewayServer) : List Turn → Option GatewayServer
  | [] => some st
  | t :: ts => do
    let st ← st.step g t
    st.run g ts

end GatewayServer

/-! ## The invariant -/

/-- The command was sequenced on shard `k` under the number `seq`, for some session. -/
def Submitted (history : Nat → List Entry) (k : Nat) (cmd : Command) (seq : Int) : Prop :=
  ∃ s n, .sequenced k n cmd seq ∈ history s

/-- The order `j` was there at the start, or a new order with this id was sequenced with a number up
to `n`. -/
def Placed (start : MatchingThread) (history : Nat → List Entry) (k : Nat) (j n : Int) : Prop :=
  Rests start.book.resting j ∨
    ∃ cmd seq, cmd.isNew = true ∧ cmd.id.toInt = j ∧ seq ≤ n ∧ Submitted history k cmd seq

/-- What a report comes from. -/
def Sourced (start : MatchingThread) (history : Nat → List Entry) (k : Nat) : Report → Prop
  | .exec id type _ _ _ _ seq => type = .fill → Placed start history k id seq
  | .reject id _ seq => ∃ cmd, cmd.routedId.toInt = id ∧ Submitted history k cmd seq

structure LaneInv (start : MatchingThread) (history : Nat → List Entry) (k : Nat) (l : Lane) :
    Prop where
  count : l.seq = l.thread.dispatchSeq + l.ring.length
  book : l.thread.book.Represented
  ring : ∀ (i : Nat) cmd, l.ring[i]? = some cmd →
    cmd.KeepsId ∧ Submitted history k cmd (l.thread.dispatchSeq + (i + 1))
  rests : ∀ j, Rests l.thread.book.resting j → Placed start history k j l.thread.dispatchSeq
  reports : ∀ r, (r ∈ l.waiting ∨ (∃ s, (s, r) ∈ l.posted) ∨ ∃ s, .report k r ∈ history s) →
    r.globalSeq ≤ l.thread.dispatchSeq ∧ Sourced start history k r
  numbers : ∀ cmd seq, Submitted history k cmd seq → seq ≤ l.seq

/-- Whatever came of an order is behind its acknowledgement. -/
def Ordered (es : List Entry) : Prop :=
  ∀ before k r after, es = before ++ .report k r :: after →
    ∀ n cmd seq, .sequenced k n cmd seq ∈ es → cmd.isNew = true → seq ≤ r.globalSeq →
      ∃ earlier later, before = earlier ++ .sequenced k n cmd seq :: later ∧ .newAck cmd seq ∈ later

structure SessionInv (c : ClientSession) (done todo : List Entry) : Prop where
  kept : c.Kept
  acked : c.closed = false → Acked (done ++ todo)
  ordered : Ordered done

section Record

variable {history : Nat → List Entry} {start : MatchingThread} {s k : Nat} {e : Entry}

theorem mem_record {e' : Entry} {s' : Nat} :
    e' ∈ record history s e s' ↔ e' ∈ history s' ∨ s' = s ∧ e' = e := by
  by_cases hs : s' = s
  · subst hs
    simp [record]
  · simp [record, hs]

theorem Submitted.record {cmd : Command} {seq : Int} (h : Submitted history k cmd seq) (s : Nat)
    (e : Entry) : Submitted (record history s e) k cmd seq := by
  obtain ⟨s', n, hmem⟩ := h
  exact ⟨s', n, mem_record.2 (Or.inl hmem)⟩

theorem Placed.record {j n : Int} (h : Placed start history k j n) (s : Nat) (e : Entry) :
    Placed start (record history s e) k j n := by
  refine h.imp_right ?_
  rintro ⟨cmd, seq, hnew, hid, hle, hsub⟩
  exact ⟨cmd, seq, hnew, hid, hle, hsub.record s e⟩

theorem Placed.mono {j n n' : Int} (h : Placed start history k j n) (hn : n ≤ n') :
    Placed start history k j n' := by
  refine h.imp_right ?_
  rintro ⟨cmd, seq, hnew, hid, hle, hsub⟩
  exact ⟨cmd, seq, hnew, hid, hle.trans hn, hsub⟩

theorem Sourced.record {r : Report} (h : Sourced start history k r) (s : Nat) (e : Entry) :
    Sourced start (record history s e) k r := by
  cases r with
  | exec => exact fun hfill => (h hfill).record s e
  | reject =>
    obtain ⟨cmd, hid, hsub⟩ := h
    exact ⟨cmd, hid, hsub.record s e⟩

namespace LaneInv

variable {l : Lane}

theorem record (h : LaneInv start history k l) (hseq : ∀ n cmd seq, e ≠ .sequenced k n cmd seq)
    (hreport : ∀ r, e = .report k r → ∃ s, (s, r) ∈ l.posted) :
    LaneInv start (record history s e) k l where
  count := h.count
  book := h.book
  ring i cmd hcmd := ⟨(h.ring i cmd hcmd).1, (h.ring i cmd hcmd).2.record s e⟩
  rests j hj := (h.rests j hj).record s e
  reports := by
    intro r hr
    have hold : r.globalSeq ≤ l.thread.dispatchSeq ∧ Sourced start history k r := by
      rcases hr with hwaiting | hposted | ⟨s', hmem⟩
      · exact h.reports r (Or.inl hwaiting)
      · exact h.reports r (Or.inr (Or.inl hposted))
      · rcases mem_record.1 hmem with hmem | ⟨-, heq⟩
        · exact h.reports r (Or.inr (Or.inr ⟨s', hmem⟩))
        · exact h.reports r (Or.inr (Or.inl (hreport r heq.symm)))
    exact ⟨hold.1, hold.2.record s e⟩
  numbers := by
    rintro cmd seq ⟨s', n, hmem⟩
    rcases mem_record.1 hmem with hmem | ⟨-, heq⟩
    · exact h.numbers cmd seq ⟨s', n, hmem⟩
    · exact absurd heq.symm (hseq n cmd seq)

theorem routes (h : LaneInv start history k l) (routes : SortedMap Int RouteEntry) :
    LaneInv start history k { l with routes := routes } :=
  ⟨h.count, h.book, h.ring, h.rests, h.reports, h.numbers⟩

/-- The next command. -/
theorem sequenced (h : LaneInv start history k l) {cmd : Command} (hid : cmd.KeepsId) (s : Nat)
    (n : UInt64) {seq : Int} (hseq : seq = l.seq + 1) :
    LaneInv start (Velox.record history s (.sequenced k n cmd seq)) k
      { l with seq := seq, ring := l.ring ++ [cmd] } where
  count := by
    have := h.count
    simp only [List.length_append, List.length_singleton]
    omega
  book := h.book
  ring := by
    refine forall_getElem?_concat.2 ⟨fun i cmd hcmd =>
      ⟨(h.ring i cmd hcmd).1, (h.ring i cmd hcmd).2.record s _⟩, hid, s, n, ?_⟩
    rw [mem_record]
    refine Or.inr ⟨rfl, congrArg _ ?_⟩
    rw [hseq, h.count, Int.add_assoc]
  rests j hj := (h.rests j hj).record s _
  reports := by
    intro r hr
    have hold : r.globalSeq ≤ l.thread.dispatchSeq ∧ Sourced start history k r := by
      refine h.reports r (hr.imp_right (Or.imp_right ?_))
      rintro ⟨s', hmem⟩
      rcases mem_record.1 hmem with hmem | ⟨-, heq⟩
      · exact ⟨s', hmem⟩
      · cases heq
    exact ⟨hold.1, hold.2.record s _⟩
  numbers := by
    rintro cmd' seq' ⟨s', n', hmem⟩
    rcases mem_record.1 hmem with hmem | ⟨-, heq⟩
    · have := h.numbers cmd' seq' ⟨s', n', hmem⟩
      simp only
      omega
    · cases heq
      exact le_refl _

/-- What the router makes of an event of the command with the number `n`. -/
theorem sourced_routeOne {cmd : Command} {xs : List RestingOrder} {n : Int} {ev : OutboundEvent}
    (hev : ev.globalSeq = n) (hplaced : ∀ j, Known cmd xs j → Placed start history k j n)
    (htrade : ∀ t m, ev = .trade t m → Known cmd xs t.aggressorId ∧ Known cmd xs t.passiveId)
    (hstatus : ∀ id status m, ev = .status id status m → id = cmd.routedId.toInt)
    (hsub : Submitted history k cmd n) {r : Report} (hr : r ∈ routeOne ev) :
    r.globalSeq ≤ n ∧ Sourced start history k r := by
  cases ev with
  | trade t m =>
    cases hev
    obtain ⟨haggressor, hpassive⟩ := htrade t m rfl
    rcases List.mem_cons.1 hr with rfl | hr
    · exact ⟨le_refl _, fun _ => hplaced _ haggressor⟩
    · rw [List.mem_singleton.1 hr]
      exact ⟨le_refl _, fun _ => hplaced _ hpassive⟩
  | status id status m =>
    cases hev
    rw [routeOne] at hr
    split at hr
    · rw [List.mem_singleton.1 hr]
      exact ⟨le_refl _, fun hid => absurd hid (by simp)⟩
    · rw [List.mem_singleton.1 hr]
      exact ⟨le_refl _, cmd, (hstatus id status m rfl).symm, hsub⟩
  | orderUpdate => cases hr

/-- The reports of a dispatch carry its number, and are about orders that were brought. -/
theorem dispatch (h : LaneInv start history k l) {cmd : Command} {rest : List Command}
    (hring : l.ring = cmd :: rest) {events : List OutboundEvent} {t : MatchingThread}
    (hd : l.thread.dispatch cmd = some (events, t)) :
    LaneInv start history k
      { l with ring := rest, thread := t, waiting := l.waiting ++ events.flatMap routeOne } := by
  obtain ⟨hcount, hevents⟩ := dispatch_globalSeq hd
  obtain ⟨hid, hsub⟩ := h.ring 0 cmd (by rw [hring]; rfl)
  obtain ⟨hbook, hrests, htrades, hstatus⟩ := dispatch_known h.book hid hd
  have hplaced : ∀ j, Known cmd l.thread.book.resting j →
      Placed start history k j (l.thread.dispatchSeq + 1) := by
    rintro j (⟨hnew, rfl⟩ | hj)
    · exact Or.inr ⟨cmd, _, hnew, rfl, by simp, hsub⟩
    · exact (h.rests j hj).mono (by omega)
  refine ⟨?_, hbook, fun i cmd' hcmd' => ?_, fun j hj => ?_, fun r hr => ?_, h.numbers⟩
  · have := h.count
    rw [hring, List.length_cons] at this
    simp only [hcount]
    omega
  · have hnext := h.ring (i + 1) cmd' (by rw [hring]; exact hcmd')
    rw [hcount, Int.add_assoc, Int.add_comm 1]
    exact hnext
  · rw [hcount]
    exact hplaced j (hrests j hj)
  · rw [hcount]
    rcases hr with hr | hr
    · rcases List.mem_append.1 hr with hr | hr
      · have hold := h.reports r (Or.inl hr)
        exact ⟨by omega, hold.2⟩
      · obtain ⟨ev, hev, hr⟩ := List.mem_flatMap.1 hr
        exact sourced_routeOne (hevents ev hev) hplaced (fun tr n heq => htrades tr n (heq ▸ hev))
          (fun id status n heq => hstatus id status n (heq ▸ hev)) hsub hr
    · have hold := h.reports r (Or.inr hr)
      exact ⟨by omega, hold.2⟩

theorem route (h : LaneInv start history k l) {r : Report} {rest : List Report}
    (hwaiting : l.waiting = r :: rest) (routes : SortedMap Int RouteEntry)
    (entry : Option RouteEntry) :
    LaneInv start history k
      { l with
        waiting := rest
        routes := routes
        posted := l.posted ++ entry.toList.map fun entry => (entry.session, r) } := by
  refine ⟨h.count, h.book, h.ring, h.rests, fun r' hr' => h.reports r' ?_, h.numbers⟩
  rcases hr' with hr' | ⟨s', hr'⟩ | hr'
  · rw [hwaiting]
    exact Or.inl (List.mem_cons_of_mem _ hr')
  · rcases List.mem_append.1 hr' with hr' | hr'
    · exact Or.inr (Or.inl ⟨s', hr'⟩)
    · obtain ⟨s'', -, heq⟩ := List.mem_map.1 hr'
      cases heq
      rw [hwaiting]
      exact Or.inl List.mem_cons_self
  · exact Or.inr (Or.inr hr')

theorem unpost (h : LaneInv start history k l) {rest : List (Nat × Report)}
    (hrest : rest ⊆ l.posted) : LaneInv start history k { l with posted := rest } :=
  ⟨h.count, h.book, h.ring, h.rests,
    fun r hr => h.reports r (hr.imp_right (Or.imp_left fun ⟨s, hmem⟩ => ⟨s, hrest hmem⟩)), h.numbers⟩

end LaneInv

/-- An element of a list with one more at its end is the last one, or was there before. -/
theorem concat_eq_append_cons {α : Type} {xs before after : List α} {x y : α}
    (h : xs ++ [x] = before ++ y :: after) :
    (xs = before ∧ x = y) ∨ ∃ after', xs = before ++ y :: after' := by
  rcases List.eq_nil_or_concat after with rfl | ⟨after', z, rfl⟩
  · obtain ⟨hxs, hx⟩ := List.append_inj' h rfl
    exact Or.inl ⟨hxs, List.singleton_inj.1 hx⟩
  · rw [List.concat_eq_append, ← List.cons_append, ← List.append_assoc] at h
    exact Or.inr ⟨after', (List.append_inj' h rfl).1⟩

namespace Ordered

variable {es : List Entry}

/-- A submission gets a number beyond those of all reports so far. -/
theorem snoc_action (h : Ordered es) (a : Action)
    (ha : ∀ k n cmd seq, .action a = Entry.sequenced k n cmd seq →
      ∀ r, .report k r ∈ es → r.globalSeq < seq) : Ordered (es ++ [.action a]) := by
  intro before k r after heq n cmd seq hmem hnew hle
  rcases concat_eq_append_cons heq with ⟨-, heq⟩ | ⟨after', rfl⟩
  · cases heq
  · refine h before k r after' rfl n cmd seq ?_ hnew hle
    rcases List.mem_append.1 hmem with hmem | hmem
    · exact hmem
    · have hlt := ha k n cmd seq (List.mem_singleton.1 hmem).symm r
        (List.mem_append_right _ List.mem_cons_self)
      omega

/-- A report comes when all is acknowledged. -/
theorem snoc_report (h : Ordered es) (hacked : Acked es) (k : Nat) (r : Report) :
    Ordered (es ++ [.report k r]) := by
  intro before k' r' after heq n cmd seq hmem hnew hle
  have hmem' : .sequenced k' n cmd seq ∈ es := by
    rcases List.mem_append.1 hmem with hmem | hmem
    · exact hmem
    · cases List.mem_singleton.1 hmem
  rcases concat_eq_append_cons heq with ⟨rfl, -⟩ | ⟨after', rfl⟩
  · obtain ⟨earlier, later, rfl⟩ := List.append_of_mem hmem'
    exact ⟨earlier, later, rfl, hacked earlier k' n cmd seq later rfl hnew⟩
  · exact h before k' r' after' rfl n cmd seq hmem' hnew hle

end Ordered

end Record

namespace GatewayServer

/-- What the handler that runs has still to do for session `s`. -/
def todo (st : GatewayServer) (s : Nat) : List Entry :=
  match st.running with
  | none => []
  | some (s', as) => if s' = s then as.map Entry.action else []

structure Inv (threads : Nat → MatchingThread) (st : GatewayServer) : Prop where
  lane : ∀ k, LaneInv (threads k) st.history k (st.lanes k)
  session : ∀ s, SessionInv (st.sessions s) (st.history s) (st.todo s)
  running : ∀ r ∈ st.running, ∀ a ∈ r.2, ClientSession.Action.KeepsId a

variable {g : GatewayConfig} {threads : Nat → MatchingThread} {st st' : GatewayServer}

theorem inv_start (hbooks : ∀ k, (threads k).book.Represented) : (start g threads).Inv threads where
  lane k := {
    count := (Int.add_zero _).symm
    book := hbooks k
    ring := nofun
    rests := fun j hj => Or.inl hj
    reports := by
      rintro r (hr | ⟨s, hr⟩ | ⟨s, hr⟩) <;> cases hr
    numbers := by
      rintro cmd seq ⟨s, n, hmem⟩
      cases hmem }
  session s := {
    kept := nofun
    acked := fun _ => acked_nil
    ordered := by
      intro before k r after heq
      cases before <;> cases heq }
  running := nofun

theorem Stimulus.acts (stimulus : Stimulus) {h : ClientSession.Handled} (hk : h.1.Kept) :
    ClientSession.Acts h (stimulus.handle g h) := by
  have hs := ClientSession.Acts.refl hk
  cases stimulus with
  | read data answers => exact hs.onRead data answers
  | retry answer => exact hs.retryPending answer
  | authTimeout => exact hs.authTimeout
  | heartbeatTimeout => exact hs.heartbeatTimeout
  | ioError => exact hs.closeSession

theorem todo_none (h : st.running = none) (s : Nat) : st.todo s = [] := by
  rw [todo, h]

theorem todo_some {s : Nat} {as : List Action} (h : st.running = some (s, as)) (s' : Nat) :
    st.todo s' = if s = s' then as.map Entry.action else [] := by
  rw [todo, h]

theorem Inv.ofIdle (hidle : st.running = none)
    (hlane : ∀ k, LaneInv (threads k) st.history k (st.lanes k))
    (hsession : ∀ s, SessionInv (st.sessions s) (st.history s) []) : st.Inv threads := by
  refine ⟨hlane, fun s => ?_, ?_⟩
  · rw [todo_none hidle]
    exact hsession s
  · rw [hidle]
    nofun

/-- Between two handlers all is acknowledged. -/
theorem Inv.acked (h : st.Inv threads) (hidle : st.running = none) {s : Nat}
    (hopen : (st.sessions s).closed = false) : Acked (st.history s) := by
  have hacked := (h.session s).acked hopen
  rwa [todo_none hidle, List.append_nil] at hacked

theorem Inv.handle (h : st.Inv threads) {s : Nat} {stimulus : Stimulus}
    (hs : st.step g (.handle s stimulus) = some st') : st'.Inv threads := by
  rw [step] at hs
  split at hs
  · next hidle =>
    have hnone := Option.isNone_iff_eq_none.1 hidle
    obtain ⟨⟨as, has, hids, hacked⟩, hclosed, hkept⟩ :=
      Stimulus.acts (g := g) stimulus (h := (st.sessions s, [])) (h.session s).kept
    rw [List.nil_append] at has
    cases hs
    refine ⟨h.lane, fun s' => ?_, ?_⟩
    · have hold := h.session s'
      rw [todo_some rfl, has]
      by_cases hs' : s' = s
      · subst hs'
        have hsame : Function.update st.sessions s' (stimulus.handle g (st.sessions s', [])).1 s' =
          (stimulus.handle g (st.sessions s', [])).1 := Function.update_self ..
        simp only [hsame, if_true]
        exact ⟨hkept, fun hopen => (h.acked hnone (hclosed hopen)).append (hacked hopen), hold.ordered⟩
      · have hsame : Function.update st.sessions s (stimulus.handle g (st.sessions s, [])).1 s' =
          st.sessions s' := Function.update_of_ne hs' ..
        simp only [hsame, if_neg (Ne.symm hs')]
        rwa [todo_none hnone] at hold
    · rintro r hr a ha
      cases hr
      exact hids a (has ▸ ha)
  · cases hs

/-- The lanes after an action, with the action on record. -/
theorem Inv.perform (h : st.Inv threads) {s : Nat} {a : Action} (hid : ClientSession.Action.KeepsId a)
    (hs : st.perform s a = some st') :
    st'.sessions = st.sessions ∧ st'.history = st.history ∧
      (∀ k, LaneInv (threads k) (record st.history s (.action a)) k (st'.lanes k)) ∧
      ∀ k n cmd seq, .action a = Entry.sequenced k n cmd seq → (st.lanes k).seq < seq := by
  have hother : ∀ k, (∀ n cmd seq, .action a ≠ Entry.sequenced k n cmd seq) →
      LaneInv (threads k) (record st.history s (.action a)) k (st.lanes k) := fun k hne =>
    (h.lane k).record hne nofun
  have hset : ∀ k₀ l, LaneInv (threads k₀) (record st.history s (.action a)) k₀ l →
      (∀ k ≠ k₀, ∀ n cmd seq, .action a ≠ Entry.sequenced k n cmd seq) →
      ∀ k, LaneInv (threads k) (record st.history s (.action a)) k ((st.setLane k₀ l).lanes k) :=
    fun k₀ l hl hne =>
      (Function.forall_update_iff st.lanes
        (fun k l => LaneInv (threads k) (record st.history s (.action a)) k l)).2
        ⟨hl, fun k hk => hother k (hne k hk)⟩
  cases a with
  | registerRoute k₀ id n =>
    cases hs
    exact ⟨rfl, rfl, hset k₀ _ ((hother k₀ nofun).routes _) nofun, nofun⟩
  | eraseRoute k₀ id =>
    cases hs
    exact ⟨rfl, rfl, hset k₀ _ ((hother k₀ nofun).routes _) nofun, nofun⟩
  | trySubmit k₀ n cmd answer =>
    cases answer with
    | sequenced seq =>
      rw [GatewayServer.perform] at hs
      split at hs
      · next hseq =>
        cases hs
        refine ⟨rfl, rfl, hset k₀ _ ((h.lane k₀).sequenced hid s n hseq) ?_, ?_⟩
        · intro k hk n' cmd' seq' heq
          cases heq
          exact hk rfl
        · intro k n' cmd' seq' heq
          cases heq
          omega
      · cases hs
    | ringFull | durabilityFailure =>
      cases hs
      exact ⟨rfl, rfl, fun k => hother k nofun, nofun⟩
  | sendFrame | closeSocket =>
    cases hs
    exact ⟨rfl, rfl, fun k => hother k nofun, nofun⟩

/-- The handler takes its next step. -/
theorem Inv.go (h : st.Inv threads) (hs : st.step g .go = some st') : st'.Inv threads := by
  rw [step] at hs
  split at hs
  · cases hs
  · next s hrunning =>
    cases hs
    refine ⟨h.lane, fun s' => ?_, nofun⟩
    have hold := h.session s'
    rw [todo_some hrunning, List.map_nil, ite_self] at hold
    exact hold
  · next s a as hrunning =>
    obtain ⟨st₁, hperform, rfl⟩ := Option.map_eq_some_iff.1 hs
    have hids := h.running _ hrunning
    obtain ⟨hsessions, hhistory, hlanes, hseq⟩ :=
      h.perform (hids a List.mem_cons_self) hperform
    have hrecord : (st₁.log s (.action a)).history = record st.history s (.action a) := by
      rw [log, hhistory]
    refine ⟨?_, fun s' => ?_, ?_⟩
    · rw [hrecord]
      exact hlanes
    · have hold := h.session s'
      rw [todo_some hrunning] at hold
      rw [todo_some rfl, hrecord]
      by_cases hs' : s = s'
      · subst hs'
        rw [if_pos rfl] at hold ⊢
        have hsame : record st.history s (.action a) s = st.history s ++ [.action a] :=
          Function.update_self ..
        rw [hsame]
        refine ⟨hsessions ▸ hold.kept, fun hopen => ?_, hold.ordered.snoc_action a ?_⟩
        · rw [List.append_assoc]
          exact hold.acked (hsessions ▸ hopen)
        · intro k n cmd seq heq r hr
          have := hseq k n cmd seq heq
          have := (h.lane k).count
          have := ((h.lane k).reports r (Or.inr (Or.inr ⟨s, hr⟩))).1
          omega
      · have hsame : record st.history s (.action a) s' = st.history s' :=
          Function.update_of_ne (Ne.symm hs') ..
        rw [if_neg hs'] at hold ⊢
        rw [hsame]
        exact hsessions ▸ hold
    · rintro r hr b hb
      cases hr
      exact hids b (List.mem_cons_of_mem _ hb)

theorem Inv.setLane (h : st.Inv threads) {k₀ : Nat} {l : Lane}
    (hl : LaneInv (threads k₀) st.history k₀ l) : (st.setLane k₀ l).Inv threads :=
  ⟨(Function.forall_update_iff st.lanes (fun k l => LaneInv (threads k) st.history k l)).2
    ⟨hl, fun k _ => h.lane k⟩, h.session, h.running⟩

theorem Inv.dispatch (h : st.Inv threads) {k : Nat} (hs : st.step g (.dispatch k) = some st') :
    st'.Inv threads := by
  rw [step] at hs
  split at hs
  · cases hs
  · next cmd rest hring =>
    obtain ⟨⟨events, t⟩, hd, rfl⟩ := Option.map_eq_some_iff.1 hs
    exact h.setLane ((h.lane k).dispatch hring hd)

theorem Inv.route (h : st.Inv threads) {k : Nat} (hs : st.step g (.route k) = some st') :
    st'.Inv threads := by
  rw [step] at hs
  split at hs
  · cases hs
  · next r rest hwaiting =>
    cases hs
    exact h.setLane ((h.lane k).route hwaiting _ _)

/-- A task of a router runs between two handlers. -/
theorem Inv.deliver (h : st.Inv threads) {k : Nat} (hs : st.step g (.deliver k) = some st') :
    st'.Inv threads := by
  rw [step] at hs
  split at hs
  · cases hs
  · next s r rest hposted =>
    split at hs
    · next hidle =>
      have hnone := Option.isNone_iff_eq_none.1 hidle
      have hrest : rest ⊆ (st.lanes k).posted := by
        rw [hposted]
        exact List.subset_cons_self _ _
      cases hs
      dsimp only
      split
      · exact h.setLane ((h.lane k).unpost hrest)
      · next hopen =>
        have hopen' : (st.sessions s).closed = false := Bool.not_eq_true _ ▸ hopen
        have hne : ∀ k' n cmd seq, .report k r ≠ Entry.sequenced k' n cmd seq := by
          intro k' n cmd seq heq
          cases heq
        have hlanes : ∀ k', LaneInv (threads k') (record st.history s (.report k r)) k'
            ((st.setLane k { st.lanes k with posted := rest }).lanes k') := by
          refine (Function.forall_update_iff st.lanes
            (fun k' l => LaneInv (threads k') (record st.history s (.report k r)) k' l)).2
            ⟨LaneInv.unpost ((h.lane k).record (hne k) fun r' heq => ?_) hrest,
              fun k' hk => (h.lane k').record (hne k') fun r' heq => ?_⟩
          · cases heq
            exact ⟨s, hposted ▸ List.mem_cons_self⟩
          · cases heq
            exact absurd rfl hk
        have hsessions : ∀ s', SessionInv (st.sessions s') (record st.history s (.report k r) s') [] := by
          intro s'
          have hold := h.session s'
          rw [todo_none hnone] at hold
          by_cases hs' : s' = s
          · subst hs'
            have hsame : record st.history s' (.report k r) s' = st.history s' ++ [.report k r] :=
              Function.update_self ..
            rw [hsame]
            refine ⟨hold.kept, fun hopen => ?_, hold.ordered.snoc_report (h.acked hnone hopen') k r⟩
            rw [List.append_nil]
            exact (h.acked hnone hopen').append (acked_of_forall fun k' n cmd seq hmem =>
              absurd (List.mem_singleton.1 hmem).symm (hne k' n cmd seq))
          · have hsame : record st.history s (.report k r) s' = st.history s' :=
              Function.update_of_ne hs' ..
            rw [hsame]
            exact hold
        exact .ofIdle hnone hlanes hsessions
    · cases hs

theorem Inv.step (h : st.Inv threads) {t : Turn} (hs : st.step g t = some st') : st'.Inv threads := by
  cases t with
  | handle s stimulus => exact h.handle hs
  | go => exact h.go hs
  | dispatch k => exact h.dispatch hs
  | route k => exact h.route hs
  | deliver k => exact h.deliver hs

theorem Inv.run {ts : List Turn} {st : GatewayServer} (h : st.Inv threads)
    (hs : st.run g ts = some st') : st'.Inv threads := by
  induction ts generalizing st with
  | nil =>
    cases hs
    exact h
  | cons t ts ih =>
    obtain ⟨st₁, ht, hts⟩ := Option.bind_eq_some_iff.1 hs
    exact ih (h.step ht) hts

/-- Session `s` is the only one that submits commands about the order `id`. -/
def OnlyUser (st : GatewayServer) (s : Nat) (id : Int) : Prop :=
  ∀ s' k n cmd answer, .action (.trySubmit k n cmd answer) ∈ st.history s' →
    cmd.id.toInt = id ∨ cmd.newId.toInt = id → s' = s

end GatewayServer

/-- What the report comes from is in the history of the session: for a fill a new order with its id,
unless that order was there at the start, for a reject the command that it answers. -/
def Report.ComesFrom (start : MatchingThread) (history : List Entry) (k : Nat) : Report → Prop
  | .exec id type _ _ _ _ seq => type = .fill → ¬ Rests start.book.resting id →
    ∃ n cmd first, cmd.isNew = true ∧ cmd.id.toInt = id ∧ first ≤ seq ∧
      .sequenced k n cmd first ∈ history
  | .reject id _ seq => ∃ n cmd, cmd.routedId.toInt = id ∧ .sequenced k n cmd seq ∈ history

namespace GatewayServer

variable {g : GatewayConfig} {threads : Nat → MatchingThread} {st : GatewayServer}

/-- **Acknowledged before executed.** Take a frame for session `s` that the router of shard `k` has
made. Every new order of the session with a number up to that of the event was acknowledged before
it; and if no other session uses the id, what the report comes from is among these. -/
theorem acks_come_first (hbooks : ∀ k, (threads k).book.Represented) {ts : List Turn}
    (hrun : (start g threads).run g ts = some st) {s k : Nat} {r : Report}
    {before after : List Entry} (hr : st.history s = before ++ .report k r :: after) :
    (∀ n cmd seq, .sequenced k n cmd seq ∈ st.history s → cmd.isNew = true → seq ≤ r.globalSeq →
      ∃ earlier later, before = earlier ++ .sequenced k n cmd seq :: later ∧
        .newAck cmd seq ∈ later) ∧
    (st.OnlyUser s r.orderId → r.ComesFrom (threads k) (st.history s) k) := by
  have h := (inv_start hbooks).run hrun
  have hmem : .report k r ∈ st.history s := by
    rw [hr]
    exact List.mem_append_right _ List.mem_cons_self
  refine ⟨(h.session s).ordered before k r after hr, fun honly => ?_⟩
  have hsource := ((h.lane k).reports r (Or.inr (Or.inr ⟨s, hmem⟩))).2
  cases r with
  | exec id type _ _ _ _ seq =>
    intro hfill hfresh
    rcases hsource hfill with hthere | ⟨cmd, first, hnew, hid, hle, s', n, hsub⟩
    · exact absurd hthere hfresh
    · obtain rfl := honly s' k n cmd _ hsub (Or.inl hid)
      exact ⟨n, cmd, first, hnew, hid, hle, hsub⟩
  | reject id reason seq =>
    obtain ⟨cmd, hid, s', n, hsub⟩ := hsource
    have hs' : s' = s := by
      refine honly s' k n cmd _ hsub ?_
      rw [Command.routedId] at hid
      split at hid
      · exact Or.inr hid
      · exact Or.inl hid
    exact ⟨n, cmd, hid, hs' ▸ hsub⟩

/-- The order of participant 7 finds the ring full. The retry has it sequenced, and before the
handler goes on, the engine rejects it and the router posts the reject. -/
def raceAfterRetry : List Turn :=
  [.handle 0 (.read ClientSession.loginAndOrder ⟨0, [.ringFull]⟩), .go, .go, .go, .go,
    .handle 0 (.retry (.sequenced 1)), .go, .dispatch 0, .route 0, .go, .go, .deliver 0]

/-- The order that is rejected. -/
def buyFive : Command := ⟨3, 0, 10, 5, 7, CommandKind.new.toByte, .buy, .limit, 0⟩

theorem acks_come_first_raceAfterRetry : ∃ st before,
    (start ClientSession.smallGateway fun _ => RoutedShard.smallThread).run
      ClientSession.smallGateway raceAfterRetry = some st ∧
    st.history 0 = before ++ [.report 0 (.reject 3 .engineReject 1)] ∧
    .sequenced 0 1 buyFive 1 ∈ st.history 0 ∧
    ∃ earlier later, before = earlier ++ .sequenced 0 1 buyFive 1 :: later ∧
      .newAck buyFive 1 ∈ later := by
  have hrun : ((start ClientSession.smallGateway fun _ => RoutedShard.smallThread).run
      ClientSession.smallGateway raceAfterRetry).map (·.history 0) =
      some ([.action (.sendFrame (.loginAck ⟨0, 0⟩)), .action (.registerRoute 0 3 1),
        .action (.trySubmit 0 1 buyFive .ringFull), .sequenced 0 1 buyFive 1, .newAck buyFive 1] ++
          [.report 0 (.reject 3 .engineReject 1)]) := by
    decide +kernel
  obtain ⟨st, hst, hhistory⟩ := Option.map_eq_some_iff.1 hrun
  have hmem : .sequenced 0 1 buyFive 1 ∈ st.history 0 := by
    rw [hhistory]
    decide
  exact ⟨st, _, hst, hhistory, hmem,
    (acks_come_first (fun _ => RoutedShard.smallThread_reachable.repr) hst hhistory).1 1 buyFive 1 hmem
      (by decide) (by decide)⟩

end GatewayServer

end Velox
