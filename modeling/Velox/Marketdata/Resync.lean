import Velox.Marketdata.Restart
import Velox.Marketdata.SnapshotSource

/-!
# The publisher after a lap

The market-data consumer of the outbound ring does not hold up the producer: a publisher that falls
a whole ring behind is told so by `tryPeekChecked`, skips to the newest event, and `resync` loads its
mirror from the book that `RecoveryManager` builds out of the shard's journal. The sequencer, the
matching thread and the publisher take their steps in any order.

The journal is ahead of the events: what the snapshot already holds can still be told afterwards. If
that is an order that comes to rest, the mirror has it twice (`resync_doubles_order`). As long as
nothing is on the way when a snapshot is taken, the mirror holds the book in the end
(`resync_converges`).
-/

namespace Velox

/-- A shard with its publisher. -/
structure LiveFeed where
  journal : List Command
  /-- In the journal and not yet matched. -/
  waiting : List Command
  thread : MatchingThread
  /-- The events of the last command that are not yet published. -/
  pending : List OutboundEvent
  /-- The events published so far; the ring holds the last `capacity` of them. -/
  ring : List OutboundEvent
  /-- The cursor of the publisher. -/
  tail : Nat
  /-- The publisher was told of a lap and has not loaded a snapshot yet. -/
  lapped : Bool
  publisher : Publisher
  resynced : Bool

inductive LiveFeed.Move where
  | submit (cmd : Command)
  | dispatch
  | publish
  | peek
  | resync

/-- `RecoveryManager::recover` of a journal, with no snapshot. -/
def RecoveryManager.recoverJournal (cfg : BookConfig) (journal : List Command) : Option OrderBook := do
  let b ← OrderBook.create cfg
  b.applyAll buffers (journal.map Command.submission)

namespace LiveFeed

open RecoveryManager (recoverJournal)

/-- `OutRing`. -/
def capacity : Nat := 65536

/-- The process has started over this journal. -/
def start (cfg : BookConfig) (instrumentId : UInt32) (journal : List Command) : Option LiveFeed := do
  let b ← recoverJournal cfg journal
  some ⟨journal, [], ⟨b, journal.length⟩, [], [], 0, false, .start instrumentId, false⟩

/-- What the publisher has still to read of the commands matched so far. -/
def unread (st : LiveFeed) : List OutboundEvent := st.ring.drop st.tail ++ st.pending

/-- One step of one of the threads; none if it cannot take it. -/
def step (st : LiveFeed) : Move → Option LiveFeed
  -- The command is in the journal before the matching thread can see it.
  | .submit cmd => some { st with journal := st.journal ++ [cmd], waiting := st.waiting ++ [cmd] }
  | .dispatch =>
    match st.pending, st.waiting with
    | [], cmd :: cmds => do
      let (events, thread) ← st.thread.dispatch cmd
      some { st with thread := thread, pending := events, waiting := cmds }
    | _, _ => none
  | .publish =>
    match st.pending with
    | [] => none
    | e :: es => some { st with ring := st.ring ++ [e], pending := es }
  -- `tryPeekChecked`; the copy is good if the check after it is.
  | .peek =>
    if st.lapped then none
    else if capacity ≤ st.ring.length - st.tail then
      some { st with tail := st.ring.length, lapped := true }
    else
      match st.ring.drop st.tail with
      | [] => some st
      | e :: _ =>
        some { st with publisher := (st.publisher.applyAndPublish e).1, tail := st.tail + 1 }
  | .resync =>
    if st.lapped then do
      let shadow ← recoverJournal st.thread.book.cfg st.journal
      let mirror ← BookMirror.loadMirrorFromBook shadow
      some { st with publisher := (st.publisher.resync mirror).1, lapped := false, resynced := true }
    else none

def run (st : LiveFeed) : List Move → Option LiveFeed
  | [] => some st
  | m :: ms => do
    let st ← st.step m
    st.run ms

/-- Nothing is on the way, and the publisher has read the ring. -/
def Quiescent (st : LiveFeed) : Prop :=
  st.waiting = [] ∧ st.pending = [] ∧ st.tail = st.ring.length ∧ st.lapped = false

/-- The mirror holds the resting orders, each of them once and with what remains of it. -/
def Converged (st : LiveFeed) : Prop :=
  st.publisher.mirror.forEachOrder.Perm st.thread.book.resting

/-- When a snapshot is loaded, every journaled command is matched, and what the publisher has still
to read of them changes no order; a command fits the buffers of the matching thread. -/
def Calm (st : LiveFeed) : Move → Prop
  | .resync => st.waiting = [] ∧ ∀ e ∈ st.unread, e.level? = none
  | .dispatch => ∀ cmd ∈ st.waiting.head?, st.thread.overflows cmd = false
  | _ => True

/-- Every step of the run is a calm one. -/
def CalmRun (st : LiveFeed) : List Move → Prop
  | [] => True
  | m :: ms => st.Calm m ∧ ∀ st' ∈ st.step m, st'.CalmRun ms

end LiveFeed

/-! ## A mirror under way -/

/-- An event that is about no level changes no order. -/
theorem Replica.namesAll_of_level (r : Replica) {es : List OutboundEvent}
    (h : ∀ e ∈ es, e.level? = none) : r.NamesAll es ∧ (r.applyAll es).orders = r.orders := by
  induction es generalizing r with
  | nil => exact ⟨trivial, rfl⟩
  | cons e es ih =>
    obtain ⟨hnames, horders⟩ := ih (r.apply e) fun e' he' => h e' (List.mem_cons_of_mem _ he')
    have hnone := h e List.mem_cons_self
    have hone : r.Names e ∧ (r.apply e).orders = r.orders := by
      cases e with
      | trade => cases hnone
      | status => exact ⟨.status, rfl⟩
      | orderUpdate action =>
        cases action with
        | rejected => exact ⟨.rejected, rfl⟩
        | rested | cancelled | replaced => cases hnone
    exact ⟨⟨hone.1, hnames⟩, horders.trans hone.2⟩

/-- What the mirror holds becomes these orders with the events still to come. -/
def BookMirror.Heads (m : BookMirror) (es : List OutboundEvent) (orders : List RestingOrder) :
    Prop :=
  ∃ r : Replica, m.Mirrors r ∧ r.NamesAll es ∧ (r.applyAll es).orders.Perm orders

namespace BookMirror

variable {m : BookMirror} {es es' : List OutboundEvent} {orders orders' : List RestingOrder}

theorem Heads.append (h : m.Heads es orders) {r' : Replica} (hr' : r'.orders.Perm orders)
    (hnames : r'.NamesAll es') (hend : (r'.applyAll es').orders.Perm orders') :
    m.Heads (es ++ es') orders' := by
  obtain ⟨r, hm, hes, hperm⟩ := h
  have hp := hperm.trans hr'.symm
  refine ⟨r, hm, Replica.namesAll_append.2 ⟨hes, hnames.perm hp.symm⟩, ?_⟩
  rw [Replica.applyAll_append]
  exact (Replica.applyAll_perm hp es').trans hend

theorem Heads.apply {e : OutboundEvent} (h : m.Heads (e :: es) orders) :
    (m.apply e).Heads es orders := by
  obtain ⟨r, hm, ⟨he, hes⟩, hperm⟩ := h
  exact ⟨r.apply e, (he.admits hm.ids).mirrors hm, hes, hperm⟩

theorem Heads.forEachOrder_perm (h : m.Heads [] orders) : m.forEachOrder.Perm orders := by
  obtain ⟨r, hm, -, hperm⟩ := h
  exact hm.forEachOrder_perm.trans hperm

end BookMirror

namespace Publisher

theorem applyAndPublish_mirror (p : Publisher) (e : OutboundEvent) :
    (p.applyAndPublish e).1.mirror = p.mirror.apply e := by
  have hset : ∀ (p : Publisher) (side : Side) (totals : SortedMap Int Int),
      (p.setTotals side totals).mirror = p.mirror := by
    intro p side totals
    cases side <;> rfl
  have hdiff : ∀ (p : Publisher) (side : Side) (price : Int),
      (p.diffLevel side price).1.mirror = p.mirror := by
    intro p side price
    rw [diffLevel]
    split
    · rfl
    · exact hset _ _ _
  cases e with
  | trade t n => exact hdiff _ _ _
  | status => rfl
  | orderUpdate action side u st n =>
    cases action with
    | rejected => rfl
    | rested | cancelled | replaced => exact hdiff _ _ _

theorem resync_mirror (p : Publisher) (source : BookMirror) :
    (p.resync source).1.mirror = source := by
  rw [resync, seedLevelTotals]
  refine List.foldlRecOn (motive := fun q : Publisher => q.mirror = source) _ _ rfl
    fun q hq x _ => ?_
  cases x.side <;> exact hq

end Publisher

/-- On a gateway's book no price is taken for an empty side. -/
theorem QueueBook.Wf.inSight {q : QueueBook} (hw : q.Wf) (hcfg : q.cfg = gatewayConfig) :
    q.InSight := by
  intro x hx
  have hrange := hw.inRange x hx
  rw [hcfg] at hrange ⊢
  obtain ⟨hmin, hmax⟩ : (10000 : Int) ≤ x.price ∧ x.price ≤ 100000000 := by
    simpa [BookConfig.inRange, gatewayConfig] using hrange
  rw [BookConfig.hidden, decide_eq_false_iff_not]
  have hslot : gatewayConfig.slotPrice (gatewayConfig.slot x.price) =
      10000 + ((x.price - 10000) / 100).toNat * 100 := rfl
  rw [hslot]
  cases x.side <;> simp only [emptySentinel, kBidEmpty, kAskEmpty] <;> omega

namespace LiveFeed

open RecoveryManager (recoverJournal)

section Run

variable {st st' : LiveFeed} {ms : List Move} {m : Move} {journal : List Command}
  {instrumentId : UInt32}

/-- The matched commands have made the book, and after a snapshot the mirror is on its way to it. -/
structure Coherent (st : LiveFeed) : Prop where
  matched : ∃ done, st.journal = done ++ st.waiting ∧
    recoverJournal gatewayConfig done = some st.thread.book
  tail_le : st.tail ≤ st.ring.length
  heads : st.resynced = true → st.lapped = false →
    st.publisher.mirror.Heads st.unread st.thread.book.resting

theorem recoverJournal_spec {b : OrderBook} {cfg : BookConfig}
    (h : recoverJournal cfg journal = some b) :
    b.cfg = cfg ∧ ∃ ps, b.Repr ps none ∧ (b.view ps).Fits := by
  obtain ⟨b₀, hb₀, hall⟩ := Option.bind_eq_some_iff.1 h
  obtain ⟨hr₀, hview₀⟩ := OrderBook.repr_create hb₀
  obtain ⟨b₁, ps₁, hall₁, hr₁, hf₁, hcfg⟩ := OrderBook.applyAll_fits hr₀
    (by rw [hview₀]; exact OrderBook.fits_emptyView cfg) (journal.map Command.submission)
  obtain rfl : b = b₁ := Option.some.inj (hall.symm.trans (hall₁ _))
  exact ⟨hcfg.trans (congrArg QueueBook.cfg hview₀), ps₁, hr₁, hf₁⟩

/-- The matching thread does with a command what recovery does with its record. -/
theorem recoverJournal_dispatch {t t' : MatchingThread} {cmd : Command} {cfg : BookConfig}
    {events : List OutboundEvent} (h : recoverJournal cfg journal = some t.book)
    (hd : t.dispatch cmd = some (events, t')) :
    recoverJournal cfg (journal ++ [cmd]) = some t'.book := by
  obtain ⟨-, ps, hr, hf⟩ := recoverJournal_spec h
  obtain ⟨b₀, hb₀, hall⟩ := Option.bind_eq_some_iff.1 h
  obtain ⟨b₁, -, hap, -, -⟩ := OrderBook.apply_spec cmd.kind cmd hr hf.wf
  have hbook := t.dispatch_book cmd
  rw [hd, hap, Option.map_some, Option.some.injEq] at hbook
  rw [recoverJournal, hb₀, List.map_append]
  refine (OrderBook.applyAll_append b₀ _ _ _).trans ?_
  rw [hall, Option.bind_some, List.map_singleton, OrderBook.applyAll, Command.submission, hap, hbook]
  rfl

theorem Coherent.dispatch (hc : st.Coherent) (hcalm : st.Calm .dispatch)
    (hs : st.step .dispatch = some st') : st'.Coherent := by
  obtain ⟨done, hjournal, hbook⟩ := hc.matched
  obtain ⟨-, ps, hr, hf⟩ := recoverJournal_spec hbook
  rw [step] at hs
  cases hp : st.pending with
  | cons => simp [hp] at hs
  | nil =>
    cases hw : st.waiting with
    | nil => simp [hp, hw] at hs
    | cons cmd cmds =>
      obtain ⟨events, t, ps', hd, hr', hf', hnames, hread⟩ :=
        MatchingThread.dispatch_names hr hf (hcalm cmd (by rw [hw]; rfl))
      simp only [hp, hw, hd, Option.bind_eq_bind, Option.bind_some, Option.some.injEq] at hs
      subst hs
      refine ⟨⟨done ++ [cmd], ?_, recoverJournal_dispatch hbook hd⟩, hc.tail_le, fun hre hla => ?_⟩
      · rw [hjournal, hw, List.append_assoc]
        rfl
      · have hheads := hc.heads hre hla
        rw [unread, hp, List.append_nil] at hheads
        refine hheads.append (hr.resting_perm hf.wf).symm hnames ?_
        rw [hread]
        exact (hr'.resting_perm hf'.wf).symm

theorem Coherent.publish (hc : st.Coherent) (hs : st.step .publish = some st') : st'.Coherent := by
  rw [step] at hs
  cases hp : st.pending with
  | nil => simp [hp] at hs
  | cons e es =>
    simp only [hp, Option.some.injEq] at hs
    subst hs
    refine ⟨hc.matched, ?_, fun hre hla => ?_⟩
    · exact hc.tail_le.trans (by simp)
    · have hheads := hc.heads hre hla
      rw [unread, hp] at hheads
      rw [unread, List.drop_append_of_le_length hc.tail_le, List.append_assoc]
      exact hheads

theorem Coherent.peek (hc : st.Coherent) (hs : st.step .peek = some st') : st'.Coherent := by
  rw [step] at hs
  by_cases hla : st.lapped = true
  · simp [hla] at hs
  · rw [if_neg hla] at hs
    split at hs
    · rw [Option.some.injEq] at hs
      subst hs
      exact ⟨hc.matched, le_rfl, fun _ h => Bool.noConfusion h⟩
    · cases hdrop : st.ring.drop st.tail with
      | nil =>
        simp only [hdrop, Option.some.injEq] at hs
        exact hs ▸ hc
      | cons e es =>
        simp only [hdrop, Option.some.injEq] at hs
        subst hs
        have hlt : st.tail < st.ring.length := by
          have := congrArg List.length hdrop
          rw [List.length_drop, List.length_cons] at this
          omega
        have hes : st.ring.drop (st.tail + 1) = es := by
          rw [← List.tail_drop, hdrop, List.tail_cons]
        refine ⟨hc.matched, hlt, fun hre hla => ?_⟩
        have hheads := hc.heads hre hla
        rw [unread, hdrop] at hheads
        rw [Publisher.applyAndPublish_mirror, unread, hes]
        exact hheads.apply

/-- A snapshot of the whole journal, with nothing on the way, is the book. -/
theorem Coherent.resync (hc : st.Coherent) (hcalm : st.Calm .resync)
    (hs : st.step .resync = some st') : st'.Coherent := by
  obtain ⟨done, hjournal, hbook⟩ := hc.matched
  obtain ⟨hwaiting, hquiet⟩ := hcalm
  rw [hwaiting, List.append_nil] at hjournal
  obtain ⟨hcfg, ps, hr, hf⟩ := recoverJournal_spec hbook
  obtain ⟨m, hload, hm⟩ :=
    BookMirror.loadMirrorFromBook_mirrors hr hf.wf (hf.wf.inSight hcfg)
  rw [step] at hs
  by_cases hla : st.lapped = true
  · simp only [hla, if_true, hcfg, hjournal, hbook, hload, Option.bind_eq_bind, Option.bind_some,
      Option.some.injEq] at hs
    subst hs
    refine ⟨⟨done, by rw [hwaiting, List.append_nil], hbook⟩, hc.tail_le, fun _ _ => ?_⟩
    obtain ⟨hnames, horders⟩ := Replica.namesAll_of_level (st.thread.book.view ps).replica hquiet
    rw [Publisher.resync_mirror]
    refine ⟨_, hm, hnames, ?_⟩
    rw [unread] at horders
    rw [unread, horders]
    exact (hr.resting_perm hf.wf).symm
  · simp [hla] at hs

/-- **One step.** -/
theorem Coherent.step (hc : st.Coherent) (hcalm : st.Calm m) (hs : st.step m = some st') :
    st'.Coherent := by
  cases m with
  | submit cmd =>
    obtain ⟨done, hjournal, hbook⟩ := hc.matched
    rw [LiveFeed.step, Option.some.injEq] at hs
    subst hs
    exact ⟨⟨done, by rw [hjournal, List.append_assoc], hbook⟩, hc.tail_le, hc.heads⟩
  | dispatch => exact hc.dispatch hcalm hs
  | publish => exact hc.publish hs
  | peek => exact hc.peek hs
  | resync => exact hc.resync hcalm hs

theorem Coherent.run (hc : st.Coherent) (hcalm : st.CalmRun ms) (hrun : st.run ms = some st') :
    st'.Coherent := by
  induction ms generalizing st with
  | nil => exact Option.some.inj hrun ▸ hc
  | cons m ms ih =>
    obtain ⟨st₁, hs, hrest⟩ := Option.bind_eq_some_iff.1 hrun
    exact ih (hc.step hcalm.1 hs) (hcalm.2 st₁ hs) hrest

theorem coherent_start (h : start gatewayConfig instrumentId journal = some st) : st.Coherent := by
  obtain ⟨b, hb, hst⟩ := Option.bind_eq_some_iff.1 h
  rw [Option.some.injEq] at hst
  subst hst
  exact ⟨⟨journal, (List.append_nil _).symm, hb⟩, le_rfl, fun h => Bool.noConfusion h⟩

theorem Coherent.converged (hc : st.Coherent) (hq : st.Quiescent) (hre : st.resynced = true) :
    st.Converged := by
  obtain ⟨-, hpending, htail, hlapped⟩ := hq
  have hheads := hc.heads hre hlapped
  rw [unread, hpending, htail, List.drop_length] at hheads
  exact hheads.forEachOrder_perm

/-- **Resync converges as long as nothing is on the way**: in every run whose steps are all calm,
the mirror of a publisher that has been lapped holds the book whenever the shard is quiescent. -/
theorem resync_converges (h : start gatewayConfig instrumentId journal = some st) {ms : List Move}
    (hcalm : st.CalmRun ms) (hrun : st.run ms = some st') (hq : st'.Quiescent)
    (hre : st'.resynced = true) : st'.Converged :=
  ((coherent_start h).run hcalm hrun).converged hq hre

end Run

/-! ## A lap -/

section Lap

/-- Cancel order 7. -/
def cancelSeven : Command := ⟨7, 0, 0, 0, 1, 1, .buy, .limit, 0⟩

/-- `n` times: a command to cancel order 7, matched and its event published. -/
def cancels (n : Nat) : List Move :=
  (List.replicate n [.submit cancelSeven, .dispatch, .publish]).flatten

/-- The shard after `n` cancels of an order that the book does not have. -/
def afterCancels (st : LiveFeed) (n : Nat) : LiveFeed :=
  { st with
    journal := st.journal ++ List.replicate n cancelSeven
    thread := ⟨st.thread.book, st.thread.dispatchSeq + n⟩
    ring := st.ring ++ (List.range n).map fun i : Nat =>
      .status 7 .rejectedUnknownOrder (st.thread.dispatchSeq + i + 1) }

variable {st st₁ st' : LiveFeed} {ms ms' : List Move}

theorem run_append (st : LiveFeed) (ms ms' : List Move) :
    st.run (ms ++ ms') = (st.run ms).bind (·.run ms') := by
  induction ms generalizing st with
  | nil => rfl
  | cons m ms ih =>
    rw [List.cons_append, run, run]
    cases st.step m with
    | none => rfl
    | some st₁ => exact ih st₁

theorem calmRun_append (h : st.CalmRun ms) (hrun : st.run ms = some st₁) (h' : st₁.CalmRun ms') :
    st.CalmRun (ms ++ ms') := by
  induction ms generalizing st with
  | nil => exact Option.some.inj hrun ▸ h'
  | cons m ms ih =>
    obtain ⟨st₂, hs, hrest⟩ := Option.bind_eq_some_iff.1 hrun
    refine ⟨h.1, fun st₃ hst₃ => ?_⟩
    obtain rfl : st₂ = st₃ := Option.some.inj (hs.symm.trans hst₃)
    exact ih (h.2 st₂ hs) hrest

theorem cancels_succ (n : Nat) :
    cancels (n + 1) = cancels n ++ [.submit cancelSeven, .dispatch, .publish] := by
  simp [cancels, List.replicate_succ', List.flatten_append]

theorem dispatch_cancelSeven {b : OrderBook} (hfind : b.idMap.find idHash 7 = none) (seq : Int) :
    (⟨b, seq⟩ : MatchingThread).dispatch cancelSeven =
      some ([.status 7 .rejectedUnknownOrder (seq + 1)], ⟨b, seq + 1⟩) := by
  have hcancel : b.cancel cancelSeven.id.toInt = some ({ status := .rejectedUnknownOrder }, b) := by
    change b.cancel 7 = _
    rw [OrderBook.cancel, hfind]
  have hkind : CommandKind.ofByte cancelSeven.kind = some .cancel := rfl
  rw [MatchingThread.dispatch, hkind]
  simp only [hcancel]
  rfl

/-- One such command. -/
theorem run_cancelSeven (hw : st.waiting = []) (hp : st.pending = [])
    (hfind : st.thread.book.idMap.find idHash 7 = none) :
    st.run [.submit cancelSeven, .dispatch, .publish] = some (st.afterCancels 1) ∧
      st.CalmRun [.submit cancelSeven, .dispatch, .publish] := by
  have hd := dispatch_cancelSeven hfind st.thread.dispatchSeq
  refine ⟨?_, trivial, fun st₁ hst₁ => ?_⟩
  · simp [run, step, hw, hp, hd, afterCancels]
  · obtain rfl := Option.some.inj hst₁
    refine ⟨fun cmd hcmd => ?_, fun st₂ _ => ⟨trivial, fun _ _ => trivial⟩⟩
    rw [hw] at hcmd
    obtain rfl := Option.some.inj hcmd
    -- A cancel leaves its buffers as they are.
    have hkind : CommandKind.ofByte cancelSeven.kind = some .cancel := rfl
    rw [MatchingThread.overflows, hkind]
    simp only [Command.call, OrderBook.call]
    cases st.thread.book.cancel cancelSeven.id.toInt <;> rfl

theorem run_cancels (hw : st.waiting = []) (hp : st.pending = [])
    (hfind : st.thread.book.idMap.find idHash 7 = none) (n : Nat) :
    st.run (cancels n) = some (st.afterCancels n) ∧ st.CalmRun (cancels n) := by
  induction n with
  | zero =>
    refine ⟨?_, trivial⟩
    simp [cancels, run, afterCancels]
  | succ n ih =>
    obtain ⟨hrun, hcalm⟩ := ih
    obtain ⟨hone, hcalm₁⟩ : (st.afterCancels n).run _ = _ ∧ _ := run_cancelSeven hw hp hfind
    rw [cancels_succ]
    refine ⟨?_, calmRun_append hcalm hrun hcalm₁⟩
    rw [run_append, hrun, Option.bind_some, hone]
    simp [afterCancels, List.replicate_succ', List.range_succ, add_assoc]

/-- A sell of 5 at 1.01. -/
def sellFive : Command := ⟨1, 0, 10100, 5, 1, 0, .sell, .limit, 0⟩

/-- The lap. -/
theorem step_peek_afterCancels (hl : st.lapped = false) (ht : st.tail = 0) (hr : st.ring = []) :
    (st.afterCancels capacity).step .peek =
      some { st.afterCancels capacity with tail := capacity, lapped := true } := by
  have hlen : (st.afterCancels capacity).ring.length = capacity := by
    simp [afterCancels, hr]
  have hlapped : (st.afterCancels capacity).lapped = false := hl
  have htail : (st.afterCancels capacity).tail = 0 := ht
  rw [step, hlapped, hlen, htail]
  simp

theorem recoverJournal_cancels {b : OrderBook} {journal : List Command}
    (h : recoverJournal gatewayConfig journal = some b) (hfind : b.idMap.find idHash 7 = none)
    (n : Nat) :
    recoverJournal gatewayConfig (journal ++ List.replicate n cancelSeven) = some b := by
  induction n with
  | zero => rwa [List.replicate_zero, List.append_nil]
  | succ n ih =>
    rw [List.replicate_succ', ← List.append_assoc]
    exact recoverJournal_dispatch (t := ⟨b, 0⟩) ih (dispatch_cancelSeven hfind 0)

/-- A shard that has recovered `sellFive` starts with an empty mirror. A lap mends that. -/
theorem resync_converges_sellFive : ∃ st st',
    start gatewayConfig 1 [sellFive] = some st ∧
      st.run (cancels capacity ++ [.peek, .resync]) = some st' ∧ st'.Converged := by
  obtain ⟨b, hb, hfind⟩ := Option.map_eq_some_iff.1
    (by decide +kernel : (recoverJournal gatewayConfig [sellFive]).map
      (fun b => b.idMap.find idHash 7) = some none)
  obtain ⟨hcfg, ps, hr, hf⟩ := recoverJournal_spec hb
  obtain ⟨m, hload, -⟩ := BookMirror.loadMirrorFromBook_mirrors hr hf.wf (hf.wf.inSight hcfg)
  have hjournal := recoverJournal_cancels hb hfind capacity
  have hstart : start gatewayConfig 1 [sellFive] =
      some ⟨[sellFive], [], ⟨b, 1⟩, [], [], 0, false, .start 1, false⟩ := by
    rw [start, hb]
    rfl
  obtain ⟨st, hst⟩ : ∃ st : LiveFeed,
    st = ⟨[sellFive], [], ⟨b, 1⟩, [], [], 0, false, .start 1, false⟩ := ⟨_, rfl⟩
  rw [← hst] at hstart
  obtain ⟨hcancels, hcalm⟩ : st.run (cancels capacity) = _ ∧ _ :=
    run_cancels (by rw [hst]) (by rw [hst]) (by rw [hst]; exact hfind) capacity
  have hpeek : (st.afterCancels capacity).step .peek = _ :=
    step_peek_afterCancels (by rw [hst]) (by rw [hst]) (by rw [hst])
  obtain ⟨lap, hlap⟩ : ∃ lap : LiveFeed,
    lap = { st.afterCancels capacity with tail := capacity, lapped := true } := ⟨_, rfl⟩
  rw [← hlap] at hpeek
  have hresync : lap.step .resync =
      some { lap with publisher := (lap.publisher.resync m).1, lapped := false, resynced := true } := by
    have hrecover : recoverJournal lap.thread.book.cfg lap.journal = some b := by
      rw [hlap, hst]
      exact hcfg ▸ hjournal
    have hlapped : lap.lapped = true := by rw [hlap]
    simp [step, hlapped, hrecover, hload]
  have hunread : lap.unread = [] := by
    simp [hlap, hst, unread, afterCancels]
  have hrun : st.run (cancels capacity ++ [.peek, .resync]) =
      some { lap with publisher := (lap.publisher.resync m).1, lapped := false, resynced := true } := by
    rw [run_append, hcancels]
    simp [run, hpeek, hresync]
  have hcalm' : (st.afterCancels capacity).CalmRun [.peek, .resync] := by
    refine ⟨trivial, fun st₁ hst₁ => ?_⟩
    obtain rfl : lap = st₁ := Option.some.inj (hpeek.symm.trans hst₁)
    refine ⟨⟨by rw [hlap, hst]; rfl, fun e he => ?_⟩, fun _ _ => trivial⟩
    rw [hunread] at he
    cases he
  refine ⟨st, _, hstart, hrun,
    resync_converges hstart (calmRun_append hcalm hcancels hcalm') hrun ?_ rfl⟩
  refine ⟨?_, ?_, ?_, rfl⟩ <;> simp [hlap, hst, afterCancels]

/-- A command that is journaled before the snapshot and matched after it: its event comes to a mirror
of a book that has seen the command. -/
theorem run_straddle {cmd : Command} {e : OutboundEvent} {t : MatchingThread} {b : OrderBook}
    {m : BookMirror} (hl : st.lapped = true) (hw : st.waiting = []) (hp : st.pending = [])
    (ht : st.tail = st.ring.length)
    (hb : recoverJournal st.thread.book.cfg (st.journal ++ [cmd]) = some b)
    (hload : BookMirror.loadMirrorFromBook b = some m)
    (hd : st.thread.dispatch cmd = some ([e], t)) :
    ∃ st', st.run [.submit cmd, .resync, .dispatch, .publish, .peek] = some st' ∧ st'.Quiescent ∧
      st'.resynced = true ∧ st'.thread = t ∧ st'.publisher.mirror = m.apply e := by
  have hcap : ¬ capacity ≤ 1 := by decide
  have hrun : st.run [.submit cmd, .resync, .dispatch, .publish, .peek] =
      some ⟨st.journal ++ [cmd], [], t, [], st.ring ++ [e], st.tail + 1, false,
        ((st.publisher.resync m).1.applyAndPublish e).1, true⟩ := by
    simp [run, step, hl, hw, hp, ht, hb, hload, hd, hcap]
  refine ⟨_, hrun, ⟨rfl, rfl, by simp [ht], rfl⟩, rfl, rfl, ?_⟩
  rw [Publisher.applyAndPublish_mirror, Publisher.resync_mirror]

/-- The publisher is lapped; before it loads a snapshot, a sell is journaled. The snapshot has it,
and so has the event that tells of it later: the mirror holds the order twice. -/
theorem resync_doubles_order : ∃ st st', start gatewayConfig 1 [] = some st ∧
    st.run (cancels capacity ++ .peek :: [.submit sellFive, .resync, .dispatch, .publish, .peek]) =
        some st' ∧
      st'.Quiescent ∧ st'.resynced = true ∧
      st'.publisher.mirror.forEachOrder.map RestingOrder.id = [1, 1] ∧ ¬ st'.Converged := by
  have hfind : gatewayBook.idMap.find idHash 7 = none := by decide +kernel
  have hcreate : OrderBook.create gatewayConfig = some gatewayBook := (Option.some_get _).symm
  have hsummary : ((⟨gatewayBook, 65536⟩ : MatchingThread).dispatch sellFive).bind (fun r =>
      (BookMirror.loadMirrorFromBook r.2.book).map fun m => (r.1,
        (m.apply (.orderUpdate .rested .sell ⟨1, 10100, 5, 5, 1, 1⟩ .ok 65537)).forEachOrder.map
          RestingOrder.id)) =
      some ([.orderUpdate .rested .sell ⟨1, 10100, 5, 5, 1, 1⟩ .ok 65537], [1, 1]) := by
    decide +kernel
  obtain ⟨⟨events, t⟩, hd, hm⟩ := Option.bind_eq_some_iff.1 hsummary
  obtain ⟨m, hload, hm⟩ := Option.map_eq_some_iff.1 hm
  obtain ⟨rfl, hids⟩ := Prod.mk.inj hm
  obtain ⟨e, he⟩ : ∃ e : OutboundEvent,
    e = .orderUpdate .rested .sell ⟨1, 10100, 5, 5, 1, 1⟩ .ok 65537 := ⟨_, rfl⟩
  rw [← he] at hd hids
  have hbook : recoverJournal gatewayConfig [] = some gatewayBook := by
    rw [recoverJournal, hcreate]
    rfl
  have hjournal := recoverJournal_dispatch (t := ⟨gatewayBook, 65536⟩)
    (recoverJournal_cancels hbook hfind capacity) hd
  obtain ⟨st, hst⟩ : ∃ st : LiveFeed,
    st = ⟨[], [], ⟨gatewayBook, 0⟩, [], [], 0, false, .start 1, false⟩ := ⟨_, rfl⟩
  have hstart : start gatewayConfig 1 [] = some st := by
    rw [start, hbook, hst]
    rfl
  obtain ⟨hcancels, -⟩ : st.run (cancels capacity) = _ ∧ _ :=
    run_cancels (by rw [hst]) (by rw [hst]) (by rw [hst]; exact hfind) capacity
  have hpeek : (st.afterCancels capacity).step .peek = _ :=
    step_peek_afterCancels (by rw [hst]) (by rw [hst]) (by rw [hst])
  obtain ⟨lap, hlap⟩ : ∃ lap : LiveFeed,
    lap = { st.afterCancels capacity with tail := capacity, lapped := true } := ⟨_, rfl⟩
  rw [← hlap] at hpeek
  obtain ⟨st', hrest, hq, hre, hthread, hmirror⟩ : ∃ st', lap.run _ = some st' ∧ _ :=
    run_straddle (by rw [hlap]) (by rw [hlap, hst]; rfl) (by rw [hlap, hst]; rfl)
      (by simp [hlap, hst, afterCancels])
      (by rw [hlap, hst]; exact (recoverJournal_spec hbook).1 ▸ hjournal) hload
      (by rw [hlap, hst]; exact hd)
  refine ⟨st, st', hstart, ?_, hq, hre, ?_, fun hconv => ?_⟩
  · rw [run_append, hcancels, Option.bind_some, run, hpeek]
    exact hrest
  · rw [hmirror]
    exact hids
  · -- No id rests twice.
    obtain ⟨-, ps, hr, hf⟩ := recoverJournal_spec hjournal
    rw [Converged, hmirror, hthread] at hconv
    have hnodup := ((hconv.trans (hr.resting_perm hf.wf)).map RestingOrder.id).nodup_iff.2 hf.wf.ids
    rw [hids] at hnodup
    exact absurd hnodup (by decide)

end Lap

end LiveFeed

end Velox
