import Velox.Audit.Ingest
import Velox.Sequencer.JournalTailer
import Velox.Sequencer.JournalWrites

/-!
# Ingest under failures

`runShard` and `flush` of `apps/velox_auditd.cpp` once more, for one shard, now with what can go
wrong: a batch that cannot be written, one that is committed although the process is told that it was
not, a checkpoint that cannot be loaded, a stop or a crash anywhere. The journal on disk is complete.

A process that cannot load its checkpoint starts from the beginning. What it reads again is already
there, and its first batch takes the checkpoint back, so that the table is then ahead of the
checkpoint. It never is behind it, and what it holds is always an initial part of the journal, row by
row (`ShardSystem.order_events_once`).
-/

namespace Velox

open Storage

/-! ## The process -/

/-- The tables, with a checkpoint of the tailer for each shard. -/
structure Postgres where
  orderEvents : List OrderEventRow
  trades : List TradeRow
  checkpoints : UInt32 → Option Checkpoint

namespace Postgres

/-- One transaction. -/
def writeBatch (pg : Postgres) (shardId : UInt32) (rows : AuditRows) (cp : Checkpoint) :
    Postgres where
  orderEvents := Table.insertAll OrderEventRow.key pg.orderEvents rows.orderEvents
  trades := Table.insertAll TradeRow.key pg.trades rows.trades
  checkpoints := Function.update pg.checkpoints shardId (some cp)

def rowsOf (pg : Postgres) (shardId : UInt32) : List OrderEventRow :=
  pg.orderEvents.filter fun r => decide (r.shardId = shardId)

def lastGlobalSeq (pg : Postgres) (shardId : UInt32) : Int :=
  (pg.checkpoints shardId).elim 0 Checkpoint.lastGoodSeq

end Postgres

/-- How an attempt to write a batch ends. -/
inductive Attempt where
  | written
  | lost
  /-- The transaction is committed, but the process is told that it is not. -/
  | unreported
  deriving DecidableEq

/-- Where the process is: in its loop, in a `flush` of the loop, or in the last one. -/
inductive Stage where
  | polling
  | flushing
  | closing
  deriving DecidableEq

structure ShardConfig where
  book : BookConfig
  shardId : UInt32
  batchSize : Nat
  journal : Directory FileName

structure ShardProcess where
  tailer : JournalTailer
  replayer : AuditReplayer
  /-- The rows that are not written yet. -/
  batch : AuditRows
  stage : Stage
  /-- `g_stop`. -/
  stop : Bool

namespace ShardProcess

def start (c : ShardConfig) (cp : Checkpoint) : Option ShardProcess := do
  let replayer ← AuditReplayer.create c.shardId c.book
  some ⟨JournalTailer.create c.journal cp, replayer, ⟨[], []⟩, .polling, false⟩

/-- There is nothing to write. -/
def Flushed (p : ShardProcess) : Prop := p.batch.orderEvents = [] ∧ p.batch.trades = []

instance (p : ShardProcess) : Decidable p.Flushed := inferInstanceAs (Decidable (_ ∧ _))

/-- `flush` is entered, and left at once if there is nothing to write. -/
def flush (p : ShardProcess) : ShardProcess := if p.Flushed then p else { p with stage := .flushing }

/-- The last `flush`, after the loop. -/
def close (p : ShardProcess) : Option ShardProcess :=
  if p.Flushed then none else some { p with stage := .closing }

/-- One turn of the loop. -/
def poll (c : ShardConfig) (p : ShardProcess) : Option (Option ShardProcess) :=
  if p.stop then some p.close
  else
    match p.tailer.next c.journal with
    | (.ok e, tailer) => do
      let (rows, replayer) ← p.replayer.apply e
      let p := { p with tailer := tailer, replayer := replayer, batch := p.batch.append rows }
      some (some (if c.batchSize ≤ p.batch.orderEvents.length then p.flush else p))
    | (.corrupt _, tailer) => some { p with tailer := tailer }.close
    | (.notYet, tailer) => some (some { p with tailer := tailer }.flush)

/-- `flush` after an attempt: it is over if the batch is written, or if the process is to stop, which
leaves the batch as it is. -/
def tried (p : ShardProcess) (a : Attempt) : Option ShardProcess :=
  let batch := if a = .written then ⟨[], []⟩ else p.batch
  if a = .written ∨ p.stop = true then
    if p.stage = .closing then none else some { p with batch := batch, stage := .polling }
  else some p

end ShardProcess

/-- The rows are those of this shard. -/
def AuditRows.Of (rows : AuditRows) (shardId : UInt32) : Prop :=
  (∀ r ∈ rows.orderEvents, r.shardId = shardId) ∧ ∀ r ∈ rows.trades, r.shardId = shardId

instance (rows : AuditRows) (shardId : UInt32) : Decidable (rows.Of shardId) :=
  inferInstanceAs (Decidable (_ ∧ _))

structure ShardSystem where
  postgres : Postgres
  process : Option ShardProcess

inductive ShardAction where
  /-- A process is started, and its checkpoint is loaded or not. -/
  | start (loaded : Bool)
  | poll
  | attempt (a : Attempt)
  | signal
  | crash
  /-- The process of another shard writes a batch. -/
  | other (shardId : UInt32) (rows : AuditRows) (cp : Checkpoint)
  deriving DecidableEq

namespace ShardSystem

/-- What cannot happen where the process is changes nothing. -/
def step (c : ShardConfig) (s : ShardSystem) : ShardAction → Option ShardSystem
  | .start loaded =>
    match s.process with
    | some _ => some s
    | none => do
      let cp := if loaded then (s.postgres.checkpoints c.shardId).getD .empty else .empty
      let p ← ShardProcess.start c cp
      some { s with process := some p }
  | .poll =>
    match s.process with
    | some p =>
      if p.stage = .polling then do
        let process ← p.poll c
        some { s with process := process }
      else some s
    | none => some s
  | .attempt a =>
    match s.process with
    | some p =>
      if p.stage = .polling then some s
      else
        some ⟨if a = .lost then s.postgres
          else s.postgres.writeBatch c.shardId p.batch p.tailer.checkpoint, p.tried a⟩
    | none => some s
  | .signal => some { s with process := s.process.map fun p => { p with stop := true } }
  | .crash => some { s with process := none }
  | .other shardId rows cp =>
    if shardId ≠ c.shardId ∧ rows.Of shardId then
      some { s with postgres := s.postgres.writeBatch shardId rows cp }
    else some s

def run (c : ShardConfig) (s : ShardSystem) : List ShardAction → Option ShardSystem
  | [] => some s
  | a :: as => do
    let s ← s.step c a
    s.run c as

end ShardSystem

/-! ## The table -/

section Rows

variable {c : ShardConfig} {j : Journal} {pg : Postgres} {rows : AuditRows} {cp : Checkpoint}
  {k m n : Nat}

theorem orderEventRow_key_shard (shardId : UInt32) (r r' : OrderEventRow)
    (h : r.key = r'.key) : decide (r.shardId = shardId) = decide (r'.shardId = shardId) := by
  rw [show r.shardId = r'.shardId from congrArg Prod.fst h]

theorem rowsOf_writeBatch (pg : Postgres) (shardId shardId' : UInt32) (rows : AuditRows)
    (cp : Checkpoint) : (pg.writeBatch shardId' rows cp).rowsOf shardId =
      Table.insertAll OrderEventRow.key (pg.rowsOf shardId)
        (rows.orderEvents.filter fun r => decide (r.shardId = shardId)) :=
  Table.filter_insertAll (orderEventRow_key_shard shardId) _ _

/-- The rows of some of the records that come next, or came before. -/
theorem rowsOf_writeBatch_window (hw : j.Wf) (hk : k ≤ m)
    (hpg : pg.rowsOf c.shardId = (j.entries.take m).map (.of c.shardId))
    (hrows : rows.orderEvents = ((j.entries.take n).drop k).map (.of c.shardId)) :
    (pg.writeBatch c.shardId rows cp).rowsOf c.shardId =
      (j.entries.take (max m n)).map (.of c.shardId) := by
  have hshard : ∀ r ∈ j.entries.map (.of c.shardId), (OrderEventRow.key r).1 = c.shardId := by
    intro r hr
    obtain ⟨e, -, rfl⟩ := List.mem_map.1 hr
    rfl
  have hnumbered : Table.Numbered (fun r => (OrderEventRow.key r).2) 1
      (j.entries.map (.of c.shardId)) := by
    intro i r hr
    rw [List.getElem?_map, Option.map_eq_some_iff] at hr
    obtain ⟨e, he, rfl⟩ := hr
    exact hw.numbered i e he
  have hall : rows.orderEvents.filter (fun r => decide (r.shardId = c.shardId)) =
      rows.orderEvents := by
    rw [List.filter_eq_self, hrows]
    intro r hr
    obtain ⟨e, -, rfl⟩ := List.mem_map.1 hr
    exact decide_eq_true rfl
  have hwindow := Table.insertAll_window (n := n) hnumbered hshard hk
  rw [rowsOf_writeBatch, hall, hpg, hrows, List.map_take, List.map_drop, List.map_take, hwindow,
    List.map_take]

end Rows

/-! ## The invariant -/

/-- The process has read `n` records; its batch are the last of them, and the others are in the
table, which has `M`. If `loaded` then every process has started from the
checkpoint. -/
structure ShardProcess.Reads (p : ShardProcess) (c : ShardConfig) (j : Journal) (loaded : Prop)
    (M n : Nat) : Prop where
  tracks : ∃ L, p.tailer.TracksIn j L n ∧ j.segments.length ≤ L
  ready : p.replayer.Ready
  shardId : p.replayer.shardId = c.shardId
  batch : ∃ k ≤ M, k ≤ n ∧ p.batch.orderEvents = ((j.entries.take n).drop k).map (.of c.shardId)
  trades : p.batch.orderEvents = [] → p.batch.trades = []
  ahead : loaded → M ≤ n
  -- The tailer looks again only after all records have been read.
  all : p.tailer.needsReseek = true → n = j.entries.length

/-- In a `flush` there is something to write. When all has been read and the process is in its loop,
all is written. -/
structure ShardProcess.Follows (p : ShardProcess) (c : ShardConfig) (j : Journal) (loaded : Prop)
    (M n : Nat) : Prop extends p.Reads c j loaded M n where
  flushing : p.stage ≠ .polling → p.batch.orderEvents ≠ []
  closing : p.stage = .closing → p.stop = true
  written : p.tailer.needsReseek = true → p.stage = .polling → p.stop = false →
    p.batch.orderEvents = []

/-- The table has the first `M` records, and no less than the checkpoint says. -/
structure ShardSystem.Covers (s : ShardSystem) (c : ShardConfig) (j : Journal) (loaded : Prop)
    (M : Nat) : Prop where
  le : M ≤ j.entries.length
  rows : s.postgres.rowsOf c.shardId = (j.entries.take M).map (.of c.shardId)
  checkpoint : (s.postgres.checkpoints c.shardId = none ∧ M = 0) ∨
    ∃ cp n, s.postgres.checkpoints c.shardId = some cp ∧ cp.Marks j n ∧ 0 < n ∧ n ≤ M ∧
      (loaded → n = M)
  process : ∀ p ∈ s.process, ∃ n, p.Follows c j loaded M n

namespace ShardProcess

variable {p q : ShardProcess} {c : ShardConfig} {j : Journal} {loaded : Prop} {M n : Nat}

theorem Reads.flushed_iff (h : p.Reads c j loaded M n) : p.Flushed ↔ p.batch.orderEvents = [] :=
  ⟨fun hflushed => hflushed.1, fun hnil => ⟨hnil, h.trades hnil⟩⟩

theorem Reads.le (h : p.Reads c j loaded M n) : n ≤ j.entries.length := by
  obtain ⟨L, htracks, -⟩ := h.tracks
  exact htracks.le

/-- All that was read is in the table or in the batch. -/
theorem Reads.le_of_nil (h : p.Reads c j loaded M n) (hnil : p.batch.orderEvents = []) : n ≤ M := by
  obtain ⟨k, hk, -, hbatch⟩ := h.batch
  have hlen := congrArg List.length (hbatch.symm.trans hnil)
  rw [List.length_map, List.length_drop, List.length_take, Nat.min_eq_left h.le,
    List.length_nil] at hlen
  omega

theorem Reads.flush (h : p.Reads c j loaded M n) (hstage : p.stage = .polling) :
    p.flush.Follows c j loaded M n := by
  rw [ShardProcess.flush]
  split_ifs with hflushed
  · refine ⟨h, fun hne => absurd hstage hne, fun hclosing => ?_, fun _ _ _ => hflushed.1⟩
    rw [hstage] at hclosing
    cases hclosing
  · have hreads : Reads { p with stage := .flushing } c j loaded M n :=
      ⟨h.tracks, h.ready, h.shardId, h.batch, h.trades, h.ahead, h.all⟩
    exact ⟨hreads, fun _ hnil => hflushed (h.flushed_iff.2 hnil), fun hclosing => (by cases hclosing),
      fun _ hpolling => (by cases hpolling)⟩

theorem Reads.close (h : p.Reads c j loaded M n) (hstop : p.stop = true) :
    ∀ q ∈ p.close, q.Follows c j loaded M n := by
  intro q hq
  rw [ShardProcess.close] at hq
  split_ifs at hq with hflushed
  · cases hq
  · obtain rfl := Option.some.inj hq
    have hreads : Reads { p with stage := .closing } c j loaded M n :=
      ⟨h.tracks, h.ready, h.shardId, h.batch, h.trades, h.ahead, h.all⟩
    exact ⟨hreads, fun _ hnil => hflushed (h.flushed_iff.2 hnil), fun _ => hstop,
      fun _ hpolling => (by cases hpolling)⟩

/-- **A turn that finds a record.** -/
theorem Reads.poll_record (hl : j.Laid c.journal) (h : p.Reads c j loaded M n)
    (hstage : p.stage = .polling) (hstop : p.stop = false) (hn : n < j.entries.length) :
    ∃ q, p.poll c = some (some q) ∧ q.Follows c j loaded M (n + 1) ∧ q.stop = false ∧
      q.tailer.needsReseek = false ∧ (c.batchSize ≤ 1 → q.stage = .flushing) := by
  obtain ⟨L, htracks, hL⟩ := h.tracks
  obtain ⟨L', hL', ⟨e, he, hres, htracks'⟩ | ⟨heq, -⟩⟩ := htracks.next_settled hl hL
  swap
  · omega
  have hreseek := JournalTailer.needsReseek_of_ok hres
  obtain ⟨tailer, htailer⟩ : ∃ tailer, p.tailer.next c.journal = (.ok e, tailer) :=
    ⟨_, Prod.ext hres rfl⟩
  rw [htailer] at htracks' hreseek
  obtain ⟨ts, b, -, hready, happly⟩ := h.ready.apply e
  obtain ⟨k, hkM, hkn, hbatch⟩ := h.batch
  obtain ⟨p', hp'⟩ : ∃ p' : ShardProcess, p' = { p with
    tailer := tailer
    replayer := { p.replayer with book := b }
    batch := p.batch.append ⟨[.of p.replayer.shardId e],
      ts.map (.of p.replayer.shardId e.seq)⟩ } := ⟨_, rfl⟩
  have hpoll : p.poll c = some (some
      (if c.batchSize ≤ p'.batch.orderEvents.length then p'.flush else p')) := by
    rw [hp', poll, hstop, htailer]
    change (p.replayer.apply e).bind _ = _
    rw [happly]
    rfl
  have hevents : p'.batch.orderEvents = p.batch.orderEvents ++ [.of c.shardId e] := by
    rw [hp', ← h.shardId]
    rfl
  have hne : p'.batch.orderEvents ≠ [] := by
    rw [hevents]
    exact List.append_ne_nil_of_right_ne_nil _ (List.cons_ne_nil _ _)
  have hreads : p'.Reads c j loaded M (n + 1) := by
    refine ⟨⟨L', ?_, hL'⟩, ?_, ?_, ⟨k, hkM, hkn.trans (Nat.le_succ n), ?_⟩, fun hnil => absurd hnil hne,
      fun hloaded => (h.ahead hloaded).trans (Nat.le_succ n), fun htrue => ?_⟩
    · rw [hp']
      exact htracks'
    · rw [hp']
      exact hready
    · rw [hp']
      exact h.shardId
    · rw [hevents, hbatch, List.take_add_one, he, Option.toList_some,
        List.drop_append_of_le_length (by rw [List.length_take]; omega), List.map_append]
      rfl
    · rw [hp', hreseek] at htrue
      cases htrue
  have hstage' : p'.stage = .polling := by rw [hp']; exact hstage
  have hstop' : p'.stop = false := by rw [hp']; exact hstop
  have hreseek' : p'.tailer.needsReseek = false := by rw [hp']; exact hreseek
  have hbusy : p'.flush = { p' with stage := .flushing } := if_neg fun hflushed => hne hflushed.1
  refine ⟨_, hpoll, ?_⟩
  split_ifs with hsize
  · refine ⟨hreads.flush hstage', ?_⟩
    rw [hbusy]
    exact ⟨hstop', hreseek', fun _ => rfl⟩
  · refine ⟨⟨hreads, fun hpolling => absurd hstage' hpolling, fun hclosing => ?_, fun htrue => ?_⟩,
      hstop', hreseek', fun hone => absurd (hone.trans ?_) hsize⟩
    · rw [hstage'] at hclosing
      cases hclosing
    · rw [hreseek'] at htrue
      cases htrue
    · exact List.length_pos_of_ne_nil hne

/-- A turn that finds none. -/
theorem Reads.poll_nothing (hl : j.Laid c.journal) (h : p.Reads c j loaded M n)
    (hstage : p.stage = .polling) (hstop : p.stop = false) (hn : n = j.entries.length) :
    ∃ q, p.poll c = some (some q) ∧ q.Follows c j loaded M n ∧ q.stop = false ∧
      q.tailer.needsReseek = true ∧ (p.Flushed → q.stage = .polling) := by
  obtain ⟨L, htracks, hL⟩ := h.tracks
  obtain ⟨L', hL', ⟨e, he, -⟩ | ⟨-, hres, htracks', hreseek⟩⟩ := htracks.next_settled hl hL
  · have hlt := (List.getElem?_eq_some_iff.1 he).1
    omega
  obtain ⟨tailer, htailer⟩ : ∃ tailer, p.tailer.next c.journal = (.notYet, tailer) :=
    ⟨_, Prod.ext hres rfl⟩
  rw [htailer] at htracks' hreseek
  have hpoll : p.poll c = some (some { p with tailer := tailer }.flush) := by
    rw [poll, hstop, htailer]
    rfl
  have hreads : Reads { p with tailer := tailer } c j loaded M n :=
    ⟨⟨L', htracks', hL'⟩, h.ready, h.shardId, h.batch, h.trades, h.ahead, fun _ => hn⟩
  refine ⟨_, hpoll, hreads.flush hstage, ?_⟩
  rw [ShardProcess.flush]
  split_ifs with hflushed
  · exact ⟨hstop, hreseek, fun _ => hstage⟩
  · exact ⟨hstop, hreseek, fun h' => absurd h' hflushed⟩

/-- **A turn of the loop.** -/
theorem Follows.poll (hl : j.Laid c.journal) (h : p.Follows c j loaded M n)
    (hstage : p.stage = .polling) :
    ∃ p', p.poll c = some p' ∧ ∀ q ∈ p', ∃ n', q.Follows c j loaded M n' := by
  cases hstop : p.stop with
  | true =>
    refine ⟨p.close, ?_, fun q hq => ⟨n, h.toReads.close hstop q hq⟩⟩
    rw [ShardProcess.poll, hstop]
    rfl
  | false =>
    rcases h.le.lt_or_eq with hlt | heq
    · obtain ⟨q, hpoll, hq, -⟩ := h.toReads.poll_record hl hstage hstop hlt
      exact ⟨_, hpoll, fun q' hq' => ⟨n + 1, Option.some.inj hq' ▸ hq⟩⟩
    · obtain ⟨q, hpoll, hq, -⟩ := h.toReads.poll_nothing hl hstage hstop heq
      exact ⟨_, hpoll, fun q' hq' => ⟨n, Option.some.inj hq' ▸ hq⟩⟩

/-- The table has grown. -/
theorem Reads.mono (h : p.Reads c j loaded M n) {M' : Nat} (hM : M ≤ M') (hahead : loaded → M' ≤ n) :
    p.Reads c j loaded M' n := by
  obtain ⟨k, hk, hkn, hbatch⟩ := h.batch
  exact ⟨h.tracks, h.ready, h.shardId, ⟨k, hk.trans hM, hkn, hbatch⟩, h.trades, hahead, h.all⟩

/-- **An attempt to write**, after which the table has `M'` records. -/
theorem Follows.tried (h : p.Follows c j loaded M n) (a : Attempt) {M' : Nat} (hM : M ≤ M')
    (hahead : loaded → M' ≤ n) (hwritten : a = .written → n ≤ M') :
    ∀ q ∈ p.tried a, q.Follows c j loaded M' n := by
  have hreads := h.toReads.mono hM hahead
  intro q hq
  rw [ShardProcess.tried] at hq
  split_ifs at hq with hover hclosing ha
  · cases hq
  · obtain rfl := Option.some.inj hq
    refine ⟨⟨hreads.tracks, hreads.ready, hreads.shardId, ⟨n, hwritten ha, le_rfl, ?_⟩,
      fun _ => rfl, hahead, hreads.all⟩, fun hne => absurd rfl hne, fun hc => (by cases hc),
      fun _ _ _ => rfl⟩
    rw [List.drop_eq_nil_of_le (List.length_take_le ..)]
    rfl
  · obtain rfl := Option.some.inj hq
    refine ⟨⟨hreads.tracks, hreads.ready, hreads.shardId, hreads.batch, hreads.trades, hahead,
      hreads.all⟩, fun hne => absurd rfl hne, fun hc => (by cases hc), fun _ _ hrunning => ?_⟩
    rw [hover.resolve_left ha] at hrunning
    cases hrunning
  · obtain rfl := Option.some.inj hq
    exact ⟨hreads, h.flushing, h.closing, h.written⟩

/-- A process that starts from the beginning, or behind the first `n` records. -/
theorem follows_start {b : OrderBook} (hb : OrderBook.create c.book = some b)
    (hl : j.Laid c.journal) (hstub : j.stub = none) {cp : Checkpoint}
    (hcp : (cp = .empty ∧ n = 0) ∨ (cp.Marks j n ∧ 0 < n)) (hM : n ≤ M) (hahead : loaded → M ≤ n) :
    ∃ p, start c cp = some p ∧ p.Follows c j loaded M n ∧ p.stage = .polling ∧ p.stop = false := by
  have hstart : start c cp = some ⟨JournalTailer.create c.journal cp, ⟨c.shardId, b, c.book.maxOrders⟩,
      ⟨[], []⟩, .polling, false⟩ := by
    rw [start, AuditReplayer.create_eq hb]
    rfl
  have htracks : (JournalTailer.create c.journal cp).TracksIn j j.names.length n := by
    rcases hcp with ⟨rfl, rfl⟩ | ⟨hmarks, hn⟩
    · exact JournalTailer.tracks_create hl fun _ => hstub
    · exact JournalTailer.tracks_resumed hl hmarks hn
  have hreseek : (JournalTailer.create c.journal cp).needsReseek = false := by
    rw [JournalTailer.create]
    split <;> rfl
  have hnames : j.segments.length ≤ j.names.length := by
    rw [Journal.names, List.length_map, Journal.length_files]
    exact Nat.le_add_right ..
  refine ⟨_, hstart, ⟨⟨⟨_, htracks, hnames⟩, AuditReplayer.ready_create hb c.shardId, rfl,
    ⟨n, hM, le_rfl, ?_⟩, fun _ => rfl, hahead, fun htrue => ?_⟩, fun hne => absurd rfl hne,
    fun hclosing => (by cases hclosing), fun _ _ _ => rfl⟩, rfl, rfl⟩
  · rw [List.drop_eq_nil_of_le (List.length_take_le ..)]
    rfl
  · rw [hreseek] at htrue
    cases htrue

/-- How many rounds of the loop it takes at most until the process has nothing to do. -/
def distance (p : ShardProcess) (j : Journal) (n : Nat) : Nat :=
  if p.tailer.needsReseek then if p.stage = .polling then 0 else 1
  else j.entries.length - n + 2

end ShardProcess

/-! ## Steps and runs -/

namespace ShardSystem

variable {s : ShardSystem} {p : ShardProcess} {c : ShardConfig} {j : Journal} {loaded : Prop}
  {M n : Nat} {b : OrderBook}

theorem Covers.lastGlobalSeq_le (h : s.Covers c j loaded M) :
    s.postgres.lastGlobalSeq c.shardId ≤ M := by
  rcases h.checkpoint with ⟨hnone, rfl⟩ | ⟨cp, n, hcp, ⟨i, m, t, -, -, -, rfl⟩, -, hn, -⟩
  · rw [Postgres.lastGlobalSeq, hnone]
    exact le_rfl
  · rw [Postgres.lastGlobalSeq, hcp]
    exact Int.ofNat_le.2 hn

theorem Covers.lastGlobalSeq_eq (h : s.Covers c j loaded M) (hloaded : loaded) :
    s.postgres.lastGlobalSeq c.shardId = M := by
  rcases h.checkpoint with ⟨hnone, rfl⟩ | ⟨cp, n, hcp, ⟨i, m, t, -, -, -, rfl⟩, -, -, hn⟩
  · rw [Postgres.lastGlobalSeq, hnone]
    rfl
  · rw [Postgres.lastGlobalSeq, hcp, ← hn hloaded]
    rfl

/-- **A transaction**: the table then has all that the process has read. -/
theorem Covers.commit (hl : j.Laid c.journal) (h : s.Covers c j loaded M) (hp : s.process = some p)
    (hf : p.Follows c j loaded M n) (hstage : p.stage ≠ .polling) {a : Attempt} (ha : a ≠ .lost) :
    ∃ s', s.step c (.attempt a) = some s' ∧ s'.Covers c j loaded (max M n) ∧
      s'.process = p.tried a ∧ s'.postgres.lastGlobalSeq c.shardId = n := by
  obtain ⟨k, hk, -, hbatch⟩ := hf.batch
  obtain ⟨L, htracks, -⟩ := hf.tracks
  have hn : 0 < n := by
    rw [Nat.pos_iff_ne_zero]
    rintro rfl
    refine hf.flushing hstage ?_
    rw [hbatch, List.take_zero, List.drop_nil]
    rfl
  have hmarks := htracks.marks hn
  have hstep : s.step c (.attempt a) =
      some ⟨s.postgres.writeBatch c.shardId p.batch p.tailer.checkpoint, p.tried a⟩ := by
    rw [step, hp]
    simp only [if_neg hstage, if_neg ha]
  refine ⟨_, hstep, ⟨max_le h.le hf.le, rowsOf_writeBatch_window hl.wf hk h.rows hbatch, .inr
    ⟨_, n, Function.update_self .., hmarks, hn, le_max_right .., fun hloaded => ?_⟩, fun q hq =>
      ⟨n, hf.tried a (le_max_left ..) (fun hloaded => ?_) (fun _ => le_max_right ..) q hq⟩⟩, rfl, ?_⟩
  · exact (max_eq_right (hf.ahead hloaded)).symm
  · exact (max_eq_right (hf.ahead hloaded)).le
  · obtain ⟨i, m, t, -, -, -, hcp⟩ := hmarks
    simp only [Postgres.lastGlobalSeq, Postgres.writeBatch, Function.update_self, hcp,
      Option.elim_some]

/-- **A start** from the checkpoint, or from the beginning. -/
theorem Covers.start (hb : OrderBook.create c.book = some b) (hl : j.Laid c.journal)
    (hstub : j.stub = none) (h : s.Covers c j loaded M) (hp : s.process = none) (ok : Bool)
    (hok : loaded → ok = true) : ∃ s' p n, s.step c (.start ok) = some s' ∧ s'.Covers c j loaded M ∧
      s'.process = some p ∧ p.Follows c j loaded M n ∧ p.stage = .polling ∧ p.stop = false ∧
      n ≤ M ∧ (ok = false → n = 0) := by
  obtain ⟨cp, hcp⟩ : ∃ cp, cp =
    if ok then (s.postgres.checkpoints c.shardId).getD .empty else Checkpoint.empty := ⟨_, rfl⟩
  obtain ⟨n, hfrom, hM, hahead, hzero⟩ : ∃ n, ((cp = .empty ∧ n = 0) ∨ (cp.Marks j n ∧ 0 < n)) ∧
      n ≤ M ∧ (loaded → M ≤ n) ∧ (ok = false → n = 0) := by
    cases ok with
    | false => exact ⟨0, .inl ⟨hcp, rfl⟩, Nat.zero_le _, fun hloaded => (by cases hok hloaded), fun _ => rfl⟩
    | true =>
      rcases h.checkpoint with ⟨hnone, rfl⟩ | ⟨cp', n, hsome, hmarks, hn, hM, heq⟩
      · rw [if_pos rfl, hnone] at hcp
        exact ⟨0, .inl ⟨hcp, rfl⟩, le_rfl, fun _ => le_rfl, fun _ => rfl⟩
      · rw [if_pos rfl, hsome] at hcp
        obtain rfl : cp = cp' := hcp
        exact ⟨n, .inr ⟨hmarks, hn⟩, hM, fun hloaded => (heq hloaded).ge, fun hfalse => (by cases hfalse)⟩
  obtain ⟨p, hstart, hf, hstage, hstop⟩ := ShardProcess.follows_start hb hl hstub hfrom hM hahead
  have hstep : s.step c (.start ok) = some { s with process := some p } := by
    rw [step, hp]
    simp only [← hcp, hstart, Option.bind_eq_bind, Option.bind_some]
  exact ⟨_, p, n, hstep, ⟨h.le, h.rows, h.checkpoint, fun q hq => ⟨n, Option.some.inj hq ▸ hf⟩⟩,
    rfl, hf, hstage, hstop, hM, hzero⟩

/-- **A step** keeps what is in the table. -/
theorem Covers.step (hb : OrderBook.create c.book = some b) (hl : j.Laid c.journal)
    (hstub : j.stub = none) (h : s.Covers c j loaded M) {a : ShardAction}
    (ha : loaded → a ≠ .start false) :
    ∃ s' M', s.step c a = some s' ∧ M ≤ M' ∧ s'.Covers c j loaded M' := by
  have hstay : ∃ s' M', some s = some s' ∧ M ≤ M' ∧ s'.Covers c j loaded M' :=
    ⟨s, M, rfl, le_rfl, h⟩
  cases a with
  | start ok =>
    cases hp : s.process with
    | some p =>
      rw [ShardSystem.step, hp]
      exact hstay
    | none =>
      obtain ⟨s', -, -, hstep, h', -⟩ := h.start hb hl hstub hp ok fun hloaded => by
        cases ok with
        | true => rfl
        | false => exact absurd rfl (ha hloaded)
      exact ⟨s', M, hstep, le_rfl, h'⟩
  | poll =>
    cases hp : s.process with
    | none =>
      rw [ShardSystem.step, hp]
      exact hstay
    | some p =>
      obtain ⟨n, hf⟩ := h.process p hp
      by_cases hstage : p.stage = .polling
      · obtain ⟨p', hpoll, hf'⟩ := hf.poll hl hstage
        refine ⟨{ s with process := p' }, M, ?_, le_rfl, h.le, h.rows, h.checkpoint, hf'⟩
        rw [ShardSystem.step, hp]
        simp only [if_pos hstage, hpoll, Option.bind_eq_bind, Option.bind_some]
      · rw [ShardSystem.step, hp]
        simp only [if_neg hstage]
        exact hstay
  | attempt a =>
    cases hp : s.process with
    | none =>
      rw [ShardSystem.step, hp]
      exact hstay
    | some p =>
      obtain ⟨n, hf⟩ := h.process p hp
      by_cases hstage : p.stage = .polling
      · rw [ShardSystem.step, hp]
        simp only [if_pos hstage]
        exact hstay
      · by_cases hlost : a = .lost
        · refine ⟨⟨s.postgres, p.tried a⟩, M, ?_, le_rfl, h.le, h.rows, h.checkpoint, fun q hq =>
            ⟨n, hf.tried a le_rfl hf.ahead (fun hwritten => ?_) q hq⟩⟩
          · rw [ShardSystem.step, hp]
            simp only [if_neg hstage, if_pos hlost]
          · rw [hlost] at hwritten
            cases hwritten
        · obtain ⟨s', hstep, h', -⟩ := h.commit hl hp hf hstage hlost
          exact ⟨s', _, hstep, le_max_left .., h'⟩
  | signal =>
    refine ⟨_, M, rfl, le_rfl, h.le, h.rows, h.checkpoint, fun q hq => ?_⟩
    obtain ⟨p, hp, rfl⟩ := Option.map_eq_some_iff.1 hq
    obtain ⟨n, hf⟩ := h.process p hp
    exact ⟨n, ⟨hf.tracks, hf.ready, hf.shardId, hf.batch, hf.trades, hf.ahead, hf.all⟩, hf.flushing,
      fun _ => rfl, fun _ _ hrunning => (by cases hrunning)⟩
  | crash => exact ⟨_, M, rfl, le_rfl, h.le, h.rows, h.checkpoint, fun q hq => (by cases hq)⟩
  | other shardId rows cp =>
    rw [ShardSystem.step]
    split_ifs with hother
    · refine ⟨_, M, rfl, le_rfl, h.le, ?_, ?_, h.process⟩
      · have hnil : rows.orderEvents.filter (fun r => decide (r.shardId = c.shardId)) = [] := by
          rw [List.filter_eq_nil_iff]
          intro r hr heq
          exact hother.1 ((hother.2.1 r hr).symm.trans (of_decide_eq_true heq))
        rw [rowsOf_writeBatch, hnil]
        exact h.rows
      · have hsame : (s.postgres.writeBatch shardId rows cp).checkpoints c.shardId =
            s.postgres.checkpoints c.shardId := Function.update_of_ne hother.1.symm ..
        rw [hsame]
        exact h.checkpoint
    · exact hstay

theorem run_cons (s : ShardSystem) (c : ShardConfig) (a : ShardAction) (as : List ShardAction) :
    s.run c (a :: as) = (s.step c a).bind (run c · as) := rfl

theorem run_append (s : ShardSystem) (c : ShardConfig) (as bs : List ShardAction) :
    s.run c (as ++ bs) = (s.run c as).bind (run c · bs) := by
  induction as generalizing s with
  | nil => rfl
  | cons a as ih =>
    rw [List.cons_append, run_cons, run_cons]
    cases s.step c a with
    | none => rfl
    | some s' => exact ih s'

theorem Covers.run (hb : OrderBook.create c.book = some b) (hl : j.Laid c.journal)
    (hstub : j.stub = none) (h : s.Covers c j loaded M) (as : List ShardAction)
    (has : loaded → ∀ a ∈ as, a ≠ .start false) :
    ∃ s' M', s.run c as = some s' ∧ M ≤ M' ∧ s'.Covers c j loaded M' := by
  induction as generalizing s M with
  | nil => exact ⟨s, M, rfl, le_rfl, h⟩
  | cons a as ih =>
    obtain ⟨s₁, M₁, hstep, hM₁, h₁⟩ := h.step hb hl hstub (a := a) fun hloaded =>
      has hloaded a List.mem_cons_self
    obtain ⟨s', M', hrun, hM', h'⟩ := ih h₁ fun hloaded a' ha' =>
      has hloaded a' (List.mem_cons_of_mem _ ha')
    refine ⟨s', M', ?_, hM₁.trans hM', h'⟩
    rw [run_cons, hstep]
    exact hrun

/-! ## Without further failures -/

/-- The last turn of the loop has found nothing, and there is nothing to write. -/
def Idle (s : ShardSystem) : Prop :=
  ∃ p ∈ s.process, p.stage = .polling ∧ p.stop = false ∧ p.tailer.needsReseek = true

theorem Covers.idle (h : s.Covers c j loaded M) (hs : s.Idle) : M = j.entries.length := by
  obtain ⟨p, hp, hstage, hstop, hreseek⟩ := hs
  obtain ⟨n, hf⟩ := h.process p hp
  have hle := hf.le_of_nil (hf.written hreseek hstage hstop)
  rw [hf.all hreseek] at hle
  exact Nat.le_antisymm h.le hle

/-- What a process does next if nothing fails: a batch that waits is written, and the loop turns. -/
def round : List ShardAction := [.attempt .written, .poll]

def rounds (k : Nat) : List ShardAction := (List.replicate k round).flatten

/-- The turn of the loop, for the system. -/
theorem Covers.poll_some (h : s.Covers c j loaded M) (hp : s.process = some p)
    (hstage : p.stage = .polling) {q : ShardProcess} (hpoll : p.poll c = some (some q))
    (hq : q.Follows c j loaded M n) : s.step c .poll = some { s with process := some q } ∧
      Covers { s with process := some q } c j loaded M := by
  refine ⟨?_, h.le, h.rows, h.checkpoint, fun q' hq' => ⟨n, Option.some.inj hq' ▸ hq⟩⟩
  rw [ShardSystem.step, hp]
  simp only [if_pos hstage, hpoll, Option.bind_eq_bind, Option.bind_some]

/-- A batch that waits is written. -/
theorem Covers.attempt_written (hl : j.Laid c.journal) (h : s.Covers c j loaded M)
    (hp : s.process = some p) (hf : p.Follows c j loaded M n) (hstop : p.stop = false) :
    ∃ s' q M', s.step c (.attempt .written) = some s' ∧ s'.Covers c j loaded M' ∧
      s'.process = some q ∧ q.Follows c j loaded M' n ∧ q.stage = .polling ∧ q.stop = false ∧
      q.tailer = p.tailer := by
  by_cases hstage : p.stage = .polling
  · refine ⟨s, p, M, ?_, h, hp, hf, hstage, hstop, rfl⟩
    rw [ShardSystem.step, hp]
    simp only [if_pos hstage]
  · obtain ⟨s', hstep, h', hp', -⟩ := h.commit hl hp hf hstage (a := .written) (by decide)
    have hclosing : p.stage ≠ .closing := fun hc => by
      rw [hf.closing hc] at hstop
      cases hstop
    have htried : p.tried .written = some { p with batch := ⟨[], []⟩, stage := .polling } := by
      simp only [ShardProcess.tried, true_or, if_true, if_neg hclosing]
    rw [htried] at hp'
    have hsame := hf.tried .written (le_max_left M n)
      (fun hloaded => (max_eq_right (hf.ahead hloaded)).le) (fun _ => le_max_right ..) _ htried
    exact ⟨s', _, _, hstep, h', hp', hsame, rfl, hstop, rfl⟩

/-- **A round** brings the process nearer to being idle. -/
theorem Covers.round (hl : j.Laid c.journal) (h : s.Covers c j loaded M) (hp : s.process = some p)
    (hf : p.Follows c j loaded M n) (hstop : p.stop = false) :
    ∃ s' q M' n', s.run c round = some s' ∧ s'.Covers c j loaded M' ∧ s'.process = some q ∧
      q.Follows c j loaded M' n' ∧ q.stop = false ∧ q.distance j n' ≤ p.distance j n - 1 := by
  obtain ⟨s₁, p₁, M₁, hstep₁, h₁, hp₁, hf₁, hstage₁, hstop₁, htailer⟩ :=
    h.attempt_written hl hp hf hstop
  have hrun : ∀ {s'}, s₁.step c .poll = some s' → s.run c ShardSystem.round = some s' := by
    intro s' hstep
    rw [ShardSystem.round, run_cons, hstep₁, Option.bind_some, run_cons, hstep]
    rfl
  rcases hf₁.le.lt_or_eq with hlt | heq
  · obtain ⟨q, hpoll, hq, hstopq, hreseek, -⟩ := hf₁.toReads.poll_record hl hstage₁ hstop₁ hlt
    obtain ⟨hstep, hcovers⟩ := h₁.poll_some hp₁ hstage₁ hpoll hq
    refine ⟨_, q, M₁, n + 1, hrun hstep, hcovers, rfl, hq, hstopq, ?_⟩
    have hbefore : p.tailer.needsReseek = false := by
      cases htrue : p.tailer.needsReseek with
      | false => rfl
      | true => exact absurd (hf.all htrue) hlt.ne
    rw [ShardProcess.distance, ShardProcess.distance, hreseek, hbefore]
    simp only [Bool.false_eq_true, if_false]
    omega
  · obtain ⟨q, hpoll, hq, hstopq, hreseek, hflushed⟩ :=
      hf₁.toReads.poll_nothing hl hstage₁ hstop₁ heq
    obtain ⟨hstep, hcovers⟩ := h₁.poll_some hp₁ hstage₁ hpoll hq
    refine ⟨_, q, M₁, n, hrun hstep, hcovers, rfl, hq, hstopq, ?_⟩
    rw [ShardProcess.distance, ShardProcess.distance, hreseek, if_pos rfl]
    cases htrue : p.tailer.needsReseek with
    | false =>
      rw [if_neg Bool.false_ne_true]
      split_ifs <;> omega
    | true =>
      have hnil := hf₁.written (by rw [htailer]; exact htrue) hstage₁ hstop₁
      rw [if_pos (hflushed (hf₁.flushed_iff.2 hnil))]
      exact Nat.zero_le _

theorem Covers.rounds (hl : j.Laid c.journal) (h : s.Covers c j loaded M) (hp : s.process = some p)
    (hf : p.Follows c j loaded M n) (hstop : p.stop = false) (k : Nat) :
    ∃ s' q M' n', s.run c (rounds k) = some s' ∧ s'.Covers c j loaded M' ∧ s'.process = some q ∧
      q.Follows c j loaded M' n' ∧ q.stop = false ∧ q.distance j n' ≤ p.distance j n - k := by
  induction k generalizing s p M n with
  | zero => exact ⟨s, p, M, n, rfl, h, hp, hf, hstop, le_rfl⟩
  | succ k ih =>
    obtain ⟨s₁, p₁, M₁, n₁, hrun₁, h₁, hp₁, hf₁, hstop₁, hdist₁⟩ := h.round hl hp hf hstop
    obtain ⟨s', q, M', n', hrun, h', hq, hf', hstop', hdist⟩ := ih h₁ hp₁ hf₁ hstop₁
    refine ⟨s', q, M', n', ?_, h', hq, hf', hstop', by omega⟩
    rw [ShardSystem.rounds, List.replicate_succ, List.flatten_cons, run_append, hrun₁]
    exact hrun

/-- **A process that nothing happens to** becomes idle. -/
theorem Covers.becomes_idle (hl : j.Laid c.journal) (h : s.Covers c j loaded M)
    (hp : s.process = some p) (hstop : p.stop = false) {k : Nat} (hk : j.entries.length + 2 ≤ k) :
    ∃ s' M', s.run c (ShardSystem.rounds k) = some s' ∧ s'.Covers c j loaded M' ∧ s'.Idle := by
  obtain ⟨n, hf⟩ := h.process p hp
  obtain ⟨s', q, M', n', hrun, h', hq, hf', hstop', hdist⟩ := h.rounds hl hp hf hstop k
  have hzero : q.distance j n' = 0 := by
    have hle : p.distance j n ≤ j.entries.length + 2 := by
      rw [ShardProcess.distance]
      split_ifs <;> omega
    omega
  rw [ShardProcess.distance] at hzero
  split_ifs at hzero with hreseek hstage
  · exact ⟨s', M', hrun, h', q, hq, hstage, hstop', hreseek⟩

/-! ## Exactly once -/

theorem covers_start {pg : Postgres} (hrows : pg.rowsOf c.shardId = [])
    (hcheckpoint : pg.checkpoints c.shardId = none) (loaded : Prop) :
    Covers ⟨pg, none⟩ c j loaded 0 :=
  ⟨Nat.zero_le _, hrows, .inl ⟨hcheckpoint, rfl⟩, fun p hp => (by cases hp)⟩

/-- **Every row once**: whatever fails, and wherever the process stops or is started again, the table
has the rows of the first records of the journal, one for each, and no other row; none is ever lost.
They are at least as many as the checkpoint says, and just as many if no process has started without
its checkpoint. A process that is idle has written all, and a process that nothing happens to
becomes idle. -/
theorem order_events_once (rollBytes : Nat) (policy : FsyncPolicy) (groupSize : Nat)
    (cmds : List Command) (hsmall : cmds.length + 1 < 10 ^ 16)
    (hc : c.journal = JournalWriter.written rollBytes policy groupSize (journalOf 0 cmds))
    (hb : OrderBook.create c.book = some b) (pg : Postgres) (hrows : pg.rowsOf c.shardId = [])
    (hcheckpoint : pg.checkpoints c.shardId = none) (actions : List ShardAction) :
    ∃ s, run c ⟨pg, none⟩ actions = some s ∧
      (∃ M ≤ cmds.length,
        s.postgres.rowsOf c.shardId = ((journalOf 0 cmds).take M).map (.of c.shardId) ∧
        s.postgres.lastGlobalSeq c.shardId ≤ M ∧
        ((∀ a ∈ actions, a ≠ .start false) → s.postgres.lastGlobalSeq c.shardId = M)) ∧
      (∀ before, before <+: actions → ∃ s₀, run c ⟨pg, none⟩ before = some s₀ ∧
        s₀.postgres.rowsOf c.shardId <+: s.postgres.rowsOf c.shardId) ∧
      (s.Idle → s.postgres.rowsOf c.shardId = (journalOf 0 cmds).map (.of c.shardId)) ∧
      ∀ p ∈ s.process, p.stop = false → ∀ k, cmds.length + 2 ≤ k →
        ∃ s', s.run c (rounds k) = some s' ∧ s'.Idle ∧
          s'.postgres.rowsOf c.shardId = (journalOf 0 cmds).map (.of c.shardId) := by
  obtain ⟨ss, hl, hentries⟩ := JournalWriter.laid_written rollBytes policy groupSize
    (journalOf_numbered 0 cmds) (by rw [journalOf_length]; exact hsmall)
  rw [← hc] at hl
  have hlen : (Journal.entries ⟨ss, none⟩).length = cmds.length := by
    rw [hentries, journalOf_length]
  obtain ⟨loaded, hloaded⟩ : ∃ loaded, loaded = ∀ a ∈ actions, a ≠ ShardAction.start false :=
    ⟨_, rfl⟩
  have h₀ : Covers ⟨pg, none⟩ c ⟨ss, none⟩ loaded 0 := covers_start hrows hcheckpoint loaded
  obtain ⟨s, M, hrun, -, h⟩ := h₀.run hb hl rfl actions fun hall => hloaded ▸ hall
  have hall : ∀ {s' : ShardSystem} {M' : Nat}, s'.Covers c ⟨ss, none⟩ loaded M' → s'.Idle →
      s'.postgres.rowsOf c.shardId = (journalOf 0 cmds).map (.of c.shardId) := by
    intro s' M' h' hidle
    rw [h'.rows, h'.idle hidle, List.take_length, hentries]
  refine ⟨s, hrun, ⟨M, hlen ▸ h.le, hentries ▸ h.rows, h.lastGlobalSeq_le, fun hstarts =>
    h.lastGlobalSeq_eq (hloaded ▸ hstarts)⟩, ?_, hall h, ?_⟩
  · rintro before ⟨after, rfl⟩
    obtain ⟨s₀, M₀, hrun₀, -, h₀'⟩ := h₀.run hb hl rfl before fun hloaded' a ha =>
      (hloaded ▸ hloaded') a (List.mem_append_left _ ha)
    obtain ⟨s₁, M₁, hrun₁, hM, h₁⟩ := h₀'.run hb hl rfl after fun hloaded' a ha =>
      (hloaded ▸ hloaded') a (List.mem_append_right _ ha)
    rw [run_append, hrun₀] at hrun
    obtain rfl := Option.some.inj (hrun.symm.trans hrun₁)
    refine ⟨s₀, hrun₀, ?_⟩
    rw [h₀'.rows, h₁.rows]
    exact (List.take_prefix_take_left hM).map _
  · intro p hp hstop k hk
    obtain ⟨s', M', hrun', h', hidle⟩ := h.becomes_idle hl hp hstop (hlen ▸ hk)
    exact ⟨s', hrun', hidle, hall h' hidle⟩

/-- A shard with two records, which are written one by one. -/
def twoCommands : List Command :=
  [⟨1, 0, 110, 5, 1, 0, .sell, .limit, 0⟩, ⟨2, 0, 110, 5, 2, 0, .buy, .limit, 0⟩]

def twoRecords : ShardConfig :=
  ⟨OrderBook.smallConfig, 1, 1, JournalWriter.written 256 .perRecord 1 (journalOf 0 twoCommands)⟩

theorem order_events_once_twoRecords : ∃ s,
    run twoRecords ⟨⟨[], [], fun _ => none⟩, none⟩ [.start true, .signal, .start false] = some s ∧
      ∃ M ≤ 2, s.postgres.rowsOf 1 = ((journalOf 0 twoCommands).take M).map (.of 1) ∧
        s.postgres.lastGlobalSeq 1 ≤ M := by
  obtain ⟨s, hrun, ⟨M, hM, hrows, hlast, -⟩, -⟩ := order_events_once (c := twoRecords) 256 .perRecord 1
    twoCommands (by decide) rfl (Option.some_get (by decide)).symm ⟨[], [], fun _ => none⟩ rfl rfl [.start true, .signal, .start false]
  exact ⟨s, hrun, M, hM, hrows, hlast⟩

/-- With batches of one, a record is read and written. -/
theorem Covers.ingest (hl : j.Laid c.journal) (h : s.Covers c j loaded M) (hp : s.process = some p)
    (hf : p.Follows c j loaded M n) (hstage : p.stage = .polling) (hstop : p.stop = false)
    (hn : n < j.entries.length) (hsize : c.batchSize ≤ 1) :
    ∃ s' q, s.run c [.poll, .attempt .written] = some s' ∧ s'.Covers c j loaded (max M (n + 1)) ∧
      s'.process = some q ∧ q.Follows c j loaded (max M (n + 1)) (n + 1) ∧ q.stage = .polling ∧
      q.stop = false ∧ s'.postgres.lastGlobalSeq c.shardId = (n + 1 : Nat) := by
  obtain ⟨q, hpoll, hq, hstopq, -, hflushing⟩ := hf.toReads.poll_record hl hstage hstop hn
  obtain ⟨hstep, hcovers⟩ := h.poll_some hp hstage hpoll hq
  have hstageq := hflushing hsize
  obtain ⟨s', hstep', h', hp', hlast⟩ := hcovers.commit hl rfl hq
    (by rw [hstageq]; decide) (a := .written) (by decide)
  have htried : q.tried .written = some { q with batch := ⟨[], []⟩, stage := .polling } := by
    simp only [ShardProcess.tried, true_or, if_true, hstageq]
    rfl
  refine ⟨s', _, ?_, h', hp'.trans htried, ?_, rfl, hstopq, hlast⟩
  · rw [run_cons, hstep, Option.bind_some, run_cons, hstep']
    rfl
  · exact hq.tried .written (le_max_left ..) (fun hloaded => (max_eq_right (hq.ahead hloaded)).le)
      (fun _ => le_max_right ..) _ htried

/-- Two records are written, and then a process starts without its checkpoint. -/
theorem checkpoint_taken_back : ∃ s,
    run twoRecords ⟨⟨[], [], fun _ => none⟩, none⟩ [.start true, .poll, .attempt .written, .poll,
      .attempt .written, .crash, .start false, .poll, .attempt .written] = some s ∧
      s.postgres.rowsOf 1 = (journalOf 0 twoCommands).map (.of 1) ∧
      s.postgres.lastGlobalSeq 1 = 1 := by
  have hb : OrderBook.create twoRecords.book = some _ := (Option.some_get (by decide)).symm
  obtain ⟨ss, hl, hentries⟩ := JournalWriter.laid_written 256 .perRecord 1
    (journalOf_numbered 0 twoCommands) (by decide)
  have hlen : (Journal.entries ⟨ss, none⟩).length = 2 := by
    rw [hentries]
    rfl
  have h₀ : Covers ⟨⟨[], [], fun _ => none⟩, none⟩ twoRecords ⟨ss, none⟩ False 0 :=
    covers_start rfl rfl False
  -- The first process writes both.
  obtain ⟨s₁, p₁, n₁, hstep₁, h₁, hp₁, hf₁, hstage₁, hstop₁, hn₁, -⟩ :=
    h₀.start hb hl rfl rfl true False.elim
  obtain rfl := Nat.le_zero.1 hn₁
  obtain ⟨s₂, p₂, hrun₂, h₂, hp₂, hf₂, hstage₂, hstop₂, -⟩ :=
    h₁.ingest hl hp₁ hf₁ hstage₁ hstop₁ (by omega) le_rfl
  obtain ⟨s₃, p₃, hrun₃, h₃, -⟩ := h₂.ingest hl hp₂ hf₂ hstage₂ hstop₂ (by omega) le_rfl
  -- The second one begins again.
  have h₄ : Covers ⟨s₃.postgres, none⟩ twoRecords ⟨ss, none⟩ False _ :=
    ⟨h₃.le, h₃.rows, h₃.checkpoint, fun p hp => (by cases hp)⟩
  obtain ⟨s₅, p₅, n₅, hstep₅, h₅, hp₅, hf₅, hstage₅, hstop₅, -, hn₅⟩ :=
    h₄.start hb hl rfl rfl false False.elim
  obtain rfl := hn₅ rfl
  obtain ⟨s₆, p₆, hrun₆, h₆, -, -, -, -, hlast⟩ :=
    h₅.ingest hl hp₅ hf₅ hstage₅ hstop₅ (by omega) le_rfl
  refine ⟨s₆, ?_, ?_, hlast⟩
  · have hactions : ([.start true, .poll, .attempt .written, .poll, .attempt .written, .crash,
        .start false, .poll, .attempt .written] : List ShardAction) =
        .start true :: ([.poll, .attempt .written] ++ ([.poll, .attempt .written] ++
          .crash :: .start false :: [.poll, .attempt .written])) := rfl
    have hcrash : step twoRecords s₃ .crash = some ⟨s₃.postgres, none⟩ := rfl
    rw [hactions, run_cons, hstep₁, Option.bind_some, run_append, hrun₂, Option.bind_some, run_append,
      hrun₃, Option.bind_some, run_cons, hcrash, Option.bind_some, run_cons, hstep₅, Option.bind_some,
      hrun₆]
  · have hrows := h₆.rows
    rw [List.take_of_length_le (by rw [hlen]; decide), hentries] at hrows
    exact hrows

end ShardSystem

end Velox
