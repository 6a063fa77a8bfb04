import Velox.Audit.Replayer
import Velox.Lib.Table

/-!
# Ingest of the audit trail

Following `runShard` and `flush` of `apps/velox_auditd.cpp` and `writeBatch` of
`audit/pg_writer.cpp`: the records that the tailer delivers are applied to the replayer's shadow
book, and the rows are written in batches, each in one transaction with a checkpoint of the tailer.
A batch that fails is tried again until it is written, and a failed attempt leaves the database as
it was, so here every flush writes. The tables keep the first row of a key. The tables of
participants and instruments are not read by any of this, and are left out.

A checkpoint says up to where the journal was read, but the shadow book is not in it. A process that
resumes starts again from an empty book and from the first trade id. What it writes after that are
the trades of the rest of the journal as an empty book makes them, without those whose ids are taken
(`Auditd.restart_same_rows_iff`).
-/

namespace Velox

open QueueBook

def OrderEventRow.key (r : OrderEventRow) : UInt32 × Int := (r.shardId, r.globalSeq)

def TradeRow.key (r : TradeRow) : UInt32 × Int := (r.shardId, r.tradeId)

structure Database where
  orderEvents : List OrderEventRow
  trades : List TradeRow
  /-- The number of the last record that was ingested, for each shard. -/
  checkpoint : UInt32 → Option Int

namespace Database

def empty : Database := ⟨[], [], fun _ => none⟩

def writeBatch (db : Database) (shardId : UInt32) (rows : AuditRows) (lastGoodSeq : Int) :
    Database where
  orderEvents := Table.insertAll OrderEventRow.key db.orderEvents rows.orderEvents
  trades := Table.insertAll TradeRow.key db.trades rows.trades
  checkpoint := Function.update db.checkpoint shardId (some lastGoodSeq)

/-- The two have the same rows. -/
def SameRows (db db' : Database) : Prop :=
  (∀ r, r ∈ db.orderEvents ↔ r ∈ db'.orderEvents) ∧ ∀ r, r ∈ db.trades ↔ r ∈ db'.trades

/-- Nothing of this shard was ingested yet. -/
structure Lacks (db : Database) (shardId : UInt32) : Prop where
  orderEvents : ∀ r ∈ db.orderEvents, r.shardId ≠ shardId
  trades : ∀ r ∈ db.trades, r.shardId ≠ shardId
  checkpoint : db.checkpoint shardId = none

end Database

/-- What the tailer returns. -/
inductive Poll where
  | ok (r : JournalEntry)
  | notYet

def Poll.record? : Poll → Option JournalEntry
  | .ok r => some r
  | .notYet => none

/-- The process, for one shard. -/
structure Auditd where
  replayer : AuditReplayer
  /-- The rows that are not written yet. -/
  batch : AuditRows
  /-- The number of the last record that the tailer has delivered. -/
  lastGoodSeq : Int
  db : Database

namespace Auditd

def flush (p : Auditd) : Auditd :=
  if p.batch.orderEvents = [] ∧ p.batch.trades = [] then p
  else
    { p with
      batch := ⟨[], []⟩
      db := p.db.writeBatch p.replayer.shardId p.batch p.lastGoodSeq }

def poll (batchSize : Nat) (p : Auditd) : Poll → Option Auditd
  | .ok r => do
    let (rows, replayer) ← p.replayer.apply r
    let p := { p with replayer := replayer, batch := p.batch.append rows, lastGoodSeq := r.seq }
    some (if batchSize ≤ p.batch.orderEvents.length then p.flush else p)
  | .notYet => some p.flush

def pollAll (batchSize : Nat) (p : Auditd) : List Poll → Option Auditd
  | [] => some p
  | x :: xs => do
    let p ← p.poll batchSize x
    p.pollAll batchSize xs

/-- A process from its start to its stop. -/
def runShard (cfg : BookConfig) (shardId : UInt32) (batchSize : Nat) (db : Database)
    (polls : List Poll) : Option Database := do
  let replayer ← AuditReplayer.create shardId cfg
  let p ← pollAll batchSize ⟨replayer, ⟨[], []⟩, (db.checkpoint shardId).getD 0, db⟩ polls
  some p.flush.db

/-- The records of a journal that a tailer delivers which resumes from the checkpoint. -/
def resumed (db : Database) (shardId : UInt32) (journal : List JournalEntry) : List JournalEntry :=
  journal.filter fun r => (db.checkpoint shardId).getD 0 < r.seq

/-! ## What a process writes -/

def records (polls : List Poll) : List JournalEntry := polls.filterMap Poll.record?

/-- One more record in the batch. -/
def absorb (p : Auditd) (r : JournalEntry) (rows : AuditRows) (replayer : AuditReplayer) : Auditd :=
  { p with replayer := replayer, batch := p.batch.append rows, lastGoodSeq := r.seq }

variable {p : Auditd}

theorem flush_orderEvents (p : Auditd) : p.flush.db.orderEvents =
    Table.insertAll OrderEventRow.key p.db.orderEvents p.batch.orderEvents := by
  rw [flush]
  split
  · next h =>
    rw [h.1]
    rfl
  · rfl

theorem flush_trades (p : Auditd) : p.flush.db.trades =
    Table.insertAll TradeRow.key p.db.trades p.batch.trades := by
  rw [flush]
  split
  · next h =>
    rw [h.2]
    rfl
  · rfl

theorem flush_replayer (p : Auditd) : p.flush.replayer = p.replayer := by
  rw [flush]
  split <;> rfl

theorem flush_flush (p : Auditd) : p.flush.flush = p.flush := by
  have hempty : p.flush.batch.orderEvents = [] ∧ p.flush.batch.trades = [] := by
    rw [flush]
    split
    · next h => exact h
    · exact ⟨rfl, rfl⟩
  rw [flush, if_pos hempty]

/-- The tables after one more record. -/
theorem flush_absorb {r : JournalEntry} {rows : AuditRows} {a : AuditReplayer}
    (hrows : rows.orderEvents ≠ []) (hshard : a.shardId = p.replayer.shardId) :
    (p.absorb r rows a).flush.db.orderEvents =
        Table.insertAll OrderEventRow.key p.flush.db.orderEvents rows.orderEvents ∧
      (p.absorb r rows a).flush.db.trades =
        Table.insertAll TradeRow.key p.flush.db.trades rows.trades ∧
      (p.absorb r rows a).flush.db.checkpoint p.replayer.shardId = some r.seq := by
  refine ⟨?_, ?_, ?_⟩
  · rw [flush_orderEvents, flush_orderEvents, ← Table.insertAll_append]
    rfl
  · rw [flush_trades, flush_trades, ← Table.insertAll_append]
    rfl
  · have hne : ¬ ((p.absorb r rows a).batch.orderEvents = [] ∧
        (p.absorb r rows a).batch.trades = []) := fun h =>
      hrows (List.append_eq_nil_iff.1 h.1).2
    rw [flush, if_neg hne, ← hshard]
    exact Function.update_self ..

theorem poll_ok (batchSize : Nat) {r : JournalEntry} {rows : AuditRows} {a : AuditReplayer}
    (h : p.replayer.apply r = some (rows, a)) : ∃ p₁, p.poll batchSize (.ok r) = some p₁ ∧
      p₁.replayer = a ∧ p₁.flush = (p.absorb r rows a).flush := by
  have hpoll : p.poll batchSize (.ok r) = some
      (if batchSize ≤ (p.absorb r rows a).batch.orderEvents.length then (p.absorb r rows a).flush
        else p.absorb r rows a) := by
    rw [poll, h]
    rfl
  refine ⟨_, hpoll, ?_⟩
  split
  · exact ⟨flush_replayer _, flush_flush _⟩
  · exact ⟨rfl, rfl⟩

/-- **The batches do not matter**: a process writes the rows of the records it was given. -/
theorem pollAll_spec (batchSize : Nat) {p : Auditd} (h : p.replayer.Ready) (polls : List Poll) :
    ∃ rows a p₁,
    p.replayer.applyAll (records polls) = some (rows, a) ∧
    p.pollAll batchSize polls = some p₁ ∧
    p₁.flush.db.orderEvents =
      Table.insertAll OrderEventRow.key p.flush.db.orderEvents rows.orderEvents ∧
    p₁.flush.db.trades = Table.insertAll TradeRow.key p.flush.db.trades rows.trades ∧
    p₁.flush.db.checkpoint p.replayer.shardId =
      ((records polls).getLast?.map JournalEntry.seq).or
        (p.flush.db.checkpoint p.replayer.shardId) := by
  induction polls generalizing p with
  | nil => exact ⟨⟨[], []⟩, p.replayer, p, rfl, rfl, rfl, rfl, rfl⟩
  | cons x polls ih =>
    cases x with
    | notYet =>
      obtain ⟨rows, a, p₁, hall, hpolls, hevents, htrades, hcheckpoint⟩ :=
        ih (p := p.flush) (by rw [flush_replayer]; exact h)
      rw [flush_replayer] at hall hcheckpoint
      rw [flush_flush] at hevents htrades hcheckpoint
      exact ⟨rows, a, p₁, hall, hpolls, hevents, htrades, hcheckpoint⟩
    | ok r =>
      obtain ⟨rows₁, a₁, happly, hready, hne, hshard⟩ : ∃ rows₁ a₁,
          p.replayer.apply r = some (rows₁, a₁) ∧ a₁.Ready ∧ rows₁.orderEvents ≠ [] ∧
            a₁.shardId = p.replayer.shardId := by
        obtain ⟨ts, b, -, hready, happly⟩ := h.apply r
        exact ⟨_, _, happly, hready, List.cons_ne_nil _ _, rfl⟩
      obtain ⟨p₁, hpoll, hreplayer, hflush⟩ := poll_ok batchSize happly
      obtain ⟨hevents₁, htrades₁, hcheckpoint₁⟩ := flush_absorb hne hshard
      obtain ⟨rows, a, p₂, hall, hpolls, hevents, htrades, hcheckpoint⟩ := ih (hreplayer ▸ hready)
      rw [hreplayer] at hall
      rw [hreplayer, hshard] at hcheckpoint
      rw [hflush] at hevents htrades hcheckpoint
      refine ⟨rows₁.append rows, a, p₂, ?_, ?_, ?_, ?_, ?_⟩
      · change (p.replayer.apply r).bind _ = _
        rw [happly, Option.bind_some]
        change (a₁.applyAll (records polls)).bind _ = _
        rw [hall]
        rfl
      · change (p.poll batchSize (.ok r)).bind _ = _
        rw [hpoll]
        exact hpolls
      · rw [hevents, hevents₁, ← Table.insertAll_append]
        rfl
      · rw [htrades, htrades₁, ← Table.insertAll_append]
        rfl
      · rw [hcheckpoint, hcheckpoint₁]
        change _ = ((r :: records polls).getLast?.map JournalEntry.seq).or _
        rw [List.getLast?_cons]
        cases (records polls).getLast? <;> rfl

variable {cfg : BookConfig} {b : OrderBook} {shardId : UInt32} {db : Database}

/-- **A process** adds the rows of its records, with the trades that an empty book makes of them. -/
theorem runShard_spec (hb : OrderBook.create cfg = some b) (shardId : UInt32) (batchSize : Nat)
    (db : Database) (polls : List Poll) : ∃ tss b₁ db₁,
    b.ExecutesAll (records polls) tss b₁ ∧ runShard cfg shardId batchSize db polls = some db₁ ∧
    db₁.orderEvents = Table.insertAll OrderEventRow.key db.orderEvents
      ((records polls).map (.of shardId)) ∧
    db₁.trades = Table.insertAll TradeRow.key db.trades (tradeRows shardId (records polls) tss) ∧
    db₁.checkpoint shardId =
      ((records polls).getLast?.map JournalEntry.seq).or (db.checkpoint shardId) := by
  have hready := AuditReplayer.ready_create hb shardId
  obtain ⟨tss, b₁, htss, -, hrows⟩ := hready.applyAll (records polls)
  obtain ⟨rows, a, p₁, hall, hpolls, hevents, htrades, hcheckpoint⟩ := pollAll_spec batchSize
    (p := ⟨⟨shardId, b, cfg.maxOrders⟩, ⟨[], []⟩, (db.checkpoint shardId).getD 0, db⟩) hready polls
  obtain ⟨rfl, -⟩ := Prod.mk.inj (Option.some.inj (hall.symm.trans hrows))
  refine ⟨tss, b₁, p₁.flush.db, htss, ?_, hevents, htrades, hcheckpoint⟩
  rw [runShard, AuditReplayer.create_eq hb]
  simp only [Option.bind_eq_bind, Option.bind_some, hpolls]

/-! ## Two processes -/

theorem orderEvents_numbered (shardId : UInt32) (first : Int) (cmds : List Command) :
    Table.Numbered (fun r => (OrderEventRow.key r).2) (first + 1)
      ((journalOf first cmds).map (.of shardId)) := by
  intro i x hx
  rw [List.getElem?_map, Option.map_eq_some_iff] at hx
  obtain ⟨r, hr, rfl⟩ := hx
  exact journalOf_numbered first cmds i r hr

theorem orderEvent_shardId {rs : List JournalEntry} {x : OrderEventRow}
    (hx : x ∈ rs.map (.of shardId)) : (OrderEventRow.key x).1 = shardId := by
  obtain ⟨r, -, rfl⟩ := List.mem_map.1 hx
  rfl

/-- The number of the last record. -/
theorem getLast_journalOf (cmds : List Command) :
    ((journalOf 0 cmds).getLast?.map JournalEntry.seq).getD 0 = cmds.length := by
  rw [List.getLast?_eq_getElem?, journalOf_length]
  cases hr : (journalOf 0 cmds)[cmds.length - 1]? with
  | none =>
    have hlen := List.getElem?_eq_none_iff.1 hr
    rw [journalOf_length] at hlen
    have hnil : cmds.length = 0 := by omega
    rw [hnil]
    rfl
  | some r =>
    have hlt := (List.getElem?_eq_some_iff.1 hr).1
    rw [journalOf_length] at hlt
    have hseq : r.seq = _ := journalOf_numbered 0 cmds _ r hr
    change r.seq = _
    omega

/-- A tailer that resumes after the first commands delivers the others. -/
theorem resumed_eq {cmds : List Command} (h : (db.checkpoint shardId).getD 0 = cmds.length)
    (cmds' : List Command) :
    resumed db shardId (journalOf 0 (cmds ++ cmds')) = journalOf cmds.length cmds' := by
  rw [resumed, h, journalOf_append, List.filter_append, zero_add]
  have hold : (journalOf 0 cmds).filter (fun r => decide ((cmds.length : Int) < r.seq)) = [] := by
    rw [List.filter_eq_nil_iff]
    intro r hr
    obtain ⟨-, hle⟩ := (journalOf_numbered 0 cmds).bounds hr
    rw [journalOf_length] at hle
    rw [decide_eq_true_eq]
    omega
  have hnew : (journalOf cmds.length cmds').filter
      (fun r => decide ((cmds.length : Int) < r.seq)) = journalOf cmds.length cmds' := by
    rw [List.filter_eq_self]
    intro r hr
    obtain ⟨hle, -⟩ := (journalOf_numbered _ cmds').bounds hr
    rw [decide_eq_true_eq]
    omega
  rw [hold, hnew, List.nil_append]

/-- What a process leaves that reads this much of the journal, if nothing of it was there. -/
theorem runShard_fresh (hb : OrderBook.create cfg = some b) (h₀ : db.Lacks shardId)
    (batchSize : Nat) {cmds : List Command} {polls : List Poll}
    (hpolls : records polls = journalOf 0 cmds) {tss : List (List Trade)} {b₁ : OrderBook}
    (hex : b.ExecutesAll (journalOf 0 cmds) tss b₁) : ∃ db₁,
    runShard cfg shardId batchSize db polls = some db₁ ∧
    db₁.orderEvents = db.orderEvents ++ (journalOf 0 cmds).map (.of shardId) ∧
    db₁.trades = db.trades ++ tradeRows shardId (journalOf 0 cmds) tss ∧
    (db₁.checkpoint shardId).getD 0 = cmds.length := by
  obtain ⟨tss', b₁', db₁, hex', hrun, hevents, htrades, hcheckpoint⟩ :=
    runShard_spec hb shardId batchSize db polls
  rw [hpolls] at hex' hevents htrades hcheckpoint
  obtain ⟨rfl, rfl⟩ := hex'.det hex
  refine ⟨db₁, hrun, hevents.trans ?_, htrades.trans ?_, ?_⟩
  · apply Table.insertAll_numbered (orderEvents_numbered shardId 0 cmds)
    · exact fun r hr => orderEvent_shardId hr
    · exact fun r hr hshard => absurd hshard (h₀.orderEvents r hr)
  · apply Table.insertAll_numbered
      (hex.numbered (AuditReplayer.ready_create hb shardId).book shardId).1
    · exact fun r hr => tradeRow_shardId hr
    · exact fun r hr hshard => absurd hshard (h₀.trades r hr)
  · rw [hcheckpoint, h₀.checkpoint, Option.or_none]
    exact getLast_journalOf cmds

/-- What the next process makes of it: it starts from an empty book, and the trades whose ids are
taken are lost. -/
theorem runShard_resumed (hb : OrderBook.create cfg = some b) (h₀ : db.Lacks shardId)
    (batchSize : Nat) {cmds₁ cmds₂ : List Command} {tss₁ tss₀ : List (List Trade)}
    {b₁ b₀ : OrderBook} (hex₁ : b.ExecutesAll (journalOf 0 cmds₁) tss₁ b₁)
    (hex₀ : b.ExecutesAll (journalOf cmds₁.length cmds₂) tss₀ b₀) {db₁ : Database}
    (hevents₁ : db₁.orderEvents = db.orderEvents ++ (journalOf 0 cmds₁).map (.of shardId))
    (htrades₁ : db₁.trades = db.trades ++ tradeRows shardId (journalOf 0 cmds₁) tss₁)
    {polls : List Poll} (hpolls : records polls = journalOf cmds₁.length cmds₂) : ∃ db₂,
    runShard cfg shardId batchSize db₁ polls = some db₂ ∧
    db₂.orderEvents = db.orderEvents ++ (journalOf 0 (cmds₁ ++ cmds₂)).map (.of shardId) ∧
    db₂.trades = db.trades ++ (tradeRows shardId (journalOf 0 cmds₁) tss₁ ++
      (tradeRows shardId (journalOf cmds₁.length cmds₂) tss₀).drop
        (tradeRows shardId (journalOf 0 cmds₁) tss₁).length) := by
  obtain ⟨tss', b', db₂, hex', hrun, hevents, htrades, -⟩ :=
    runShard_spec hb shardId batchSize db₁ polls
  rw [hpolls] at hex' hevents htrades
  obtain ⟨rfl, rfl⟩ := hex'.det hex₀
  have hbook := (AuditReplayer.ready_create hb shardId).book
  refine ⟨db₂, hrun, ?_, ?_⟩
  · rw [hevents, hevents₁, journalOf_append, List.map_append, zero_add, ← List.append_assoc]
    apply Table.insertAll_numbered (orderEvents_numbered shardId _ cmds₂)
    · exact fun r hr => orderEvent_shardId hr
    · intro r hr hshard
      rcases List.mem_append.1 hr with hr | hr
      · exact absurd hshard (h₀.orderEvents r hr)
      · have hlt := ((orderEvents_numbered shardId 0 cmds₁).bounds hr).2
        rw [List.length_map, journalOf_length] at hlt
        omega
  · rw [htrades, htrades₁, ← List.append_assoc]
    exact Table.insertAll_overlapping (hex₁.numbered hbook shardId).1
      (hex₀.numbered hbook shardId).1 (fun r hr => tradeRow_shardId hr)
      (fun r hr => tradeRow_shardId hr) h₀.trades

/-- **A restart is seen in the trail.** The audit of the first commands and then, from its
checkpoint, of the others by a new process leaves the rows of one process over all of them exactly
if the trades that an empty book makes of the others, without as many as there were before the cut,
are the trades that they really make. -/
theorem restart_same_rows_iff (hb : OrderBook.create cfg = some b) (h₀ : db.Lacks shardId)
    (size₁ size₂ size : Nat) (cmds₁ cmds₂ : List Command) (polls₁ polls : List Poll)
    (hpolls₁ : records polls₁ = journalOf 0 cmds₁)
    (hpolls : records polls = journalOf 0 (cmds₁ ++ cmds₂)) :
    ∃ tss₁ b₁ tss₂ b₂ tss₀ b₀ db₁ db',
    b.ExecutesAll (journalOf 0 cmds₁) tss₁ b₁ ∧
    b₁.ExecutesAll (journalOf cmds₁.length cmds₂) tss₂ b₂ ∧
    b.ExecutesAll (journalOf cmds₁.length cmds₂) tss₀ b₀ ∧
    runShard cfg shardId size₁ db polls₁ = some db₁ ∧
    runShard cfg shardId size db polls = some db' ∧
    ∀ polls₂, records polls₂ = resumed db₁ shardId (journalOf 0 (cmds₁ ++ cmds₂)) →
      ∃ db₂, runShard cfg shardId size₂ db₁ polls₂ = some db₂ ∧
        (db₂.SameRows db' ↔
          (tradeRows shardId (journalOf cmds₁.length cmds₂) tss₀).drop
              (tradeRows shardId (journalOf 0 cmds₁) tss₁).length =
            tradeRows shardId (journalOf cmds₁.length cmds₂) tss₂) := by
  have hbook := (AuditReplayer.ready_create hb shardId).book
  obtain ⟨tss₁, b₁, hex₁⟩ := hbook.executesAll (journalOf 0 cmds₁)
  obtain ⟨hnum₁, hnext, hbook₁⟩ := hex₁.numbered hbook shardId
  obtain ⟨tss₂, b₂, hex₂⟩ := hbook₁.executesAll (journalOf cmds₁.length cmds₂)
  obtain ⟨tss₀, b₀, hex₀⟩ := hbook.executesAll (journalOf cmds₁.length cmds₂)
  have hex : b.ExecutesAll (journalOf 0 (cmds₁ ++ cmds₂)) (tss₁ ++ tss₂) b₂ := by
    rw [journalOf_append, zero_add]
    exact hex₁.append hex₂
  obtain ⟨db₁, hrun₁, hevents₁, htrades₁, hcheckpoint⟩ := runShard_fresh hb h₀ size₁ hpolls₁ hex₁
  obtain ⟨db', hrun, hevents, htrades, -⟩ := runShard_fresh hb h₀ size hpolls hex
  rw [journalOf_append, zero_add, tradeRows_append hex₁] at htrades
  refine ⟨tss₁, b₁, tss₂, b₂, tss₀, b₀, db₁, db', hex₁, hex₂, hex₀, hrun₁, hrun,
    fun polls₂ hpolls₂ => ?_⟩
  obtain ⟨db₂, hrun₂, hevents₂, htrades₂⟩ := runShard_resumed hb h₀ size₂ hex₁ hex₀ hevents₁
    htrades₁ (hpolls₂.trans (resumed_eq hcheckpoint cmds₂))
  refine ⟨db₂, hrun₂, ?_⟩
  have hnum₂ := (hex₂.numbered hbook₁ shardId).1
  have hnum₀ := (hex₀.numbered hbook shardId).1.drop
    (tradeRows shardId (journalOf 0 cmds₁) tss₁).length
  rw [← hnext] at hnum₀
  constructor
  · intro hsame
    -- the rows after the cut have this shard, and ids that none before it has
    have hafter : ∀ xs : List TradeRow, (∀ x ∈ xs, x.shardId = shardId) →
        Table.Numbered TradeRow.tradeId b₁.nextTradeId xs → ∀ x ∈ xs,
          x ∉ db.trades ∧ x ∉ tradeRows shardId (journalOf 0 cmds₁) tss₁ := by
      intro xs hshard hnum x hx
      refine ⟨fun hmem => h₀.trades x hmem (hshard x hx), fun hmem => ?_⟩
      have hlow := (hnum.bounds hx).1
      have hhigh := (hnum₁.bounds hmem).2
      omega
    have hafter₀ := hafter _
      (fun x hx => tradeRow_shardId (List.mem_of_mem_drop hx)) hnum₀
    have hafter₂ := hafter _ (fun x hx => tradeRow_shardId hx) hnum₂
    apply hnum₀.eq_of_mem_iff hnum₂
    intro x
    have hx := hsame.2 x
    rw [htrades₂, htrades] at hx
    simp only [List.mem_append] at hx
    constructor
    · intro hmem
      obtain ⟨hdb, hold⟩ := hafter₀ x hmem
      simpa [hdb, hold] using hx.1 (.inr (.inr hmem))
    · intro hmem
      obtain ⟨hdb, hold⟩ := hafter₂ x hmem
      simpa [hdb, hold] using hx.2 (.inr (.inr hmem))
  · intro heq
    rw [Database.SameRows, hevents₂, hevents, htrades₂, htrades, heq]
    exact ⟨fun _ => Iff.rfl, fun _ => Iff.rfl⟩

def auditBookConfig : BookConfig where
  minPrice := 1 * 10000
  maxPrice := 10000 * 10000
  tick := 10000 / 100
  maxOrders := 2 ^ 20
  stp := .cancelAggressor
  tick_pos := gatewayConfig.tick_pos
  ordered := gatewayConfig.ordered
  minPrice_fits := gatewayConfig.minPrice_fits
  maxPrice_fits := gatewayConfig.maxPrice_fits

/-- An order to sell, and another participant's order that buys all of it. -/
def sellThenBuy : List Command :=
  [⟨1, 0, 1000000, 5, 1, 0, .sell, .limit, 0⟩, ⟨2, 0, 1000000, 5, 2, 0, .buy, .limit, 0⟩]

/-- The process stops between the two: the next one has no order to trade with. -/
theorem restart_loses_the_trade : ∃ db₁ db₂ db',
    runShard auditBookConfig 1 1 .empty [.ok ⟨1, 0, sellThenBuy[0]⟩] = some db₁ ∧
    resumed db₁ 1 (journalOf 0 sellThenBuy) = [⟨2, 0, sellThenBuy[1]⟩] ∧
    runShard auditBookConfig 1 1 db₁ [.ok ⟨2, 0, sellThenBuy[1]⟩] = some db₂ ∧
    runShard auditBookConfig 1 1 .empty ((journalOf 0 sellThenBuy).map .ok) = some db' ∧
    db₂.trades = [] ∧ db'.trades = [⟨2, 1, 0, 2, 1, 1000000, 5, .buy⟩] ∧ ¬ db₂.SameRows db' := by
  have hone : (runShard auditBookConfig 1 1 .empty [.ok ⟨1, 0, sellThenBuy[0]⟩]).map
      (fun db => (db.trades, db.checkpoint 1)) = some ([], some 1) := by decide +kernel
  have htwo : ((runShard auditBookConfig 1 1 .empty [.ok ⟨1, 0, sellThenBuy[0]⟩]).bind
      fun db₁ => runShard auditBookConfig 1 1 db₁ [.ok ⟨2, 0, sellThenBuy[1]⟩]).map (·.trades) =
        some [] := by decide +kernel
  have hall : (runShard auditBookConfig 1 1 .empty ((journalOf 0 sellThenBuy).map .ok)).map
      (·.trades) = some [⟨2, 1, 0, 2, 1, 1000000, 5, .buy⟩] := by decide +kernel
  obtain ⟨db₁, hrun₁, hdb₁⟩ := Option.map_eq_some_iff.1 hone
  rw [hrun₁, Option.bind_some] at htwo
  obtain ⟨db₂, hrun₂, htrades₂⟩ := Option.map_eq_some_iff.1 htwo
  obtain ⟨db', hrun, htrades⟩ := Option.map_eq_some_iff.1 hall
  refine ⟨db₁, db₂, db', hrun₁, ?_, hrun₂, hrun, htrades₂, htrades, fun hsame => ?_⟩
  · rw [resumed, (Prod.mk.inj hdb₁).2]
    decide
  · have hmem := (hsame.2 ⟨2, 1, 0, 2, 1, 1000000, 5, .buy⟩).2 (htrades ▸ List.mem_cons_self)
    rw [htrades₂] at hmem
    cases hmem

def orderAside : Command := ⟨9, 0, 2000000, 5, 1, 0, .sell, .limit, 0⟩

/-- A cut that is not seen: the order at rest there has no part in what follows. -/
theorem restart_same_rows_iff_orderAside : ∃ (b b₁ b₂ b₀ : OrderBook)
    (tss₁ tss₂ tss₀ : List (List Trade)) (db₁ db₂ db' : Database),
    b.ExecutesAll (journalOf 0 [orderAside]) tss₁ b₁ ∧
    b₁.ExecutesAll (journalOf 1 sellThenBuy) tss₂ b₂ ∧
    b.ExecutesAll (journalOf 1 sellThenBuy) tss₀ b₀ ∧
    runShard auditBookConfig 1 1 .empty ((journalOf 0 [orderAside]).map .ok) = some db₁ ∧
    runShard auditBookConfig 1 1 db₁ ((journalOf 1 sellThenBuy).map .ok) = some db₂ ∧
    runShard auditBookConfig 1 7 .empty ((journalOf 0 (orderAside :: sellThenBuy)).map .ok) =
      some db' ∧
    db₂.SameRows db' ∧ db'.trades = [⟨3, 1, 0, 2, 1, 1000000, 5, .buy⟩] ∧
    (tradeRows 1 (journalOf 1 sellThenBuy) tss₀).drop
        (tradeRows 1 (journalOf 0 [orderAside]) tss₁).length =
      tradeRows 1 (journalOf 1 sellThenBuy) tss₂ := by
  have hb : OrderBook.create auditBookConfig =
      some ((OrderBook.create auditBookConfig).get (by decide +kernel)) := (Option.some_get _).symm
  have hempty : Database.empty.Lacks 1 :=
    ⟨List.forall_mem_nil _, List.forall_mem_nil _, rfl⟩
  have hone : (runShard auditBookConfig 1 1 .empty ((journalOf 0 [orderAside]).map .ok)).map
      (·.checkpoint 1) = some (some 1) := by
    decide +kernel
  have htwo : ((runShard auditBookConfig 1 1 .empty ((journalOf 0 [orderAside]).map .ok)).bind
      fun db₁ => runShard auditBookConfig 1 1 db₁ ((journalOf 1 sellThenBuy).map .ok)).map
        (fun db => (db.orderEvents, db.trades)) =
      some ((journalOf 0 (orderAside :: sellThenBuy)).map (.of 1),
        [⟨3, 1, 0, 2, 1, 1000000, 5, .buy⟩]) := by
    decide +kernel
  have hall : (runShard auditBookConfig 1 7 .empty
        ((journalOf 0 (orderAside :: sellThenBuy)).map .ok)).map
        (fun db => (db.orderEvents, db.trades)) =
      some ((journalOf 0 (orderAside :: sellThenBuy)).map (.of 1),
        [⟨3, 1, 0, 2, 1, 1000000, 5, .buy⟩]) := by
    decide +kernel
  obtain ⟨tss₁, b₁, tss₂, b₂, tss₀, b₀, db₁, db', hex₁, hex₂, hex₀, hrun₁, hrun, hrest⟩ :=
    restart_same_rows_iff hb hempty 1 1 7 [orderAside] sellThenBuy
      ((journalOf 0 [orderAside]).map .ok) ((journalOf 0 (orderAside :: sellThenBuy)).map .ok) rfl rfl
  rw [hrun₁] at hone htwo
  rw [hrun] at hall
  have hcheckpoint : (db₁.checkpoint 1).getD 0 = ([orderAside].length : Int) :=
    congrArg (Option.getD · 0) (Option.some.inj hone)
  obtain ⟨db₂, hrun₂, hiff⟩ := hrest ((journalOf 1 sellThenBuy).map .ok)
    (resumed_eq hcheckpoint sellThenBuy).symm
  rw [Option.bind_some, hrun₂] at htwo
  obtain ⟨hevents₂, htrades₂⟩ := Prod.mk.inj (Option.some.inj htwo)
  obtain ⟨hevents, htrades⟩ := Prod.mk.inj (Option.some.inj hall)
  have hsame : db₂.SameRows db' := by
    rw [Database.SameRows, hevents₂, hevents, htrades₂, htrades]
    exact ⟨fun _ => Iff.rfl, fun _ => Iff.rfl⟩
  exact ⟨_, b₁, b₂, b₀, tss₁, tss₂, tss₀, db₁, db₂, db', hex₁, hex₂, hex₀, hrun₁, hrun₂, hrun,
    hsame, htrades, hiff.1 hsame⟩

end Auditd

end Velox
