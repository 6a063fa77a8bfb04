import Velox.Engine.Others
import Velox.Runtime.Events
import Velox.Sequencer.Sequencer
import Velox.Lib.Table

/-!
# The audit replayer

Following `audit/audit_replayer.hpp`: a process of its own reads the journal and applies each record
to a shadow book, and turns it into a row for the command and one for each trade. The buffer for the
trades of one record holds as many as the book can hold orders.

`OrderBook.Executes` says which trades a command makes on a book, whatever the buffers. The rows are
these trades, no more and no fewer (`AuditReplayer.trail_exact`): one command makes at most one trade
with each order at rest, so the buffer never overflows.
-/

namespace Velox

open QueueBook

structure OrderEventRow where
  globalSeq : Int
  shardId : UInt32
  kind : UInt8
  orderId : Int64
  /-- For a replace only. -/
  newOrderId : Int64
  participant : Int64
  side : Side
  orderType : OrderType
  price : Int64
  quantity : Int64
  deriving DecidableEq

/-- The row of a record. Of the ids, a kind outside the enumeration sets none. -/
def OrderEventRow.of (shardId : UInt32) (r : JournalEntry) : OrderEventRow where
  globalSeq := r.seq
  shardId := shardId
  kind := r.kind
  orderId := if (CommandKind.ofByte r.kind).isSome then r.command.id else 0
  newOrderId := if CommandKind.ofByte r.kind = some .replace then r.command.newId else 0
  participant := r.command.participant
  side := r.command.side
  orderType := r.command.type
  price := r.command.price
  quantity := r.command.quantity

structure TradeRow where
  /-- The number of the command that made the trade. -/
  globalSeq : Int
  shardId : UInt32
  tradeId : Int
  aggressorOrderId : Int
  passiveOrderId : Int
  price : Int
  quantity : Int
  aggressorSide : Side
  deriving DecidableEq

def TradeRow.of (shardId : UInt32) (globalSeq : Int) (t : Trade) : TradeRow :=
  ⟨globalSeq, shardId, t.id, t.aggressorId, t.passiveId, t.price, t.quantity, t.aggressorSide⟩

structure AuditReplayer where
  shardId : UInt32
  book : OrderBook
  /-- The size of the buffer for trades. -/
  storage : Nat

/-- What the replayer has to write. -/
structure AuditRows where
  orderEvents : List OrderEventRow
  trades : List TradeRow
  deriving DecidableEq

def AuditRows.append (x y : AuditRows) : AuditRows :=
  ⟨x.orderEvents ++ y.orderEvents, x.trades ++ y.trades⟩

namespace AuditReplayer

def create (shardId : UInt32) (cfg : BookConfig) : Option AuditReplayer :=
  (OrderBook.create cfg).map fun book => ⟨shardId, book, cfg.maxOrders⟩

/-- One record. A sweep that overflows the buffer fails the assertion. -/
def apply (a : AuditReplayer) (r : JournalEntry) : Option (AuditRows × AuditReplayer) :=
  match CommandKind.ofByte r.kind with
  | none => some (⟨[.of a.shardId r], []⟩, a)
  | some k => do
    let (reply, book) ← a.book.call (r.command.call k) ⟨.empty a.storage, none⟩
    if reply.out.trades.overflowed then none
    else
      some (⟨[.of a.shardId r], reply.out.trades.data.map (.of a.shardId r.seq)⟩,
        { a with book := book })

def applyAll (a : AuditReplayer) : List JournalEntry → Option (AuditRows × AuditReplayer)
  | [] => some (⟨[], []⟩, a)
  | r :: rs => do
    let (rows, a) ← a.apply r
    let (rest, a) ← a.applyAll rs
    some (rows.append rest, a)

end AuditReplayer

/-! ## What a book executes -/

/-- The command makes the trades `ts`, whatever buffer the caller has for them. -/
def OrderBook.Executes (b : OrderBook) (kind : UInt8) (cmd : Command) (ts : List Trade)
    (b' : OrderBook) : Prop :=
  match CommandKind.ofByte kind with
  | none => ts = [] ∧ b' = b
  | some k => ∃ e : Effect, e.trades = ts ∧ ∀ out, b.call (cmd.call k) out = some (e.reply out, b')

/-- The commands one after the other, each with the trades it makes. -/
inductive OrderBook.ExecutesAll : OrderBook → List JournalEntry → List (List Trade) → OrderBook → Prop
  | nil {b} : ExecutesAll b [] [] b
  | cons {b r ts b₁ rs tss b₂} (h : b.Executes r.kind r.command ts b₁)
      (rest : ExecutesAll b₁ rs tss b₂) : ExecutesAll b (r :: rs) (ts :: tss) b₂

/-- A buffer that is large enough tells the trades of two effects apart. -/
theorem QueueBook.Effect.trades_eq {e e' : Effect} (h : ∀ out, e.reply out = e'.reply out) :
    e.trades = e'.trades := by
  obtain ⟨n, hn⟩ : ∃ n, n = e.trades.length + e'.trades.length := ⟨_, rfl⟩
  have hdata := congrArg (fun r : Reply => r.out.trades.data) (h ⟨.empty n, none⟩)
  simpa [Effect.reply, Sinks.pushAll, Buffer.pushAll_data_eq, Buffer.empty, List.take_of_length_le, hn]
    using hdata

namespace OrderBook

variable {b b' b₁ : OrderBook} {cfg : BookConfig}

/-- **What a command makes on a sound book**: at most one trade with each order at rest. -/
theorem Represented.executes (hb : b.Represented) (kind : UInt8) (cmd : Command) :
    ∃ ts b', b.Executes kind cmd ts b' ∧ b'.Represented ∧ b'.cfg = b.cfg ∧
      (ts.map Trade.passiveId).Nodup ∧ (∀ t ∈ ts, ∃ x ∈ b.resting, x.id = t.passiveId) ∧
      ts.length ≤ b.resting.length ∧ b.resting.length ≤ b.cfg.maxOrders := by
  obtain ⟨ps, hr, hw⟩ := hb
  have hlen := (hr.resting_perm hw).length_eq
  have hroom : b.resting.length ≤ b.cfg.maxOrders := hlen.trans_le hw.room
  cases hk : CommandKind.ofByte kind with
  | none =>
    refine ⟨[], b, ?_, ⟨ps, hr, hw⟩, rfl, List.nodup_nil, List.forall_mem_nil _, Nat.zero_le _, hroom⟩
    rw [Executes, hk]
    exact ⟨rfl, rfl⟩
  | some k =>
    obtain ⟨e, b', ps', hcall, hr', hs⟩ := call_spec (cmd.call k) hr hw
    refine ⟨e.trades, b', ?_, ⟨ps', hr', hs.wf hw⟩, hs.cfg_eq, hs.passives_nodup hw, fun t ht => ?_,
      (hs.trades_le hw).trans_eq hlen.symm, hroom⟩
    · rw [Executes, hk]
      exact ⟨e, rfl, hcall⟩
    · obtain ⟨-, -, -, -, x, hx, hid, -⟩ := hs.trade_spec ht
      exact ⟨x, hr.mem_resting.2 hx, hid⟩

theorem Executes.det {kind : UInt8} {cmd : Command} {ts ts' : List Trade}
    (h : b.Executes kind cmd ts b₁) (h' : b.Executes kind cmd ts' b') : ts = ts' ∧ b₁ = b' := by
  rw [Executes] at h h'
  cases hk : CommandKind.ofByte kind with
  | none =>
    rw [hk] at h h'
    exact ⟨h.1.trans h'.1.symm, h.2.trans h'.2.symm⟩
  | some k =>
    rw [hk] at h h'
    obtain ⟨e, rfl, hcall⟩ := h
    obtain ⟨e', rfl, hcall'⟩ := h'
    have hsame : ∀ out, e.reply out = e'.reply out ∧ b₁ = b' := fun out =>
      Prod.mk.inj (Option.some.inj ((hcall out).symm.trans (hcall' out)))
    exact ⟨Effect.trades_eq fun out => (hsame out).1, (hsame ⟨.empty 0, none⟩).2⟩

/-- What a command of a kind that the book knows does to the orders at rest. -/
theorem Executes.step {ps : List Ptr} (hr : b.Repr ps none) (hw : (b.view ps).Wf) {kind : UInt8}
    {k : CommandKind} {cmd : Command} {ts : List Trade} (hk : CommandKind.ofByte kind = some k)
    (h : b.Executes kind cmd ts b₁) : ∃ e ps', e.trades = ts ∧ b₁.Repr ps' none ∧
      (b.view ps).Step (cmd.call k) e (b₁.view ps') := by
  rw [Executes, hk] at h
  obtain ⟨e, rfl, hcall⟩ := h
  obtain ⟨e', b', ps', hcall', hr', hs⟩ := call_spec (cmd.call k) hr hw
  have hsame : ∀ out, e.reply out = e'.reply out ∧ b₁ = b' := fun out =>
    Prod.mk.inj (Option.some.inj ((hcall out).symm.trans (hcall' out)))
  obtain rfl := (hsame ⟨.empty 0, none⟩).2
  exact ⟨e', ps', (Effect.trades_eq fun out => (hsame out).1).symm, hr', hs⟩

/-- Trades are numbered one after the other. -/
theorem Executes.tradeIds (hb : b.Represented) {kind : UInt8} {cmd : Command} {ts : List Trade}
    (h : b.Executes kind cmd ts b₁) : b₁.Represented ∧
      ts.map Trade.id = (List.range ts.length).map (fun i : Nat => b.nextTradeId + i) ∧
      b₁.nextTradeId = b.nextTradeId + ts.length := by
  obtain ⟨ps, hr, hw⟩ := hb
  cases hk : CommandKind.ofByte kind with
  | none =>
    rw [Executes, hk] at h
    rw [h.1, h.2]
    exact ⟨⟨ps, hr, hw⟩, rfl, (Int.add_zero _).symm⟩
  | some k =>
    obtain ⟨e, ps', rfl, hr', hs⟩ := h.step hr hw hk
    exact ⟨⟨ps', hr', hs.wf hw⟩, hs.tradeIds⟩

theorem Executes.apply {kind : UInt8} {cmd : Command} {ts : List Trade}
    (h : b.Executes kind cmd ts b₁) (out : Sinks) : b.apply kind cmd out = some b₁ := by
  rw [Executes] at h
  rw [OrderBook.apply]
  cases hk : CommandKind.ofByte kind with
  | none =>
    rw [hk] at h
    exact congrArg some h.2.symm
  | some k =>
    rw [hk] at h
    obtain ⟨e, -, hcall⟩ := h
    simp only [hcall, Option.map_some]

end OrderBook

/-- The rows for the trades that these records have made. -/
def tradeRows (shardId : UInt32) (rs : List JournalEntry) (tss : List (List Trade)) : List TradeRow :=
  (List.zipWith (fun r ts => ts.map (TradeRow.of shardId r.seq)) rs tss).flatten

/-- The records of these commands, with the numbers from `first + 1` on. -/
def journalOf (first : Int) : List Command → List JournalEntry
  | [] => []
  | cmd :: cmds => ⟨first + 1, cmd.kind, cmd⟩ :: journalOf (first + 1) cmds

theorem journalOf_append (first : Int) (cmds cmds' : List Command) :
    journalOf first (cmds ++ cmds') = journalOf first cmds ++ journalOf (first + cmds.length) cmds' := by
  induction cmds generalizing first with
  | nil => exact congrArg (journalOf · cmds') (Int.add_zero first).symm
  | cons cmd cmds ih =>
    have hnext : first + 1 + cmds.length = first + (cmd :: cmds).length := by
      rw [List.length_cons]
      omega
    rw [List.cons_append, journalOf, ih, hnext]
    rfl

theorem journalOf_length (first : Int) (cmds : List Command) :
    (journalOf first cmds).length = cmds.length := by
  induction cmds generalizing first with
  | nil => rfl
  | cons _ _ ih => exact congrArg (· + 1) (ih _)

theorem journalOf_numbered (first : Int) (cmds : List Command) :
    Table.Numbered JournalEntry.seq (first + 1) (journalOf first cmds) := by
  induction cmds generalizing first with
  | nil => exact .nil
  | cons cmd cmds ih =>
    intro i r hr
    cases i with
    | zero =>
      obtain rfl := Option.some.inj hr
      exact (Int.add_zero _).symm
    | succ i =>
      have hseq := ih (first + 1) i r hr
      omega

/-- The live thread's book is the one that these commands lead to. -/
theorem OrderBook.ExecutesAll.run_book {b b₁ : OrderBook} {first : Int} {cmds : List Command}
    {tss : List (List Trade)} (h : b.ExecutesAll (journalOf first cmds) tss b₁) (n : Int) :
    ((⟨b, n⟩ : MatchingThread).run cmds).map (·.2.book) = some b₁ := by
  rw [MatchingThread.run_book]
  induction cmds generalizing b first tss with
  | nil =>
    cases h
    rfl
  | cons cmd cmds ih =>
    cases h with
    | cons hcmd hrest =>
      rw [List.map_cons, OrderBook.applyAll, Command.submission, hcmd.apply]
      exact ih hrest

theorem OrderBook.Represented.executesAll {b : OrderBook} (hb : b.Represented)
    (rs : List JournalEntry) : ∃ tss b₁, b.ExecutesAll rs tss b₁ := by
  induction rs generalizing b with
  | nil => exact ⟨[], b, .nil⟩
  | cons r rs ih =>
    obtain ⟨ts, b₁, hts, hb₁, -⟩ := hb.executes r.kind r.command
    obtain ⟨tss, b₂, htss⟩ := ih hb₁
    exact ⟨ts :: tss, b₂, .cons hts htss⟩

theorem OrderBook.ExecutesAll.det {b b₁ b₁' : OrderBook} {rs : List JournalEntry}
    {tss tss' : List (List Trade)} (h : b.ExecutesAll rs tss b₁) (h' : b.ExecutesAll rs tss' b₁') :
    tss = tss' ∧ b₁ = b₁' := by
  induction h generalizing tss' with
  | nil =>
    cases h'
    exact ⟨rfl, rfl⟩
  | cons hr _ ih =>
    cases h' with
    | cons hr' hrest' =>
      obtain ⟨rfl, rfl⟩ := hr.det hr'
      obtain ⟨rfl, hb⟩ := ih hrest'
      exact ⟨rfl, hb⟩

theorem OrderBook.ExecutesAll.append {b b₁ b₂ : OrderBook} {rs rs' : List JournalEntry}
    {tss tss' : List (List Trade)} (h : b.ExecutesAll rs tss b₁) (h' : b₁.ExecutesAll rs' tss' b₂) :
    b.ExecutesAll (rs ++ rs') (tss ++ tss') b₂ := by
  induction h with
  | nil => exact h'
  | cons hr _ ih => exact .cons hr (ih h')

theorem tradeRows_append {b b₁ : OrderBook} {rs : List JournalEntry} {tss : List (List Trade)}
    (h : b.ExecutesAll rs tss b₁) (shardId : UInt32) (rs' : List JournalEntry)
    (tss' : List (List Trade)) : tradeRows shardId (rs ++ rs') (tss ++ tss') =
      tradeRows shardId rs tss ++ tradeRows shardId rs' tss' := by
  induction h with
  | nil => rfl
  | @cons b r ts b₁ rs tss b₂ _ _ ih =>
    change _ ++ tradeRows shardId (rs ++ rs') (tss ++ tss') = _
    rw [ih, ← List.append_assoc]
    rfl

theorem tradeRow_shardId {shardId : UInt32} {rs : List JournalEntry} {tss : List (List Trade)}
    {x : TradeRow} (hx : x ∈ tradeRows shardId rs tss) : x.shardId = shardId := by
  obtain ⟨xs, hxs, hx⟩ := List.mem_flatten.1 hx
  rw [← List.map_uncurry_zip_eq_zipWith] at hxs
  obtain ⟨⟨r, ts⟩, -, rfl⟩ := List.mem_map.1 hxs
  obtain ⟨t, -, rfl⟩ := List.mem_map.1 hx
  rfl

/-- The rows of a run have the trade ids from the book's next one on. -/
theorem OrderBook.ExecutesAll.numbered {b b₁ : OrderBook} (hb : b.Represented)
    {rs : List JournalEntry} {tss : List (List Trade)} (h : b.ExecutesAll rs tss b₁)
    (shardId : UInt32) :
    Table.Numbered TradeRow.tradeId b.nextTradeId (tradeRows shardId rs tss) ∧
      b₁.nextTradeId = b.nextTradeId + (tradeRows shardId rs tss).length ∧ b₁.Represented := by
  induction h with
  | nil => exact ⟨.nil, (Int.add_zero _).symm, hb⟩
  | @cons b r ts b₁ rs tss b₂ hr _ ih =>
    obtain ⟨hb₁, hids, hnext⟩ := hr.tradeIds hb
    obtain ⟨ih, ihnext, hb₂⟩ := ih hb₁
    have hrows : tradeRows shardId (r :: rs) (ts :: tss) =
      ts.map (TradeRow.of shardId r.seq) ++ tradeRows shardId rs tss := rfl
    have hts : Table.Numbered TradeRow.tradeId b.nextTradeId (ts.map (.of shardId r.seq)) := by
      intro i x hx
      rw [List.getElem?_map, Option.map_eq_some_iff] at hx
      obtain ⟨t, ht, rfl⟩ := hx
      have hid := congrArg (·[i]?) hids
      have hi : i < ts.length := (List.getElem?_eq_some_iff.1 ht).1
      simp only [List.getElem?_map, ht, List.getElem?_range hi, Option.map_some] at hid
      exact Option.some.inj hid
    rw [hrows]
    refine ⟨hts.append ?_, ?_, hb₂⟩
    · rw [List.length_map, ← hnext]
      exact ih
    · rw [ihnext, hnext, List.length_append, List.length_map, Nat.cast_add, add_assoc]

namespace AuditReplayer

/-- The replayer's book is sound, and its buffer has room for as many trades as the book has for
orders. -/
structure Ready (a : AuditReplayer) : Prop where
  book : a.book.Represented
  storage : a.storage = a.book.cfg.maxOrders

variable {a : AuditReplayer}

theorem Ready.apply (h : a.Ready) (r : JournalEntry) : ∃ ts b,
    a.book.Executes r.kind r.command ts b ∧ { a with book := b }.Ready ∧
      a.apply r = some (⟨[.of a.shardId r], ts.map (.of a.shardId r.seq)⟩, { a with book := b }) := by
  obtain ⟨ts, b, hts, hb, hcfg, -, -, hle, hroom⟩ := h.book.executes r.kind r.command
  refine ⟨ts, b, hts, ⟨hb, h.storage.trans (congrArg _ hcfg.symm)⟩, ?_⟩
  have hfits : ts.length ≤ a.storage := h.storage ▸ hle.trans hroom
  rw [OrderBook.Executes] at hts
  rw [AuditReplayer.apply]
  cases hk : CommandKind.ofByte r.kind with
  | none =>
    rw [hk] at hts
    rw [hts.1, hts.2]
    rfl
  | some k =>
    rw [hk] at hts
    obtain ⟨e, rfl, hcall⟩ := hts
    have hdata : (Buffer.pushAll (.empty a.storage) e.trades).data = e.trades := by
      rw [Buffer.pushAll_data_eq]
      exact List.take_of_length_le hfits
    have hroom : (Buffer.pushAll (.empty a.storage) e.trades).overflowed = false := by
      rw [Buffer.overflowed, Buffer.pushAll_count, Buffer.pushAll_capacity, decide_eq_false_iff_not]
      simpa [Buffer.empty] using hfits
    simp only [hcall, Option.bind_eq_bind, Option.bind_some, Effect.reply, Sinks.pushAll, hdata, hroom]
    rfl

/-- **The rows of a run are what the book executes.** -/
theorem Ready.applyAll (h : a.Ready) (rs : List JournalEntry) : ∃ tss b,
    a.book.ExecutesAll rs tss b ∧ { a with book := b }.Ready ∧
      a.applyAll rs = some (⟨rs.map (.of a.shardId), tradeRows a.shardId rs tss⟩,
        { a with book := b }) := by
  induction rs generalizing a with
  | nil => exact ⟨[], a.book, .nil, h, rfl⟩
  | cons r rs ih =>
    obtain ⟨ts, b₁, hts, h₁, happly⟩ := h.apply r
    obtain ⟨tss, b₂, htss, h₂, hall⟩ := ih h₁
    refine ⟨ts :: tss, b₂, .cons hts htss, h₂, ?_⟩
    rw [AuditReplayer.applyAll, happly]
    simp only [Option.bind_eq_bind, Option.bind_some, hall]
    rfl

theorem create_eq {cfg : BookConfig} {b : OrderBook} (hb : OrderBook.create cfg = some b)
    (shardId : UInt32) : create shardId cfg = some ⟨shardId, b, cfg.maxOrders⟩ := by
  rw [create, hb]
  rfl

theorem ready_create {cfg : BookConfig} {b : OrderBook} (hb : OrderBook.create cfg = some b)
    (shardId : UInt32) : Ready ⟨shardId, b, cfg.maxOrders⟩ := by
  obtain ⟨hr, hview⟩ := OrderBook.repr_create hb
  have hw : (b.view []).Wf := hview ▸ OrderBook.emptyView_wf cfg
  have hcfg : b.cfg = cfg := congrArg QueueBook.cfg hview
  exact ⟨⟨[], hr, hw⟩, congrArg BookConfig.maxOrders hcfg.symm⟩

/-- **The audit trail is complete and exact.** From an empty book, any commands give one row for each
record and the trades that the live book executes for them, and the replay never fails. On the book
that they lead to, one more command trades with no order twice, and so makes no more trades than
there are orders at rest, for which there is room. -/
theorem trail_exact {cfg : BookConfig} {b : OrderBook} (hb : OrderBook.create cfg = some b)
    (shardId : UInt32) (cmds : List Command) : ∃ tss b₁ a a₁,
    b.ExecutesAll (journalOf 0 cmds) tss b₁ ∧
    ((⟨b, 0⟩ : MatchingThread).run cmds).map (·.2.book) = some b₁ ∧
    create shardId cfg = some a ∧
    a.applyAll (journalOf 0 cmds) = some (⟨(journalOf 0 cmds).map (.of shardId),
      tradeRows shardId (journalOf 0 cmds) tss⟩, a₁) ∧
    ∀ kind cmd ts b₂, b₁.Executes kind cmd ts b₂ →
      (ts.map Trade.passiveId).Nodup ∧ (∀ t ∈ ts, ∃ x ∈ b₁.resting, x.id = t.passiveId) ∧
        ts.length ≤ b₁.resting.length ∧ b₁.resting.length ≤ cfg.maxOrders := by
  obtain ⟨tss, b₁, htss, h₁, hall⟩ := (ready_create hb shardId).applyAll (journalOf 0 cmds)
  refine ⟨tss, b₁, _, _, htss, htss.run_book 0, create_eq hb shardId, hall, fun kind cmd ts b₂ hts => ?_⟩
  obtain ⟨ts', b', hts', -, -, hnodup, hrests, hle, hroom⟩ := h₁.book.executes kind cmd
  obtain ⟨rfl, -⟩ := hts'.det hts
  exact ⟨hnodup, hrests, hle, hroom.trans_eq h₁.storage.symm⟩

/-- The first of two orders at rest is bought, and half of the second. -/
def twoSellsAndABuy : List Command :=
  [⟨1, 0, 110, 5, 1, 0, .sell, .limit, 0⟩, ⟨2, 0, 110, 5, 1, 0, .sell, .limit, 0⟩,
    ⟨3, 0, 110, 8, 2, 0, .buy, .limit, 0⟩]

theorem trail_exact_twoSellsAndABuy : ∃ b a rows a₁,
    OrderBook.create OrderBook.smallConfig = some b ∧ create 1 OrderBook.smallConfig = some a ∧
    a.applyAll (journalOf 0 twoSellsAndABuy) = some (rows, a₁) ∧
    rows.trades = [⟨3, 1, 0, 3, 1, 110, 5, .buy⟩, ⟨3, 1, 1, 3, 2, 110, 3, .buy⟩] ∧
    ∃ tss b₁, b.ExecutesAll (journalOf 0 twoSellsAndABuy) tss b₁ ∧
      rows.trades = tradeRows 1 (journalOf 0 twoSellsAndABuy) tss := by
  have hb := OrderBook.create_smallConfig
  obtain ⟨tss, b₁, a, a₁, htss, -, ha, hall, -⟩ := trail_exact hb 1 twoSellsAndABuy
  have hrows : ((create 1 OrderBook.smallConfig).bind
      (·.applyAll (journalOf 0 twoSellsAndABuy))).map (·.1.trades) =
      some [⟨3, 1, 0, 3, 1, 110, 5, .buy⟩, ⟨3, 1, 1, 3, 2, 110, 3, .buy⟩] := by
    decide +kernel
  rw [ha, Option.bind_some, hall] at hrows
  exact ⟨_, a, _, a₁, hb, ha, hall, Option.some.inj hrows, tss, b₁, htss, rfl⟩

end AuditReplayer

end Velox
