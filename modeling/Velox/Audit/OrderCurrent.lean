import Velox.Audit.Ingest
import Velox.Engine.Balance

/-!
# The view of the current orders

Following `velox_audit.order_current` of `audit/sql/001_init.sql`: a query over the rows of the
commands and of the trades. For each new order it adds up the trades that name its id, and looks for
a cancel or a replace of this id. Sums are exact, as those of the database are.
-/

namespace Velox

open QueueBook

/-! ## The query -/

def OrderEventRow.orderKey (r : OrderEventRow) : UInt32 × Int := (r.shardId, r.orderId.toInt)

structure CurrentRow where
  shardId : UInt32
  orderId : Int64
  participant : Int64
  side : Side
  orderType : OrderType
  price : Int64
  originalQuantity : Int64
  filledQuantity : Int
  remainingQuantity : Int
  isCancelled : Bool
  submittedSeq : Int
  deriving DecidableEq

/-- The columns of the view. -/
def CurrentRow.of (oe : OrderEventRow) (filledQty : Option Int) (isCancelled : Option Bool) :
    CurrentRow where
  shardId := oe.shardId
  orderId := oe.orderId
  participant := oe.participant
  side := oe.side
  orderType := oe.orderType
  price := oe.price
  originalQuantity := oe.quantity
  filledQuantity := filledQty.getD 0
  remainingQuantity := oe.quantity.toInt - filledQty.getD 0
  isCancelled := isCancelled == some true
  submittedSeq := oe.globalSeq

namespace Database

/-- What each id has traded as aggressor, and what as passive. -/
def filled (db : Database) : List ((UInt32 × Int) × Int) :=
  Table.groupSum (fun t => (t.shardId, t.aggressorOrderId)) TradeRow.quantity db.trades ++
    Table.groupSum (fun t => (t.shardId, t.passiveOrderId)) TradeRow.quantity db.trades

def filledTotals (db : Database) : List ((UInt32 × Int) × Int) :=
  Table.groupSum Prod.fst Prod.snd db.filled

/-- The ids of the cancels, and the old ids of the replaces. -/
def cancelled (db : Database) : List ((UInt32 × Int) × Bool) :=
  let byCancel := db.orderEvents.filter fun oe => decide (oe.kind = 1)
  let byReplace := db.orderEvents.filter fun oe => decide (oe.kind = 2)
  (byCancel.map (fun oe => (oe.orderKey, true)) ++
    byReplace.map fun oe => (oe.orderKey, true)).dedup

def orderCurrent (db : Database) : List CurrentRow :=
  let joined := Table.leftJoin OrderEventRow.orderKey Prod.fst db.orderEvents db.filledTotals
  let joined := Table.leftJoin (fun j => j.1.orderKey) Prod.fst joined db.cancelled
  (joined.filter fun j => decide (j.1.1.kind = 0)).map fun j =>
    .of j.1.1 (j.1.2.map Prod.snd) (j.2.map Prod.snd)

/-! ## What the query returns -/

/-- What the trades that name this id add up to. -/
def filledOf (db : Database) (k : UInt32 × Int) : Int :=
  ((db.trades.filter fun t => decide ((t.shardId, t.aggressorOrderId) = k)).map
      TradeRow.quantity).sum +
    ((db.trades.filter fun t => decide ((t.shardId, t.passiveOrderId) = k)).map
      TradeRow.quantity).sum

/-- A cancel or a replace names this id. -/
def isCancelled (db : Database) (k : UInt32 × Int) : Bool :=
  db.orderEvents.any fun oe => decide ((oe.kind = 1 ∨ oe.kind = 2) ∧ oe.orderKey = k)

theorem filledTotals_find (db : Database) (k : UInt32 × Int) :
    ((db.filledTotals.find? fun g => decide (g.1 = k)).map Prod.snd).getD 0 = db.filledOf k := by
  have hfind : ((db.filledTotals.find? fun g => decide (g.1 = k)).map Prod.snd).getD 0 =
      ((db.filledTotals.filter fun g => decide (g.1 = k)).map Prod.snd).sum := by
    have hnodup : (db.filledTotals.map Prod.fst).Nodup := Table.groupSum_nodup _ _ _
    rw [Table.filter_eq_find hnodup]
    cases db.filledTotals.find? fun g => decide (g.1 = k) with
    | none => rfl
    | some g => exact (add_zero _).symm
  rw [hfind, filledTotals, Table.sum_groupSum, filled, List.filter_append, List.map_append,
    List.sum_append, Table.sum_groupSum, Table.sum_groupSum]
  rfl

theorem mem_cancelled {db : Database} {c : (UInt32 × Int) × Bool} : c ∈ db.cancelled ↔
    db.isCancelled c.1 = true ∧ c.2 = true := by
  rw [cancelled, List.mem_dedup, List.mem_append, isCancelled, List.any_eq_true]
  constructor
  · rintro (hc | hc)
    · obtain ⟨oe, hoe, rfl⟩ := List.mem_map.1 hc
      obtain ⟨hoe, hkind⟩ := List.mem_filter.1 hoe
      exact ⟨⟨oe, hoe, decide_eq_true ⟨Or.inl (of_decide_eq_true hkind), rfl⟩⟩, rfl⟩
    · obtain ⟨oe, hoe, rfl⟩ := List.mem_map.1 hc
      obtain ⟨hoe, hkind⟩ := List.mem_filter.1 hoe
      exact ⟨⟨oe, hoe, decide_eq_true ⟨Or.inr (of_decide_eq_true hkind), rfl⟩⟩, rfl⟩
  · rintro ⟨⟨oe, hoe, h⟩, htrue⟩
    obtain ⟨hkind, hkey⟩ := of_decide_eq_true h
    have hc : c = (oe.orderKey, true) := Prod.ext hkey.symm htrue
    rw [hc]
    exact hkind.imp
      (fun h => List.mem_map_of_mem (List.mem_filter.2 ⟨hoe, decide_eq_true h⟩))
      fun h => List.mem_map_of_mem (List.mem_filter.2 ⟨hoe, decide_eq_true h⟩)

theorem cancelled_nodup (db : Database) : (db.cancelled.map Prod.fst).Nodup := by
  rw [List.Nodup, List.pairwise_map]
  refine (List.nodup_dedup _).imp_of_mem fun {c c'} hc hc' hne heq => hne (Prod.ext heq ?_)
  rw [(mem_cancelled.1 hc).2, (mem_cancelled.1 hc').2]

theorem cancelled_find (db : Database) (k : UInt32 × Int) :
    ((db.cancelled.find? fun c => decide (c.1 = k)).map Prod.snd == some true) =
      db.isCancelled k := by
  cases hfind : db.cancelled.find? fun c => decide (c.1 = k) with
  | none =>
    have hno : db.isCancelled k ≠ true := fun h =>
      List.find?_eq_none.1 hfind (k, true) (mem_cancelled.2 ⟨h, rfl⟩) (decide_eq_true rfl)
    rw [eq_false_of_ne_true hno]
    rfl
  | some c =>
    have hk := List.find?_some hfind
    obtain ⟨hcancelled, htrue⟩ := mem_cancelled.1 (List.mem_of_find?_eq_some hfind)
    rw [← of_decide_eq_true hk, hcancelled, Option.map_some, htrue]
    rfl

/-- One row for each new order. -/
theorem orderCurrent_eq (db : Database) : db.orderCurrent =
    (db.orderEvents.filter fun oe => decide (oe.kind = 0)).map fun oe =>
      .of oe (some (db.filledOf oe.orderKey)) (some (db.isCancelled oe.orderKey)) := by
  have htotals : (db.filledTotals.map Prod.fst).Nodup := Table.groupSum_nodup _ _ _
  rw [orderCurrent, Table.leftJoin_eq htotals, Table.leftJoin_eq db.cancelled_nodup, List.map_map,
    List.filter_map, List.map_map]
  refine List.map_congr_left fun oe _ => ?_
  have hfilled := db.filledTotals_find oe.orderKey
  have hcancelled := db.cancelled_find oe.orderKey
  simp only [Function.comp_apply, CurrentRow.of, hfilled, hcancelled, Option.getD_some]
  cases db.isCancelled oe.orderKey <;> rfl

end Database

/-! ## The orders that are live -/

/-- What the view and the book both know of an order. -/
structure LiveOrder where
  orderId : Int
  participant : Int
  side : Side
  price : Int
  originalQuantity : Int
  remainingQuantity : Int
  deriving DecidableEq

def LiveOrder.of (x : RestingOrder) : LiveOrder :=
  ⟨x.id, x.participant, x.side, x.price, x.quantity, x.remaining⟩

def CurrentRow.liveOrder (r : CurrentRow) : LiveOrder :=
  ⟨r.orderId.toInt, r.participant.toInt, r.side, r.price.toInt, r.originalQuantity.toInt,
    r.remainingQuantity⟩

def CurrentRow.isLive (r : CurrentRow) : Bool :=
  decide (r.isCancelled = false ∧ 0 < r.remainingQuantity)

/-- The live orders of a shard, by the view. -/
def Database.liveOrders (db : Database) (shardId : UInt32) : List LiveOrder :=
  (db.orderCurrent.filter fun r => decide (r.shardId = shardId) && r.isLive).map
    CurrentRow.liveOrder

namespace Command

/-- The view has a row for this command that can be live. -/
def brings (c : Command) : Bool := decide (c.kind = 0 ∧ 0 < c.quantity.toInt)

/-- The view takes the id of this command for cancelled. -/
def removes (c : Command) : Bool := decide (c.kind = 1 ∨ c.kind = 2)

/-- The order as it was sent. -/
def liveOrder (c : Command) : LiveOrder :=
  ⟨c.id.toInt, c.participant.toInt, c.side, c.price.toInt, c.quantity.toInt, c.quantity.toInt⟩

end Command

/-- The ids that the view takes for cancelled. -/
def removedIds (cmds : List Command) : List Int :=
  (cmds.filter Command.removes).map fun c => c.id.toInt

/-- The id of an order that the view can show was not used before, neither by such an order nor by a
cancel or a replace. -/
def FreshIds (cmds : List Command) : Prop :=
  cmds.Pairwise fun c c' => c'.brings = true → (c.brings || c.removes) = true → c.id ≠ c'.id

instance (cmds : List Command) : Decidable (FreshIds cmds) :=
  inferInstanceAs (Decidable (cmds.Pairwise _))

/-- What the view makes of an order as it was sent. -/
def LiveOrder.after (ts : List Trade) (gone : List Int) (l : LiveOrder) : Option LiveOrder :=
  if l.orderId ∉ gone ∧ tradedBy l.orderId ts < l.remainingQuantity then
    some { l with remainingQuantity := l.remainingQuantity - tradedBy l.orderId ts }
  else none

theorem left_liveOrders (xs : List RestingOrder) (ts : List Trade) (gone : List Int) :
    (left xs ts gone).map LiveOrder.of =
      (xs.map LiveOrder.of).filterMap (LiveOrder.after ts gone) := by
  rw [left, List.map_map, List.filterMap_map]
  induction xs with
  | nil => rfl
  | cons x xs ih =>
    by_cases h : x.id ∉ gone ∧ tradedBy x.id ts < x.remaining
    · have hafter : (LiveOrder.after ts gone ∘ LiveOrder.of) x =
          some (.of { x with remaining := x.remaining - tradedBy x.id ts }) := if_pos h
      rw [List.filter_cons_of_pos (by simpa using h), List.map_cons, ih,
        List.filterMap_cons_some hafter]
      rfl
    · have hafter : (LiveOrder.after ts gone ∘ LiveOrder.of) x = none := if_neg h
      rw [List.filter_cons_of_neg (by simpa using h), ih, List.filterMap_cons_none hafter]

/-- The two sums of the view add up to what the order has traded, as no trade names it twice. -/
theorem tradedBy_eq_add {ts : List Trade} (h : ∀ t ∈ ts, t.aggressorId ≠ t.passiveId) (id : Int) :
    tradedBy id ts =
      ((ts.filter fun t => decide (t.aggressorId = id)).map Trade.quantity).sum +
        ((ts.filter fun t => decide (t.passiveId = id)).map Trade.quantity).sum := by
  induction ts with
  | nil => rfl
  | cons t ts ih =>
    have hne := h t List.mem_cons_self
    have ih := ih fun t' ht' => h t' (List.mem_cons_of_mem _ ht')
    rw [tradedBy, tradedIn] at ih ⊢
    by_cases ha : t.aggressorId = id
    · have hp : ¬ t.passiveId = id := fun hp => hne (ha.trans hp.symm)
      simp only [List.filter_cons, ha, hp, true_or, decide_true, decide_false, if_true,
        Bool.false_eq_true, if_false, List.map_cons, List.sum_cons, ih]
      omega
    · by_cases hp : t.passiveId = id
      · simp only [List.filter_cons, ha, hp, or_true, decide_true, decide_false, if_true,
          Bool.false_eq_true, if_false, List.map_cons, List.sum_cons, ih]
        omega
      · simp only [List.filter_cons, ha, hp, or_self, decide_false, Bool.false_eq_true, if_false,
          ih]

/-! ## The rows of a run -/

section Rows

variable {db db₁ : Database} {shardId : UInt32} {rs : List JournalEntry} {cmds : List Command}
  {tss : List (List Trade)} {b b₁ : OrderBook}

/-- A sum over the rows of the trades is the sum over the trades. -/
theorem sum_tradeRows (hex : b.ExecutesAll rs tss b₁) {p : TradeRow → Bool} {p' : Trade → Bool}
    (hp : ∀ seq t, p (.of shardId seq t) = p' t) :
    (((tradeRows shardId rs tss).filter p).map TradeRow.quantity).sum =
      ((tss.flatten.filter p').map Trade.quantity).sum := by
  induction hex with
  | nil => rfl
  | @cons b r ts b₁ rs tss b₂ _ _ ih =>
    have hrows : tradeRows shardId (r :: rs) (ts :: tss) =
      ts.map (TradeRow.of shardId r.seq) ++ tradeRows shardId rs tss := rfl
    have hpred : p ∘ TradeRow.of shardId r.seq = p' := funext (hp r.seq)
    rw [hrows, List.filter_append, List.map_append, List.sum_append, ih, List.filter_map, hpred,
      List.map_map, List.flatten_cons, List.filter_append, List.map_append, List.sum_append]
    rfl

theorem filledOf_eq (h₀ : db.Lacks shardId) (hex : b.ExecutesAll rs tss b₁)
    (htrades : db₁.trades = db.trades ++ tradeRows shardId rs tss)
    (hne : ∀ t ∈ tss.flatten, t.aggressorId ≠ t.passiveId) (id : Int) :
    db₁.filledOf (shardId, id) = tradedBy id tss.flatten := by
  have hold : ∀ f : TradeRow → Int,
      (db.trades.filter fun t => decide ((t.shardId, f t) = (shardId, id))) = [] := by
    intro f
    rw [List.filter_eq_nil_iff]
    intro t ht hkey
    exact h₀.trades t ht (Prod.mk.inj (of_decide_eq_true hkey)).1
  rw [Database.filledOf, htrades, List.filter_append, List.filter_append,
    hold TradeRow.aggressorOrderId, hold TradeRow.passiveOrderId, List.nil_append, List.nil_append,
    tradedBy_eq_add hne]
  congr 1
  · exact sum_tradeRows hex fun seq t => decide_eq_decide.2 (by simp [TradeRow.of])
  · exact sum_tradeRows hex fun seq t => decide_eq_decide.2 (by simp [TradeRow.of])

theorem mem_journalOf {first : Int} {r : JournalEntry} (hr : r ∈ journalOf first cmds) :
    r.kind = r.command.kind ∧ r.command ∈ cmds := by
  induction cmds generalizing first with
  | nil => cases hr
  | cons cmd cmds ih =>
    rcases List.mem_cons.1 hr with rfl | hr
    · exact ⟨rfl, List.mem_cons_self⟩
    · exact ⟨(ih hr).1, List.mem_cons_of_mem _ (ih hr).2⟩

theorem map_journalOf (first : Int) (cmds : List Command) :
    (journalOf first cmds).map JournalEntry.command = cmds := by
  induction cmds generalizing first with
  | nil => rfl
  | cons cmd cmds ih => exact congrArg (cmd :: ·) (ih _)

theorem orderKey_of (shardId : UInt32) {r : JournalEntry}
    (hkind : r.kind = 0 ∨ r.kind = 1 ∨ r.kind = 2) :
    (OrderEventRow.of shardId r).orderKey = (shardId, r.command.id.toInt) := by
  have hknown : (CommandKind.ofByte r.kind).isSome = true := by
    rcases hkind with h | h | h <;> rw [h] <;> rfl
  rw [OrderEventRow.orderKey, OrderEventRow.of, if_pos hknown]

theorem isCancelled_iff (h₀ : db.Lacks shardId)
    (hevents : db₁.orderEvents = db.orderEvents ++ (journalOf 0 cmds).map (.of shardId))
    (id : Int) :
    db₁.isCancelled (shardId, id) = true ↔ id ∈ removedIds cmds := by
  rw [Database.isCancelled, hevents, List.any_append, Bool.or_eq_true, List.any_eq_true,
    List.any_eq_true, removedIds, List.mem_map]
  constructor
  · rintro (⟨oe, hoe, h⟩ | ⟨oe, hoe, h⟩)
    · have hkey := (of_decide_eq_true h).2
      exact absurd (congrArg Prod.fst hkey) (h₀.orderEvents oe hoe)
    · obtain ⟨r, hr, rfl⟩ := List.mem_map.1 hoe
      obtain ⟨hkind, hkey⟩ := of_decide_eq_true h
      obtain ⟨hsame, hmem⟩ := mem_journalOf hr
      rw [orderKey_of shardId (Or.inr hkind)] at hkey
      refine ⟨r.command, List.mem_filter.2 ⟨hmem, ?_⟩, (Prod.mk.inj hkey).2⟩
      exact decide_eq_true (hsame ▸ hkind)
  · rintro ⟨cmd, hcmd, rfl⟩
    obtain ⟨hmem, hremoves⟩ := List.mem_filter.1 hcmd
    rw [← map_journalOf 0 cmds] at hmem
    obtain ⟨r, hr, rfl⟩ := List.mem_map.1 hmem
    have hkind : r.kind = 1 ∨ r.kind = 2 := (mem_journalOf hr).1 ▸ of_decide_eq_true hremoves
    exact Or.inr ⟨_, List.mem_map_of_mem hr,
      decide_eq_true ⟨hkind, orderKey_of shardId (Or.inr hkind)⟩⟩

/-- The live order of a row. -/
def Database.liveRow (db : Database) (shardId : UInt32) (oe : OrderEventRow) : Option LiveOrder :=
  if oe.kind = 0 ∧ oe.shardId = shardId ∧ db.isCancelled oe.orderKey = false ∧
      db.filledOf oe.orderKey < oe.quantity.toInt then
    some ⟨oe.orderId.toInt, oe.participant.toInt, oe.side, oe.price.toInt, oe.quantity.toInt,
      oe.quantity.toInt - db.filledOf oe.orderKey⟩
  else none

theorem Database.liveOrders_filterMap (db : Database) (shardId : UInt32) :
    db.liveOrders shardId = db.orderEvents.filterMap (db.liveRow shardId) := by
  rw [liveOrders, orderCurrent_eq, ← List.filterMap_eq_map, List.filterMap_filter,
    List.filterMap_map, List.filterMap_filter]
  refine List.filterMap_congr fun oe _ => ?_
  have hlive : (CurrentRow.of oe (some (db.filledOf oe.orderKey))
      (some (db.isCancelled oe.orderKey))).isLive = true ↔
        db.isCancelled oe.orderKey = false ∧ db.filledOf oe.orderKey < oe.quantity.toInt := by
    rw [CurrentRow.isLive, decide_eq_true_eq, CurrentRow.of, Option.getD_some, sub_pos]
    cases db.isCancelled oe.orderKey <;> simp
  rw [liveRow]
  by_cases hkind : oe.kind = 0
  · simp only [hkind, decide_true, if_true, Function.comp_apply, Bool.and_eq_true,
      decide_eq_true_eq, hlive, true_and]
    rfl
  · rw [if_neg (by simpa using hkind), if_neg fun h => hkind h.1]

/-- **The live orders of the view**: those that were sent, less what they have traded, without the
ids that were to be removed. -/
theorem liveOrders_eq (h₀ : db.Lacks shardId) (hex : b.ExecutesAll (journalOf 0 cmds) tss b₁)
    (hevents : db₁.orderEvents = db.orderEvents ++ (journalOf 0 cmds).map (.of shardId))
    (htrades : db₁.trades = db.trades ++ tradeRows shardId (journalOf 0 cmds) tss)
    (hts : ∀ t ∈ tss.flatten, 0 < t.quantity ∧ t.aggressorId ≠ t.passiveId) :
    db₁.liveOrders shardId = ((cmds.filter Command.brings).map Command.liveOrder).filterMap
      (LiveOrder.after tss.flatten (removedIds cmds)) := by
  have hold : db.orderEvents.filterMap (db₁.liveRow shardId) = [] := by
    rw [List.filterMap_eq_nil_iff]
    exact fun oe hoe => if_neg fun h => h₀.orderEvents oe hoe h.2.1
  have hrow : ∀ r ∈ journalOf 0 cmds, db₁.liveRow shardId (.of shardId r) =
      if r.command.brings = true then
        LiveOrder.after tss.flatten (removedIds cmds) r.command.liveOrder else none := by
    intro r hr
    have hkind := (mem_journalOf hr).1
    by_cases hnew : r.kind = 0
    · have hkey := orderKey_of shardId (Or.inl hnew)
      have hfilled := filledOf_eq h₀ hex htrades (fun t ht => (hts t ht).2) r.command.id.toInt
      have hcancelled := isCancelled_iff h₀ hevents r.command.id.toInt
      have hnonneg := @tradedBy_nonneg tss.flatten r.command.id.toInt fun t ht => (hts t ht).1
      have hafter : LiveOrder.after tss.flatten (removedIds cmds) r.command.liveOrder =
          if r.command.id.toInt ∉ removedIds cmds ∧
              tradedBy r.command.id.toInt tss.flatten < r.command.quantity.toInt then
            some { r.command.liveOrder with
              remainingQuantity :=
                r.command.quantity.toInt - tradedBy r.command.id.toInt tss.flatten }
          else none := rfl
      rw [Database.liveRow, hkey, hfilled, hafter, (Prod.mk.inj hkey).2]
      by_cases hlive : r.command.id.toInt ∉ removedIds cmds ∧
          tradedBy r.command.id.toInt tss.flatten < r.command.quantity.toInt
      · have hbrings : r.command.brings = true :=
          decide_eq_true ⟨hkind ▸ hnew, hnonneg.trans_lt hlive.2⟩
        have hno := eq_false_of_ne_true fun h => hlive.1 (hcancelled.1 h)
        rw [if_pos hlive, if_pos hbrings]
        exact if_pos ⟨hnew, rfl, hno, hlive.2⟩
      · rw [if_neg hlive, ite_self]
        refine if_neg fun h => hlive ⟨fun hmem => ?_, h.2.2.2⟩
        exact absurd (hcancelled.2 hmem) (ne_true_of_eq_false h.2.2.1)
    · rw [if_neg (fun h => hnew (hkind ▸ (of_decide_eq_true h).1))]
      exact if_neg fun h => hnew h.1
  rw [Database.liveOrders_filterMap, hevents, List.filterMap_append, hold, List.nil_append,
    List.filterMap_map, List.filterMap_map, List.filterMap_filter]
  refine (List.filterMap_congr hrow).trans ?_
  generalize removedIds cmds = gone
  conv_rhs => rw [← map_journalOf 0 cmds, List.filterMap_map]
  rfl

end Rows

/-! ## The commands that the view understands -/

namespace OrderBook

variable {b b₁ : OrderBook} {ps : List Ptr} {o : NewOrder} {past cmds : List Command}
  {cmd : Command} {ts ts' : List Trade} {tss : List (List Trade)}

/-- What rests can fill the order. -/
def Fills (b : OrderBook) (o : NewOrder) : Prop :=
  ∃ n ∈ b.availableWith (if o.type = .fok then add64 else (· + ·)) o, o.quantity ≤ n

/-- No order of the same participant rests at a price at which `o` could be matched. -/
def Apart (b : OrderBook) (o : NewOrder) : Prop :=
  ∀ x ∈ b.resting, x.side = o.side.opposite → x.participant = o.participant →
    o.type ≠ .market ∧ o.side.opposite.beyond (b.cfg.slot o.price) (b.cfg.slot x.price)

/-- The order is not refused, meets no order of its own participant, and is filled or rests. -/
def Takes (b : OrderBook) (o : NewOrder) : Prop :=
  (o.type ≠ .market → b.cfg.inRange o.price = true) ∧
    (b.Apart o ∨ b.cfg.stp ≠ .cancelPassive ∧ b.Fills o) ∧
    (b.Fills o ∨ o.type = .limit ∧ b.resting.length < b.cfg.maxOrders)

/-- The view makes of this call what the book does. -/
def Understood (b : OrderBook) : Call → Prop
  | .submit o => o.quantity ≤ 0 ∨ b.Takes o
  | .cancel _ => True
  | .replace oldId _ => ∀ x ∈ b.resting, x.id ≠ oldId

instance (b : OrderBook) (o : NewOrder) : Decidable (b.Fills o) :=
  inferInstanceAs (Decidable (∃ n ∈ _, o.quantity ≤ n))

instance (b : OrderBook) (o : NewOrder) : Decidable (b.Apart o) :=
  inferInstanceAs (Decidable (∀ x ∈ b.resting, _))

instance (b : OrderBook) (o : NewOrder) : Decidable (b.Takes o) :=
  inferInstanceAs (Decidable (_ ∧ _))

instance (b : OrderBook) : ∀ c : Call, Decidable (b.Understood c)
  | .submit o => inferInstanceAs (Decidable (o.quantity ≤ 0 ∨ b.Takes o))
  | .cancel _ => isTrue trivial
  | .replace oldId _ => inferInstanceAs (Decidable (∀ x ∈ b.resting, x.id ≠ oldId))

/-- The view understands each of these commands on the book that it finds. -/
def UnderstoodAll (b : OrderBook) : List Command → Prop
  | [] => True
  | cmd :: cmds => (∀ k ∈ CommandKind.ofByte cmd.kind, b.Understood (cmd.call k)) ∧
      ∀ b₁ ∈ b.apply cmd.kind cmd ⟨.empty 0, none⟩, UnderstoodAll b₁ cmds

instance decidableUnderstoodAll : ∀ (cmds : List Command) (b : OrderBook),
    Decidable (b.UnderstoodAll cmds)
  | [], _ => isTrue trivial
  | cmd :: cmds, b =>
    have : ∀ b₁ : OrderBook, Decidable (b₁.UnderstoodAll cmds) := decidableUnderstoodAll cmds
    inferInstanceAs (Decidable ((∀ k ∈ CommandKind.ofByte cmd.kind, b.Understood (cmd.call k)) ∧
      ∀ b₁ ∈ b.apply cmd.kind cmd ⟨.empty 0, none⟩, UnderstoodAll b₁ cmds))

theorem Repr.fills (hr : b.Repr ps none) (hw : (b.view ps).Wf) (h : b.Fills o) :
    (b.view ps).Fills o := by
  obtain ⟨n, hn, hle⟩ := h
  obtain ⟨m, hm, hscan⟩ := availableWith_spec (if o.type = .fok then add64 else (· + ·)) hr hw
  obtain rfl := Option.some.inj (hm.symm.trans hn)
  exact ⟨m, hscan, hle⟩

theorem Repr.takes (hr : b.Repr ps none) (hw : (b.view ps).Wf) (h : b.Takes o)
    (hq : 0 < o.quantity) (hid : ∀ x ∈ (b.view ps).orders, x.id ≠ o.id) : (b.view ps).Takes o where
  quantity := hq
  range := h.1
  fresh := hid
  foreign := h.2.1.imp (fun hapart x hx => hapart x (hr.mem_resting.2 hx)) fun hf =>
    ⟨hf.1, hr.fills hw hf.2⟩
  taken := h.2.2.imp (hr.fills hw) fun hroom =>
    ⟨hroom.1, (hr.resting_perm hw).length_eq.symm.trans_lt hroom.2⟩

end OrderBook

/-! ## The book that the view tells of -/

theorem removedIds_append (past cmds : List Command) :
    removedIds (past ++ cmds) = removedIds past ++ removedIds cmds := by
  rw [removedIds, List.filter_append, List.map_append]
  rfl

theorem removedIds_singleton (cmd : Command) :
    removedIds [cmd] = if cmd.removes = true then [cmd.id.toInt] else [] := by
  rw [removedIds, List.filter_singleton]
  cases cmd.removes <;> rfl

namespace QueueBook

variable {q q' : QueueBook} {past : List Command} {cmd : Command} {ts : List Trade} {e : Effect}
  {k : CommandKind}

/-- The orders at rest are those that the commands and the trades tell of. -/
def Told (q : QueueBook) (past : List Command) (ts : List Trade) : Prop :=
  ∃ xs, xs.map LiveOrder.of = (past.filter Command.brings).map Command.liveOrder ∧
    Reflects xs ts (removedIds past) q.orders

theorem Told.ids {xs : List RestingOrder}
    (hxs : xs.map LiveOrder.of = (past.filter Command.brings).map Command.liveOrder) :
    xs.map RestingOrder.id = (past.filter Command.brings).map fun c => c.id.toInt := by
  have hids := congrArg (List.map LiveOrder.orderId) hxs
  rw [List.map_map, List.map_map] at hids
  exact hids

/-- A command of which the view has no live row. -/
theorem Told.other {gone : List Int} {xs : List RestingOrder}
    (hxs : xs.map LiveOrder.of = (past.filter Command.brings).map Command.liveOrder)
    (hbrings : cmd.brings = false) (hgone : removedIds [cmd] = gone)
    (h : Reflects xs ts (removedIds past ++ gone) q'.orders) :
    q'.Told (past ++ [cmd]) (ts ++ []) := by
  refine ⟨xs, ?_, ?_⟩
  · rw [hxs, List.filter_append, List.filter_singleton, hbrings, cond_false, List.append_nil]
  · rw [List.append_nil, removedIds_append, hgone]
    exact h

theorem Submits.refused {o : NewOrder} {r : OrderResult} {vs : List StpVictim}
    (hs : q.Submits o r ts vs q') (hq : ¬ 0 < o.quantity) : ts = [] ∧ q' = q := by
  cases hs with
  | rejected => exact ⟨rfl, rfl⟩
  | unfillable hc => exact absurd (check_eq_none hc).1 hq
  | stp ha | rested ha | exhausted ha | filled ha | residual ha | fokResidual ha =>
    exact absurd (check_eq_none ha.check).1 hq

theorem Step.replace_unknown {oldId : Int} {fresh : NewOrder}
    (hs : q.Step (.replace oldId fresh) e q') (hold : ∀ x ∈ q.orders, x.id ≠ oldId) :
    e.trades = [] ∧ q' = q := by
  cases hs with
  | replaceRejected => exact ⟨rfl, rfl⟩
  | replaced hc =>
    have hno : (q.orders.any fun x => decide (x.id = oldId)) = false := by
      rw [List.any_eq_false]
      exact fun x hx => by simpa using hold x hx
    rw [checkReplace, if_pos hno] at hc
    cases hc

/-- **A command that the view understands.** -/
theorem Told.step (h : q.Told past ts) (hw : q.Wf) (hk : CommandKind.ofByte cmd.kind = some k)
    (hs : q.Step (cmd.call k) e q')
    (hnew : cmd.brings = true → (∀ x ∈ q.orders, x.id ≠ cmd.id.toInt) → q.Takes cmd.toNewOrder)
    (hold : k = .replace → ∀ x ∈ q.orders, x.id ≠ cmd.id.toInt)
    (hfresh : ∀ c ∈ past, cmd.brings = true → (c.brings || c.removes) = true → c.id ≠ cmd.id) :
    q'.Told (past ++ [cmd]) (ts ++ e.trades) := by
  obtain ⟨xs, hxs, hreflects⟩ := h
  have hkind := CommandKind.toByte_of_ofByte hk
  have hremoved : removedIds [cmd] = if k = .new then [] else [cmd.id.toInt] := by
    rw [removedIds_singleton, Command.removes, hkind]
    cases k <;> rfl
  have hquiet : k ≠ .new → cmd.brings = false := by
    intro hne
    rw [Command.brings, hkind]
    cases k <;> first | exact absurd rfl hne | rfl
  cases k with
  | new =>
    cases hs with
    | submit hs =>
    by_cases hbrings : cmd.brings = true
    · have hxid : cmd.id.toInt ∉ xs.map RestingOrder.id := by
        rw [Told.ids hxs]
        intro hmem
        obtain ⟨c, hc, hid⟩ := List.mem_map.1 hmem
        obtain ⟨hc, hcb⟩ := List.mem_filter.1 hc
        exact hfresh c hc hbrings (by rw [hcb, Bool.true_or]) (Int64.toInt_inj.1 hid)
      have hgone : cmd.id.toInt ∉ removedIds past := by
        intro hmem
        obtain ⟨c, hc, hid⟩ := List.mem_map.1 hmem
        obtain ⟨hc, hcr⟩ := List.mem_filter.1 hc
        exact hfresh c hc hbrings (by rw [hcr, Bool.or_true]) (Int64.toInt_inj.1 hid)
      have htakes := hnew hbrings fun x hx hid => hxid (hid ▸ hreflects.known x hx)
      refine ⟨xs ++ [cmd.toNewOrder.resting (q.seq + 1) cmd.toNewOrder.quantity], ?_, ?_⟩
      · rw [List.map_append, hxs, List.filter_append, List.filter_singleton, hbrings, cond_true,
          List.map_append]
        rfl
      · rw [removedIds_append, hremoved, if_pos rfl, List.append_nil]
        exact hreflects.submit htakes hs hw hxid hgone
    · have hq : ¬ 0 < cmd.toNewOrder.quantity := fun hq => hbrings (decide_eq_true ⟨hkind, hq⟩)
      obtain ⟨rfl, rfl⟩ := hs.refused hq
      refine Told.other hxs (eq_false_of_ne_true hbrings) hremoved ?_
      rw [if_pos rfl, List.append_nil]
      exact hreflects
  | cancel =>
    cases hs with
    | cancel hs => exact Told.other hxs (hquiet (by decide)) hremoved (hreflects.cancel hs)
  | replace =>
    obtain ⟨htrades, rfl⟩ := hs.replace_unknown (hold rfl)
    rw [htrades]
    exact Told.other hxs (hquiet (by decide)) hremoved
      (hreflects.remove (fun y hy => ⟨hy, hold rfl y hy⟩) fun y hy _ => hy)

end QueueBook

namespace OrderBook

variable {b b₁ : OrderBook} {past cmds : List Command} {cmd : Command} {ts ts' : List Trade}
  {tss : List (List Trade)}

def Told (b : OrderBook) (past : List Command) (ts : List Trade) : Prop :=
  ∃ ps, b.Repr ps none ∧ (b.view ps).Wf ∧ (b.view ps).Told past ts

theorem Told.executes (h : b.Told past ts) (hex : b.Executes cmd.kind cmd ts' b₁)
    (hu : ∀ k ∈ CommandKind.ofByte cmd.kind, b.Understood (cmd.call k))
    (hfresh : ∀ c ∈ past, cmd.brings = true → (c.brings || c.removes) = true → c.id ≠ cmd.id) :
    b₁.Told (past ++ [cmd]) (ts ++ ts') := by
  obtain ⟨ps, hr, hw, htold⟩ := h
  cases hk : CommandKind.ofByte cmd.kind with
  | none =>
    rw [Executes, hk] at hex
    obtain ⟨rfl, rfl⟩ := hex
    obtain ⟨xs, hxs, hreflects⟩ := htold
    have hbrings : cmd.brings = false := by
      rw [Command.brings, decide_eq_false_iff_not]
      rintro ⟨hkind, -⟩
      rw [hkind] at hk
      cases hk
    have hremoved : removedIds [cmd] = [] := by
      rw [removedIds_singleton, if_neg]
      intro hremoves
      rcases of_decide_eq_true hremoves with hkind | hkind <;> rw [hkind] at hk <;> cases hk
    refine ⟨ps, hr, hw, QueueBook.Told.other hxs hbrings hremoved ?_⟩
    rw [List.append_nil]
    exact hreflects
  | some k =>
    obtain ⟨e, ps', rfl, hr', hs⟩ := hex.step hr hw hk
    have hu := hu k hk
    refine ⟨ps', hr', hs.wf hw, htold.step hw hk hs (fun hbrings hid => ?_) (fun hreplace => ?_)
      hfresh⟩
    · obtain ⟨hzero, hq⟩ := of_decide_eq_true hbrings
      obtain rfl : CommandKind.new = k := by
        rw [hzero] at hk
        exact Option.some.inj hk
      exact hr.takes hw (hu.resolve_left hq.not_ge) hq hid
    · subst hreplace
      exact fun x hx => hu x (hr.mem_resting.2 hx)

/-- **A run of commands that the view understands.** -/
theorem Told.executesAll {n : Int} (h : b.Told past ts)
    (hex : b.ExecutesAll (journalOf n cmds) tss b₁) (hu : b.UnderstoodAll cmds)
    (hfresh : FreshIds (past ++ cmds)) : b₁.Told (past ++ cmds) (ts ++ tss.flatten) := by
  induction cmds generalizing b past ts tss n with
  | nil =>
    cases hex
    rw [List.append_nil, List.flatten_nil, List.append_nil]
    exact h
  | cons cmd cmds ih =>
    cases hex with
    | @cons _ _ ts' b' _ tss' _ hcmd hrest =>
    have hnext := h.executes hcmd hu.1 fun c hc =>
      (List.pairwise_append.1 hfresh).2.2 c hc cmd List.mem_cons_self
    rw [List.append_cons] at hfresh ⊢
    rw [List.flatten_cons, ← List.append_assoc]
    exact ih hnext hrest (hu.2 _ (hcmd.apply _)) hfresh

end OrderBook

namespace Auditd

variable {cfg : BookConfig} {b : OrderBook} {shardId : UInt32} {db : Database}

/-- **The view shows the book.** A process that ingests a shard's journal from its first record
leaves a view whose live orders are those at rest in the matching thread's book, if the view
understands each of the commands and no id is used again. -/
theorem liveOrders_exact (hb : OrderBook.create cfg = some b) (h₀ : db.Lacks shardId)
    (batchSize : Nat) {cmds : List Command} {polls : List Poll}
    (hpolls : records polls = journalOf 0 cmds) (hfresh : FreshIds cmds)
    (hu : b.UnderstoodAll cmds) : ∃ events t db₁,
    (⟨b, 0⟩ : MatchingThread).run cmds = some (events, t) ∧
    runShard cfg shardId batchSize db polls = some db₁ ∧
    (db₁.liveOrders shardId).Perm (t.book.resting.map LiveOrder.of) := by
  obtain ⟨hr₀, hview₀⟩ := OrderBook.repr_create hb
  have hw₀ : (b.view []).Wf := hview₀ ▸ OrderBook.emptyView_wf cfg
  have htold₀ : b.Told [] [] := ⟨[], hr₀, hw₀, [], rfl, hview₀ ▸ reflects_nil⟩
  obtain ⟨tss, b₁, hex⟩ := OrderBook.Represented.executesAll ⟨[], hr₀, hw₀⟩ (journalOf 0 cmds)
  obtain ⟨ps, hr, hw, xs, hxs, hreflects⟩ := htold₀.executesAll hex hu hfresh
  rw [List.nil_append] at hxs hreflects
  rw [List.nil_append] at hreflects
  obtain ⟨db₁, hrun, hevents, htrades, -⟩ := runShard_fresh hb h₀ batchSize hpolls hex
  obtain ⟨⟨events, t⟩, hthread, rfl⟩ := Option.map_eq_some_iff.1 (hex.run_book 0)
  refine ⟨events, t, db₁, hthread, hrun, ?_⟩
  have hlive := liveOrders_eq h₀ hex hevents htrades fun u hu =>
    ⟨(hreflects.trades u hu).1, (hreflects.trades u hu).2.1⟩
  rw [hlive, ← hxs, ← left_liveOrders]
  exact ((hreflects.perm hw).trans (hr.resting_perm hw).symm).map _

/-- A sell that is partly bought, another that is cancelled, and a replace of an unknown id. -/
def understoodCommands : List Command :=
  [⟨1, 0, 110, 5, 1, 0, .sell, .limit, 0⟩, ⟨2, 0, 110, 5, 1, 0, .sell, .limit, 0⟩,
    ⟨3, 0, 110, 2, 2, 0, .buy, .ioc, 0⟩, ⟨2, 0, 0, 0, 1, 1, .sell, .limit, 0⟩,
    ⟨9, 8, 110, 5, 1, 2, .sell, .limit, 0⟩]

theorem liveOrders_exact_understoodCommands : ∃ b events t db₁,
    OrderBook.create OrderBook.smallConfig = some b ∧
    (⟨b, 0⟩ : MatchingThread).run understoodCommands = some (events, t) ∧
    runShard OrderBook.smallConfig 1 2 .empty ((journalOf 0 understoodCommands).map .ok) =
      some db₁ ∧
    (db₁.liveOrders 1).Perm (t.book.resting.map LiveOrder.of) ∧
    t.book.resting.map LiveOrder.of = [⟨1, 1, .sell, 110, 5, 3⟩] := by
  have hb := OrderBook.create_smallConfig
  have hempty : Database.empty.Lacks 1 :=
    ⟨List.forall_mem_nil _, List.forall_mem_nil _, rfl⟩
  have hpolls : records ((journalOf 0 understoodCommands).map .ok) =
      journalOf 0 understoodCommands := rfl
  obtain ⟨events, t, db₁, hthread, hrun, hperm⟩ :=
    liveOrders_exact hb hempty 2 hpolls (by decide +kernel) (by decide +kernel)
  refine ⟨_, events, t, db₁, hb, hthread, hrun, hperm, ?_⟩
  have hbook : (((⟨OrderBook.smallBook, 0⟩ : MatchingThread).run understoodCommands).map fun st => st.2.book.resting.map LiveOrder.of) =
        some [⟨1, 1, .sell, 110, 5, 3⟩] := by
    decide +kernel
  rw [hthread] at hbook
  exact Option.some.inj hbook

/-- The view's live orders and the book after these commands, from an empty book. -/
def viewAndBook (cmds : List Command) : Option (List LiveOrder × List LiveOrder) := do
  let b ← OrderBook.create OrderBook.smallConfig
  let (_, t) ← (⟨b, 0⟩ : MatchingThread).run cmds
  let db ← runShard OrderBook.smallConfig 1 2 .empty ((journalOf 0 cmds).map .ok)
  some (db.liveOrders 1, t.book.resting.map LiveOrder.of)

/-- A replacement rests and the view has no row for it; an order whose price is out of range is
refused, and one of which the rest is dropped is gone, and the view shows both as live. -/
theorem view_misses_the_book :
    viewAndBook [⟨1, 0, 110, 5, 1, 0, .sell, .limit, 0⟩, ⟨1, 2, 120, 4, 1, 2, .sell, .limit, 0⟩] =
        some ([], [⟨2, 1, .sell, 120, 4, 4⟩]) ∧
      viewAndBook [⟨1, 0, 90000000, 5, 1, 0, .sell, .limit, 0⟩] =
        some ([⟨1, 1, .sell, 90000000, 5, 5⟩], []) ∧
      viewAndBook [⟨1, 0, 110, 2, 1, 0, .sell, .limit, 0⟩, ⟨2, 0, 110, 5, 2, 0, .buy, .ioc, 0⟩] =
        some ([⟨2, 2, .buy, 110, 5, 3⟩], []) := by
  decide +kernel

end Auditd

end Velox
