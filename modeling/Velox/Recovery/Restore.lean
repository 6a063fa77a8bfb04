import Velox.Engine.Ledger
import Velox.Runtime.MatchingThread
import Velox.Sequencer.Snapshot

/-!
# Restoring a snapshot

Following `recovery/recovery_manager.hpp`, the part that loads a snapshot, with `restoreResting`
and `restoreCounters` of the book.

A snapshot of a book whose best prices are exact is loaded into a book that nobody can tell from
the original: the records list every queue in order (`Wf.walks_queue`), re-insertion rebuilds
the queues (`restoreAll_spec`), and the best prices are determined by what rests
(`Sharp.best_of_perm`). That the fields survive the 64-bit format is `QueueBook.Fits`, kept by
every call whose command is made of 64-bit integers.
-/

namespace Velox

/-! ## Fields and counters -/

/-- The fields of an order as submitted are 64-bit values. -/
structure NewOrder.Fits (o : NewOrder) : Prop where
  id : Fits64 o.id
  price : Fits64 o.price
  quantity : Fits64 o.quantity
  participant : Fits64 o.participant

theorem Command.fits_call (c : Command) (k : CommandKind) : ∀ o ∈ (c.call k).order, o.Fits := by
  intro o ho
  cases k with
  | cancel => cases ho
  | new =>
    cases ho
    exact ⟨fits64_toInt _, fits64_toInt _, fits64_toInt _, fits64_toInt _⟩
  | replace =>
    cases ho
    exact ⟨fits64_toInt _, fits64_toInt _, fits64_toInt _, fits64_toInt _⟩

namespace QueueBook

/-- What a snapshot of the book has to hold. Each trade exhausts an order, so the trades and the
orders at rest are together no more than the arrivals. -/
structure Fits (q : QueueBook) : Prop where
  wf : q.Wf
  order : ∀ x ∈ q.orders, Fits64 x.id ∧ Fits64 x.price ∧ Fits64 x.quantity ∧ Fits64 x.participant
  seq_pos : ∀ x ∈ q.orders, 0 < x.seq
  trades : 0 ≤ q.nextTradeId
  credit : q.nextTradeId + q.orders.length ≤ q.seq

section Fits

variable {q q' : QueueBook} {o : NewOrder} {rem rem' : Int} {oc : MatchOutcome} {ts : List Trade}
  {vs : List StpVictim}

/-- One for an order that still has something left. -/
def credit (rem : Int) : Int := if 0 < rem then 1 else 0

theorem length_remove {x : RestingOrder} (hx : x ∈ q.orders) :
    (q.remove x.id).orders.length + 1 ≤ q.orders.length := by
  have hlt : (q.remove x.id).orders.length < q.orders.length :=
    List.length_filter_lt_length_iff_exists.2 ⟨x, hx, by simp⟩
  omega

/-- Every trade exhausts one of its two orders. -/
theorem Match.credit_le (hm : Match o q rem oc ts vs q' rem') (hw : q.Wf) :
    q'.nextTradeId + q'.orders.length + credit rem' ≤
      q.nextTradeId + q.orders.length + credit rem := by
  induction hm with
  | exhausted | noLongerCrosses | stpAggressor => exact le_rfl
  | stale _ hf _ ih => simpa using ih (hw.levelEmptied hf)
  | @trade q rem _ _ _ _ _ x _ hl hf _ _ ih =>
    have hrest := ih (hw.afterTrade hl.rem_pos hf)
    have hpos := hw.positive _ (mem_of_front hf).1
    have hrem := hl.rem_pos
    rw [afterTrade_nextTradeId, afterTrade_orders] at hrest
    refine hrest.trans ?_
    rw [fill, credit, credit, if_pos hrem]
    split
    · have := length_remove (mem_of_front hf).1
      split <;> omega
    · have hsame : (q.reduce x.id (min rem x.remaining)).orders.length = q.orders.length :=
        List.length_map _
      rw [hsame, if_neg (by omega)]
      omega
  | stpPassive _ hf _ _ _ ih =>
    have hrest := ih hw.afterVictim
    have := length_remove (mem_of_front hf).1
    rw [afterVictim_nextTradeId, afterVictim_orders] at hrest
    omega
  | stpBoth _ hf =>
    have := length_remove (mem_of_front hf).1
    rw [afterVictim_nextTradeId, afterVictim_orders]
    omega

theorem Submits.fits {r : OrderResult} (h : q.Submits o r ts vs q') (hf : q.Fits) (ho : o.Fits) :
    q'.Fits := by
  have hw := h.wf hf.wf
  -- What matching leaves, whatever happens to the residual.
  have hmatch : ∀ {oc q₁ rem}, Match o q.arrive o.quantity oc ts vs q₁ rem →
      (∀ x ∈ q₁.orders, Fits64 x.id ∧ Fits64 x.price ∧ Fits64 x.quantity ∧ Fits64 x.participant) ∧
      (∀ x ∈ q₁.orders, 0 < x.seq) ∧ 0 ≤ q₁.nextTradeId ∧
      q₁.nextTradeId + q₁.orders.length + credit rem ≤ q₁.seq := by
    intro oc q₁ rem hm
    refine ⟨fun x hx => ?_, fun x hx => ?_, ?_, ?_⟩
    · obtain ⟨y, hy, heq⟩ := hm.mem_orders hx
      rw [heq]
      exact hf.order y hy
    · obtain ⟨y, hy, heq⟩ := hm.mem_orders hx
      rw [heq]
      exact hf.seq_pos y hy
    · rw [hm.nextTradeId_eq]
      have := hf.trades
      exact Int.add_nonneg this (Int.natCast_nonneg _)
    · have hle := hm.credit_le hf.wf.arrive
      have hcredit := hf.credit
      have hone : credit o.quantity ≤ 1 := by
        rw [credit]
        split <;> decide
      rw [hm.seq_eq]
      change _ ≤ q.seq + 1
      change _ ≤ q.nextTradeId + q.orders.length + credit o.quantity at hle
      omega
  have hnonneg : ∀ rem, 0 ≤ credit rem := fun rem => by
    rw [credit]
    split <;> decide
  cases h with
  | rejected | unfillable => exact hf
  | @stp _ _ _ rem _ hm | @exhausted _ _ _ _ rem _ hm | @filled _ _ _ _ rem _ hm
  | @residual _ _ _ _ rem _ hm | @fokResidual _ _ _ _ rem _ hm =>
    obtain ⟨horder, hseq, htr, hcr⟩ := hmatch hm
    exact ⟨hw, horder, hseq, htr, by have := hnonneg rem; omega⟩
  | @rested _ _ _ q₁ rem _ hm _ _ hrem =>
    obtain ⟨horder, hseq, htr, hcr⟩ := hmatch hm
    rw [credit, if_pos hrem] at hcr
    have hseq' : q.seq + 1 = q₁.seq := hm.seq_eq.symm
    refine ⟨hw, fun x hx => ?_, fun x hx => ?_, by rwa [add_nextTradeId], ?_⟩
    · rw [add_orders, List.mem_append, List.mem_singleton] at hx
      rcases hx with hx | rfl
      · exact horder x hx
      · exact ⟨ho.id, ho.price, ho.quantity, ho.participant⟩
    · rw [add_orders, List.mem_append, List.mem_singleton] at hx
      rcases hx with hx | rfl
      · exact hseq x hx
      · change 0 < q.seq + 1
        rw [hseq']
        omega
    · rw [add_nextTradeId, add_orders, add_seq, List.length_append, List.length_singleton]
      push_cast
      omega

theorem Cancels.fits {id : Int} {r : OrderResult} (h : q.Cancels id r q') (hf : q.Fits) :
    q'.Fits := by
  have hw := h.wf hf.wf
  have hseq := h.seq_eq
  have hmem : ∀ x ∈ q'.orders, x ∈ q.orders := fun x hx => h.origin hx
  refine ⟨hw, fun x hx => hf.order x (hmem x hx), fun x hx => hf.seq_pos x (hmem x hx), ?_, ?_⟩ <;>
    cases h with
    | unknown => first | exact hf.trades | exact hf.credit
    | found hx hid =>
      subst hid
      have hlen := length_remove hx
      have htr := hf.trades
      have hcr := hf.credit
      simp only [settle_nextTradeId, settle_orders, settle_seq, remove] at *
      omega

/-- **Every call keeps the fields and counters in range**, relative to the arrivals. -/
theorem Step.fits {c : Call} {e : Effect} (h : q.Step c e q') (hf : q.Fits)
    (ho : ∀ o ∈ c.order, o.Fits) : q'.Fits := by
  cases h with
  | submit h => exact h.fits hf (ho _ rfl)
  | cancel h => exact h.fits hf
  | replaceRejected => exact hf
  | replaced _ hc hs => exact hs.fits (hc.fits hf) (ho _ rfl)

theorem Submits.seq_succ {r : OrderResult} (h : q.Submits o r ts vs q') : q'.seq ≤ q.seq + 1 := by
  cases h with
  | rejected | unfillable => exact Int.le_add_one le_rfl
  | stp _ hm | exhausted _ hm | filled _ hm | residual _ hm | fokResidual _ hm => exact hm.seq_eq.le
  | rested _ hm =>
    rw [add_seq]
    exact hm.seq_eq.le

/-- A call takes at most one arrival number. -/
theorem Step.seq_succ {c : Call} {e : Effect} (h : q.Step c e q') : q'.seq ≤ q.seq + 1 := by
  cases h with
  | submit h => exact h.seq_succ
  | cancel h => exact h.seq_eq.le.trans (Int.le_add_one le_rfl)
  | replaceRejected => exact Int.le_add_one le_rfl
  | replaced _ hc hs =>
    rw [← hc.seq_eq]
    exact hs.seq_succ

end Fits

/-! ## Re-insertion -/

section Insert

variable {q q' : QueueBook} {s : Side}

/-- The orders join one after the other, without matching. -/
def addAll (q : QueueBook) (xs : List RestingOrder) : QueueBook := xs.foldl add q

@[simp] theorem addAll_nil (q : QueueBook) : q.addAll [] = q := rfl

@[simp] theorem addAll_cons (q : QueueBook) (x : RestingOrder) (xs : List RestingOrder) :
    q.addAll (x :: xs) = (q.add x).addAll xs := rfl

@[simp] theorem addAll_cfg (q : QueueBook) (xs : List RestingOrder) : (q.addAll xs).cfg = q.cfg := by
  induction xs generalizing q with
  | nil => rfl
  | cons x xs ih => rw [addAll_cons, ih, add_cfg]

theorem addAll_orders (q : QueueBook) (xs : List RestingOrder) :
    (q.addAll xs).orders = q.orders ++ xs := by
  induction xs generalizing q with
  | nil => exact (List.append_nil _).symm
  | cons x xs ih =>
    rw [addAll_cons, ih, add_orders, List.append_assoc]
    rfl

theorem isBetter_iff_rank {p b : Int} : s.isBetter p b = true ↔ s.rank p < s.rank b := by
  cases s <;> simp [Side.isBetter, Side.rank]

/-- The best price afterwards is the old one or that of an order that joined, and none of them is
better. -/
theorem addAll_best (q : QueueBook) (xs : List RestingOrder) (s : Side) :
    ((q.addAll xs).best s = q.best s ∨ ∃ x ∈ xs, x.side = s ∧ x.price = (q.addAll xs).best s) ∧
      s.rank ((q.addAll xs).best s) ≤ s.rank (q.best s) ∧
      ∀ x ∈ xs, x.side = s → s.rank ((q.addAll xs).best s) ≤ s.rank x.price := by
  induction xs generalizing q with
  | nil => simp
  | cons x xs ih =>
    obtain ⟨hfrom, hold, hall⟩ := ih (q.add x)
    have hstep := q.add_best s x
    rw [addAll_cons]
    by_cases hb : s = x.side ∧ s.isBetter x.price (q.best s) = true
    · rw [if_pos hb] at hstep
      rw [hstep] at hfrom hold
      have hlt := isBetter_iff_rank.1 hb.2
      refine ⟨Or.inr ?_, hold.trans hlt.le, fun y hy hside => ?_⟩
      · rcases hfrom with h | ⟨y, hy, hside, h⟩
        · exact ⟨x, List.mem_cons_self, hb.1.symm, h.symm⟩
        · exact ⟨y, List.mem_cons_of_mem _ hy, hside, h⟩
      · rcases List.mem_cons.1 hy with rfl | hy
        · exact hold
        · exact hall y hy hside
    · rw [if_neg hb] at hstep
      rw [hstep] at hfrom hold
      refine ⟨hfrom.imp_right ?_, hold, fun y hy hside => ?_⟩
      · rintro ⟨y, hy, hside, h⟩
        exact ⟨y, List.mem_cons_of_mem _ hy, hside, h⟩
      · rcases List.mem_cons.1 hy with rfl | hy
        · have hno : ¬ s.rank y.price < s.rank (q.best s) := fun h =>
            hb ⟨hside.symm, isBetter_iff_rank.2 h⟩
          omega
        · exact hall y hy hside

theorem rank_le_sentinel {cfg : BookConfig} {p : Int} (hp : cfg.inRange p = true) :
    s.rank p ≤ s.rank (emptySentinel s) := by
  have hlo := cfg.minPrice_fits
  have hhi := cfg.maxPrice_fits
  rw [BookConfig.inRange_iff] at hp
  cases s <;> simp only [Side.rank, emptySentinel] <;> omega

/-- **What rests determines the best prices** of a sharp book, so re-insertion finds them. -/
theorem Sharp.best_addAll (hs : q.Sharp) {xs : List RestingOrder} (hperm : xs.Perm q.orders)
    (he : q'.best s = emptySentinel s) : (q'.addAll xs).best s = q.best s := by
  obtain ⟨hfrom, -, hall⟩ := q'.addAll_best xs s
  rw [he] at hfrom
  by_cases hq : q.best s = emptySentinel s
  · have hnone := hs.best_eq_sentinel.1 hq
    rcases hfrom with h | ⟨x, hx, hside, -⟩
    · rw [h, hq]
    · exact absurd hside (hnone x (hperm.mem_iff.1 hx))
  · obtain ⟨x, hx, hside, hprice⟩ := (hs.exact s).resolve_left hq
    have hle := hall x (hperm.mem_iff.2 hx) hside
    rw [hprice] at hle
    rcases hfrom with h | ⟨y, hy, hyside, hyprice⟩
    · -- The sentinel is the worst price there is.
      rw [h] at hle
      have hworst : s.rank (q.best s) ≤ s.rank (emptySentinel s) :=
        rank_le_sentinel ((hs.wf.best s).resolve_left hq)
      exact absurd (Side.rank_inj (le_antisymm hworst hle)) hq
    · have hge := (hs.best_le (hperm.mem_iff.1 hy)).2
      rw [hyside, hyprice] at hge
      exact Side.rank_inj (le_antisymm hle hge)

end Insert

end QueueBook

/-! ## The restore loop -/

namespace OrderBook

variable {b : OrderBook} {ps : List Ptr}

/-- **An order is restored**: the pool has room and the id is new. -/
theorem restoreResting_spec (hr : b.Repr ps none) {o : NewOrder} (remaining seq : Int)
    (hrange : b.cfg.inRange o.price = true) (hid : ∀ y ∈ (b.view ps).orders, y.id ≠ o.id)
    (hroom : (b.view ps).orders.length < b.cfg.maxOrders) :
    ∃ b' p, b.restoreResting o remaining seq = some (true, b') ∧ b'.Repr (ps ++ [p]) none ∧
      b'.view (ps ++ [p]) = (b.view ps).add (o.resting seq remaining) := by
  obtain ⟨p, pool, hacq, hp, hlive, hval, hcap⟩ := ObjectPool.acquire_available hr.live
    (by rw [hr.capacity]; simpa [view] using hroom)
  let node : Order := ⟨remaining, o.participant, o.price, o.id, none, none, o.side, o.quantity, seq,
    none⟩
  obtain ⟨m, h', t, hadd, hins, hrepr, hview⟩ :=
    repr_link (x := node) hr hp hlive hcap hval hrange hid
  refine ⟨_, p, ?_, hrepr, hview⟩
  have hins' : b.idMap.insert idHash o.id p = (true, t) := hins
  have hadd' : (b.sideOf o.side).addOrder (Function.update pool.value p node) p = some (m, h') := hadd
  have hside : ∀ (s : Side) (pool : ObjectPool Order),
      ({ b with pool := pool, idMap := t } : OrderBook).sideOf s = b.sideOf s := by
    intro s pool
    cases s <;> rfl
  -- Whether the id map or the level is written first makes no difference.
  have hbook : ∀ (s : Side) (h : Heap),
      (({ b with pool := { pool with value := h }, idMap := t } : OrderBook).setSide s m).setHeap h' =
        { (({ b with pool := pool } : OrderBook).setSide s m).setHeap h' with idMap := t } := by
    intro s h
    cases s <;> rfl
  simp only [restoreResting, hacq, hins']
  change ((OrderBook.sideOf _ o.side).addOrder (Function.update pool.value p node) p).bind _ = _
  rw [hside, hadd', Option.bind_some, hbook]

end OrderBook

namespace RecoveryManager

/-- The loop of `recover` over the orders of a snapshot; `false` when one is refused. -/
def restoreAll (b : OrderBook) : List OrderRecord → Option (Bool × OrderBook)
  | [] => some (true, b)
  | r :: rs => do
    let (restored, b) ← b.restoreResting r.toNewOrder r.remaining.toInt r.seq.toInt
    if restored then restoreAll b rs else some (false, b)

/-- Loading a snapshot into the book. -/
def restore (b : OrderBook) (snap : LoadedSnapshot) : Option (Bool × OrderBook) := do
  let (restored, b) ← restoreAll b snap.orders
  if restored then
    some (true, b.restoreCounters (seqOfU64 snap.header.bookSeq) (seqOfU64 snap.header.nextTradeId))
  else
    some (false, b)

/-- **Distinct orders in range are all restored**, as far as the pool goes. -/
theorem restoreAll_spec {b : OrderBook} {ps : List Ptr} (rs : List OrderRecord)
    (hr : b.Repr ps none) (hrange : ∀ r ∈ rs, b.cfg.inRange r.toOrder.price = true)
    (hids : (((b.view ps).orders ++ rs.map OrderRecord.toOrder).map RestingOrder.id).Nodup)
    (hroom : (b.view ps).orders.length + rs.length ≤ b.cfg.maxOrders) :
    ∃ b' ps', restoreAll b rs = some (true, b') ∧ b'.Repr ps' none ∧
      b'.view ps' = (b.view ps).addAll (rs.map OrderRecord.toOrder) := by
  induction rs generalizing b ps with
  | nil => exact ⟨b, ps, rfl, hr, rfl⟩
  | cons r rs ih =>
    have hnew : ∀ y ∈ (b.view ps).orders, y.id ≠ r.toNewOrder.id := by
      rw [List.map_append, List.nodup_append] at hids
      intro y hy
      exact hids.2.2 _ (List.mem_map_of_mem hy) _ (List.mem_map_of_mem List.mem_cons_self)
    rw [List.length_cons] at hroom
    obtain ⟨b₁, p, hrest, hr₁, hview₁⟩ := OrderBook.restoreResting_spec hr r.remaining.toInt
      r.seq.toInt (hrange r List.mem_cons_self) hnew (by omega)
    have hcfg : b₁.cfg = b.cfg := (congrArg QueueBook.cfg hview₁).trans (QueueBook.add_cfg _ _)
    have horders : (b₁.view (ps ++ [p])).orders = (b.view ps).orders ++ [r.toOrder] := by
      rw [hview₁, QueueBook.add_orders]
      rfl
    obtain ⟨b', ps', hall, hr', hview'⟩ := ih hr₁
      (fun r' hr' => by rw [hcfg]; exact hrange r' (List.mem_cons_of_mem _ hr'))
      (by rw [horders, List.append_assoc]; exact hids)
      (by rw [horders, hcfg, List.length_append, List.length_singleton]; omega)
    refine ⟨b', ps', ?_, hr', ?_⟩
    · rw [restoreAll, hrest]
      exact hall
    · rw [hview', hview₁]
      rfl

end RecoveryManager

/-! ## Snapshot and tail -/

/-- The limit order this submission brings, if any, is on the grid and visible. -/
def Submission.Aligned (cfg : BookConfig) (c : Submission) : Prop :=
  ∀ k ∈ CommandKind.ofByte c.kind, ∀ o ∈ (c.command.call k).order, o.Aligned cfg

instance (cfg : BookConfig) (c : Submission) : Decidable (c.Aligned cfg) :=
  inferInstanceAs (Decidable (∀ k ∈ CommandKind.ofByte c.kind,
    ∀ o ∈ (c.command.call k).order, o.Aligned cfg))

theorem QueueBook.Wf.reorder {q : QueueBook} (hw : q.Wf) {xs : List RestingOrder}
    (hxs : ∀ s i, QueueBook.atSlot q.cfg s i xs = q.queue s i) :
    ({ q with orders := xs } : QueueBook).Wf := by
  have hperm : xs.Perm q.orders := QueueBook.perm_of_atSlot hxs
  refine ⟨fun x hx => hw.inRange x (hperm.mem_iff.1 hx), fun x hx => hw.positive x (hperm.mem_iff.1 hx),
    (hperm.map _).nodup_iff.2 hw.ids, hperm.length_eq.le.trans hw.room, fun s i => ?_,
    fun x hx => hw.seq_le x (hperm.mem_iff.1 hx), hw.best, fun x hx => hw.ahead x (hperm.mem_iff.1 hx)⟩
  have := hw.seqs s i
  rwa [← hxs] at this

namespace OrderBook

/-- The best prices of the book are exact, and it has seen at most `n` arrivals. -/
def Exact (b : OrderBook) (n : Nat) : Prop :=
  ∃ ps, b.Repr ps none ∧ (b.view ps).Sharp ∧ (b.view ps).Fits ∧ b.seq ≤ n

section Exact

variable {b b' b₀ : OrderBook} {cfg : BookConfig} {n : Nat}

theorem fits_emptyView (cfg : BookConfig) : (emptyView cfg).Fits :=
  ⟨emptyView_wf cfg, by simp [emptyView], by simp [emptyView], le_rfl, le_rfl⟩

/-- Commands made of 64-bit integers keep the fields and counters of the book in range, wherever
their prices are. -/
theorem applyAll_fits {ps : List Ptr} (hr : b.Repr ps none) (hf : (b.view ps).Fits)
    (cs : List Submission) :
    ∃ b₁ ps₁, (∀ out, b.applyAll out cs = some b₁) ∧ b₁.Repr ps₁ none ∧ (b₁.view ps₁).Fits ∧
      b₁.cfg = b.cfg := by
  induction cs generalizing b ps with
  | nil => exact ⟨b, ps, fun _ => rfl, hr, hf, rfl⟩
  | cons c cs ih =>
    obtain ⟨b₁, ps₁, hap, hr₁, hstep⟩ := apply_spec c.kind c.command hr hf.wf
    obtain ⟨hf₁, hcfg⟩ : (b₁.view ps₁).Fits ∧ b₁.cfg = b.cfg := by
      rcases hstep with hview | ⟨k, -, e, hstep⟩
      · exact ⟨hview ▸ hf, (congrArg QueueBook.cfg hview).symm⟩
      · exact ⟨hstep.fits hf (c.command.fits_call k), hstep.cfg_eq⟩
    obtain ⟨b₂, ps₂, hall, hr₂, hf₂, hcfg₂⟩ := ih hr₁ hf₁
    refine ⟨b₂, ps₂, fun out => ?_, hr₂, hf₂, hcfg₂.trans hcfg⟩
    rw [OrderBook.applyAll, hap]
    exact hall out

theorem Reachable.fits (h : b.Reachable) : ∃ ps, b.Repr ps none ∧ (b.view ps).Fits := by
  obtain ⟨cfg, b₀, cs, out, b₁, hb₀, hall, ps, ps', hr, hr', hw, hview⟩ := h
  obtain ⟨hr₀, hview₀⟩ := repr_create hb₀
  obtain ⟨b₂, ps₂, hall₂, hr₂, hf₂, -⟩ :=
    applyAll_fits hr₀ (by rw [hview₀]; exact fits_emptyView cfg) cs
  obtain rfl : b₁ = b₂ := Option.some.inj (hall.symm.trans (hall₂ out))
  -- The two listings of the same heap differ in their order only.
  have hperm : (b.view ps).orders.Perm (b₁.view ps₂).orders := by
    rw [hview]
    exact (hr'.resting_perm (hview ▸ hw)).symm.trans (hr₂.resting_perm hf₂.wf)
  have hseq : (b.view ps).seq = (b₁.view ps₂).seq := by
    rw [hview]
    rfl
  have htrades : (b.view ps).nextTradeId = (b₁.view ps₂).nextTradeId := by
    rw [hview]
    rfl
  refine ⟨ps, hr, hw, fun x hx => hf₂.order x (hperm.mem_iff.1 hx),
    fun x hx => hf₂.seq_pos x (hperm.mem_iff.1 hx), ?_, ?_⟩
  · rw [htrades]
    exact hf₂.trades
  · rw [htrades, hseq, hperm.length_eq]
    exact hf₂.credit

theorem exact_create (h : create cfg = some b) : b.Exact 0 := by
  obtain ⟨hr, hview⟩ := repr_create h
  refine ⟨[], hr, sharp_create h, ?_, (congrArg QueueBook.seq hview).le⟩
  rw [hview]
  exact fits_emptyView cfg

/-- **One command** that may rest only on the grid keeps the book exact. -/
theorem Exact.apply (he : b.Exact n) {c : Submission} (ha : c.Aligned b.cfg) :
    ∃ b₁, (∀ out, b.apply c.kind c.command out = some b₁) ∧ b₁.Exact (n + 1) ∧ b₁.cfg = b.cfg := by
  obtain ⟨ps, hr, hs, hf, hn⟩ := he
  obtain ⟨b₁, ps₁, hap, hr₁, hview | ⟨k, hk, e, hstep⟩⟩ := apply_spec c.kind c.command hr hs.wf
  · have hseq : b₁.seq = b.seq := (congrArg QueueBook.seq hview).symm
    rw [hview] at hs hf
    refine ⟨b₁, hap, ⟨ps₁, hr₁, hs, hf, ?_⟩, (congrArg QueueBook.cfg hview).symm⟩
    push_cast
    omega
  · have hseq : b₁.seq ≤ b.seq + 1 := hstep.seq_succ
    refine ⟨b₁, hap, ⟨ps₁, hr₁, hstep.sharp hs (ha k hk),
      hstep.fits hf (c.command.fits_call k), ?_⟩, hstep.cfg_eq⟩
    push_cast
    omega

theorem Exact.applyAll (he : b.Exact n) {cs : List Submission} (ha : ∀ c ∈ cs, c.Aligned b.cfg) :
    ∃ b₁, (∀ out, b.applyAll out cs = some b₁) ∧ b₁.Exact (n + cs.length) ∧ b₁.cfg = b.cfg := by
  induction cs generalizing b n with
  | nil => exact ⟨b, fun _ => rfl, he, rfl⟩
  | cons c cs ih =>
    obtain ⟨b₁, hap, he₁, hcfg₁⟩ := he.apply (ha c List.mem_cons_self)
    obtain ⟨b₂, hall, he₂, hcfg₂⟩ := ih he₁ fun c' hc' => by
      rw [hcfg₁]
      exact ha c' (List.mem_cons_of_mem _ hc')
    refine ⟨b₂, fun out => ?_, ?_, hcfg₂.trans hcfg₁⟩
    · rw [OrderBook.applyAll, hap]
      exact hall out
    · rw [List.length_cons, Nat.add_comm cs.length, ← Nat.add_assoc]
      exact he₂

/-- The view with other counters. -/
theorem restoreCounters_view (b : OrderBook) (ps : List Ptr) (lastSeq nextTradeId : Int) :
    (b.restoreCounters lastSeq nextTradeId).view ps =
      { b.view ps with seq := lastSeq, nextTradeId := nextTradeId } := rfl

theorem Repr.restoreCounters {ps : List Ptr} (hr : b.Repr ps none) (lastSeq nextTradeId : Int) :
    (b.restoreCounters lastSeq nextTradeId).Repr ps none :=
  ⟨hr.live, hr.capacity, hr.isSide, hr.side, hr.idInv, hr.idRoom, hr.idSize, hr.idMem⟩

/-- **A snapshot of an exact book is loaded into a book with the same queues.** -/
theorem Exact.restore (he : b.Exact n) (hn : n < 2 ^ 63) (hb : create b.cfg = some b₀)
    (globalSeq : Int) :
    ∃ bytes snap b', SnapshotWriter.image b globalSeq b.cfg = some bytes ∧
      SnapshotReader.tryLoad bytes = .loaded snap ∧
      RecoveryManager.restore b₀ snap = some (true, b') ∧ b'.SameView b ∧
      snap.header.globalSeq = u64OfSeq globalSeq := by
  obtain ⟨ps, hr, hs, hf, hle⟩ := he
  obtain ⟨xs, ys, hwalk, hx, hy⟩ := canonicalWalk_spec hr hs.wf
  have hqueues := hs.wf.walks_queue hs.inSight hx hy
  have hperm : (xs ++ ys).Perm (b.view ps).orders := QueueBook.perm_of_atSlot hqueues
  -- The fields and counters survive the 64-bit format.
  have hseq : Fits64 b.seq ∧ Fits64 b.nextTradeId := by
    have h₁ : 0 ≤ b.nextTradeId := hf.trades
    have h₂ : b.nextTradeId + (b.view ps).orders.length ≤ b.seq := hf.credit
    rw [Fits64, Fits64]
    omega
  have hfits : ∀ x ∈ xs ++ ys, x.Fits := by
    intro x hx
    have hx' := hperm.mem_iff.1 hx
    obtain ⟨hid, hprice, hqty, hpart⟩ := hf.order x hx'
    have hpos := hs.wf.positive x hx'
    have hseq₁ := hf.seq_pos x hx'
    have hseq₂ : x.seq ≤ b.seq := hs.wf.seq_le x hx'
    rw [Fits64] at hqty
    exact ⟨hid, hprice, hqty, ⟨by omega, by omega⟩, hpart, ⟨by omega, by omega⟩⟩
  have hrecords : ((xs ++ ys).map OrderRecord.ofOrder).map OrderRecord.toOrder = xs ++ ys := by
    rw [List.map_map]
    exact (List.map_congr_left fun x hx => OrderRecord.toOrder_ofOrder (hfits x hx)).trans
      (List.map_id _)
  have hroom : (xs ++ ys).length ≤ b.cfg.maxOrders := hperm.length_eq.le.trans hs.wf.room
  obtain ⟨bytes, himage, hload⟩ := SnapshotReader.tryLoad_image globalSeq b.cfg hwalk
    ((hroom.trans (maxOrders_le_of_create hb)).trans (by decide))
  obtain ⟨hr₀, hview₀⟩ := repr_create hb
  have hcfg₀ : b₀.cfg = b.cfg := congrArg QueueBook.cfg hview₀
  obtain ⟨b₁, ps₁, hall, hr₁, hview₁⟩ := RecoveryManager.restoreAll_spec
    ((xs ++ ys).map OrderRecord.ofOrder) hr₀
    (fun r hr => by
      obtain ⟨x, hx, rfl⟩ := List.mem_map.1 hr
      rw [OrderRecord.toOrder_ofOrder (hfits x hx), hcfg₀]
      exact hs.wf.inRange x (hperm.mem_iff.1 hx))
    (by
      rw [hrecords, hview₀]
      exact (hperm.map _).nodup_iff.2 hs.wf.ids)
    (by
      rw [hview₀, hcfg₀, List.length_map]
      exact (Nat.zero_add _).le.trans hroom)
  rw [hrecords, hview₀] at hview₁
  obtain ⟨ps₂, hr₂, hview₂⟩ := hr.reorder hqueues
  have hview : (b₁.restoreCounters b.seq b.nextTradeId).view ps₁ = b.view ps₂ := by
    have hbest : ∀ s, ((emptyView b.cfg).addAll (xs ++ ys)).best s = (b.view ps).best s := fun s =>
      hs.best_addAll hperm (by cases s <;> rfl)
    rw [restoreCounters_view, hview₁, hview₂]
    have hb₁ : ((emptyView b.cfg).addAll (xs ++ ys)).bestBid = (b.view ps).bestBid := hbest .buy
    have hb₂ : ((emptyView b.cfg).addAll (xs ++ ys)).bestAsk = (b.view ps).bestAsk := hbest .sell
    dsimp only
    rw [hb₁, hb₂, QueueBook.addAll_cfg, QueueBook.addAll_orders]
    rfl
  refine ⟨bytes, _, _, himage, hload, ?_, ⟨ps₁, ps₂, hr₁.restoreCounters _ _, hr₂, ?_, hview⟩, rfl⟩
  · rw [RecoveryManager.restore, hall]
    simp only [Option.bind_eq_bind, Option.bind_some, if_true, SnapshotWriter.header]
    rw [seqOfU64_u64OfSeq hseq.1, seqOfU64_u64OfSeq hseq.2]
  · rw [hview, hview₂]
    exact hs.wf.reorder hqueues

end Exact

end OrderBook

namespace RecoveryManager

/-- The buffers of a replay: 64 trades, and nothing for victims. -/
def buffers : Sinks := ⟨.empty 64, none⟩

/-- **Snapshot plus tail equals full replay**, for all futures. The commands up to the snapshot
bring limit orders on the grid only, and none at the price that stands for an empty side; what
comes after it may be anything. -/
theorem restored_tail_alike {cfg : BookConfig} {b₀ : OrderBook} (hb : OrderBook.create cfg = some b₀)
    (cmds : List Command) (k : Nat) (hk : k < 2 ^ 63)
    (ha : ∀ cmd ∈ cmds.take k, cmd.submission.Aligned cfg) :
    ∃ events live bytes snap restored recovered events' final,
      MatchingThread.run ⟨b₀, 0⟩ (cmds.take k) = some (events, live) ∧
      SnapshotWriter.image live.book k cfg = some bytes ∧
      SnapshotReader.tryLoad bytes = .loaded snap ∧
      restore b₀ snap = some (true, restored) ∧
      restored.applyAll buffers ((cmds.drop k).map Command.submission) = some recovered ∧
      MatchingThread.run ⟨b₀, 0⟩ cmds = some (events', final) ∧
      recovered.Alike final.book := by
  have hcfg₀ : b₀.cfg = cfg := congrArg QueueBook.cfg (OrderBook.repr_create hb).2
  have haligned : ∀ c ∈ (cmds.take k).map Command.submission, c.Aligned b₀.cfg := by
    intro c hc
    obtain ⟨cmd, hcmd, rfl⟩ := List.mem_map.1 hc
    rw [hcfg₀]
    exact ha cmd hcmd
  obtain ⟨b₁, hall, he, hcfg⟩ := (OrderBook.exact_create hb).applyAll haligned
  have hlen : 0 + ((cmds.take k).map Command.submission).length < 2 ^ 63 := by
    rw [List.length_map, List.length_take]
    omega
  rw [hcfg₀] at hcfg
  obtain ⟨bytes, snap, restored, himage, hload, hrestore, hsame, -⟩ := he.restore hlen
    (by rw [hcfg]; exact hb) k
  obtain ⟨recovered, b₂, hrec, hlive, hsame₂⟩ :=
    hsame.applyAll ((cmds.drop k).map Command.submission)
  -- The live book reaches the same queues in one go.
  have hrun := MatchingThread.run_book ⟨b₀, 0⟩ (cmds.take k)
  have hrun' := MatchingThread.run_book ⟨b₀, 0⟩ cmds
  have hsplit : cmds.map Command.submission =
      (cmds.take k).map Command.submission ++ (cmds.drop k).map Command.submission := by
    rw [← List.map_append, List.take_append_drop]
  rw [hall, Option.map_eq_some_iff] at hrun
  rw [hsplit, OrderBook.applyAll_append, hall, Option.bind_some, hlive,
    Option.map_eq_some_iff] at hrun'
  obtain ⟨⟨events, live⟩, hrun, rfl⟩ := hrun
  obtain ⟨⟨events', final⟩, hrun', rfl⟩ := hrun'
  rw [hcfg] at himage
  exact ⟨events, live, bytes, snap, restored, recovered, events', final, hrun, himage, hload, hrestore,
    hrec buffers, hrun', hsame₂.alike⟩

/-- Two sells, a buy that fills part of the first, and a cancel of the second. -/
def smallCommands : List Command :=
  [⟨1, 0, 110, 5, 1, 0, .sell, .limit, 0⟩, ⟨2, 0, 120, 5, 1, 0, .sell, .limit, 0⟩,
    ⟨3, 0, 110, 2, 2, 0, .buy, .limit, 0⟩, ⟨2, 0, 0, 0, 1, 1, .buy, .limit, 0⟩]

theorem restored_tail_alike_smallCommands :
    ∃ b₀ events live bytes snap restored recovered events' final,
      OrderBook.create OrderBook.smallConfig = some b₀ ∧
      MatchingThread.run ⟨b₀, 0⟩ (smallCommands.take 3) = some (events, live) ∧
      SnapshotWriter.image live.book 3 OrderBook.smallConfig = some bytes ∧
      SnapshotReader.tryLoad bytes = .loaded snap ∧
      restore b₀ snap = some (true, restored) ∧
      restored.applyAll buffers ((smallCommands.drop 3).map Command.submission) = some recovered ∧
      MatchingThread.run ⟨b₀, 0⟩ smallCommands = some (events', final) ∧
      recovered.Alike final.book := by
  have hb := OrderBook.create_smallConfig
  obtain ⟨events, live, bytes, snap, restored, recovered, events', final, h⟩ :=
    restored_tail_alike hb smallCommands 3 (by decide) (by decide)
  exact ⟨_, events, live, bytes, snap, restored, recovered, events', final, hb, h⟩

/-- A sell at the highest price there is, which is also the sentinel of an empty ask side. -/
def sentinelSell : Command := ⟨1, 0, 9223372036854775807, 5, 1, 0, .sell, .limit, 0⟩

/-- The empty book over the one price at which that sell can be. -/
def topBook : OrderBook := (OrderBook.create OrderBook.topConfig).get (by decide)

/-- The matching thread after that sell. -/
def topRun : List OutboundEvent × MatchingThread :=
  (MatchingThread.run ⟨topBook, 0⟩ [sentinelSell]).get (by decide +kernel)

/-- An order at its side's empty sentinel is not in the snapshot: the walk of the ask side starts
at the sentinel and ends at once. Only the live book can cancel the order. -/
theorem sentinel_order_lost_by_snapshot :
    ∃ bytes snap restored,
      OrderBook.create OrderBook.topConfig = some topBook ∧
      MatchingThread.run ⟨topBook, 0⟩ [sentinelSell] = some topRun ∧
      SnapshotWriter.image topRun.2.book 1 OrderBook.topConfig = some bytes ∧
      SnapshotReader.tryLoad bytes = .loaded snap ∧
      restore topBook snap = some (true, restored) ∧ ¬ restored.Alike topRun.2.book := by
  have hwalk : topRun.2.book.canonicalWalk = some [] := by decide +kernel
  obtain ⟨bytes, himage, hload⟩ := SnapshotReader.tryLoad_image 1 OrderBook.topConfig hwalk
    (Nat.zero_le _)
  refine ⟨bytes, _, _, (Option.some_get _).symm, (Option.some_get _).symm, himage, hload, rfl,
    fun halike => ?_⟩
  have hstatus := congrArg (Option.map (List.map fun r : Reply => r.result.status))
    (halike.replies [(.cancel 1, buffers)])
  exact absurd hstatus (by decide +kernel)

end RecoveryManager

end Velox
