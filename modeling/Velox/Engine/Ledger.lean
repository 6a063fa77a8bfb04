import Velox.Engine.PriceTime

/-!
# Conservation of quantity

Every unit of quantity that entered the book with an arrival number is at rest, was traded (once
on each side of its trade), or was withdrawn: by a cancel, as a victim of self-trade prevention,
or as a residual that did not rest.

* `Effect.brought`, `Effect.traded`, `Effect.withdrawn` — the ledger entries of one call.
* `Steps.conserves` — the balance, for every run.
* `Steps.origin` — each resting order has traded, since its arrival, what it is short of.

Neither needs any condition on prices or quantities. A fill-or-kill order leaves no residual,
since what the pre-scan admits is filled (`Admits.fills`).
-/

namespace Velox

/-- The statuses of a residual that did not rest. -/
def SubmitStatus.dropsResidual : SubmitStatus → Bool
  | .cancelledResidual | .cancelledBySelfTradePrevention | .rejectedPoolExhausted => true
  | _ => false

namespace QueueBook

variable {q q' q₁ : QueueBook} {o : NewOrder} {rem rem' : Int} {oc : MatchOutcome} {ts : List Trade}
  {vs : List StpVictim} {x : RestingOrder}

/-- What remains of all orders at rest. -/
def held (q : QueueBook) : Int := (q.orders.map (·.remaining)).sum

def tradedIn (ts : List Trade) : Int := (ts.map (·.quantity)).sum

def remainingIn (vs : List StpVictim) : Int := (vs.map (·.remaining)).sum

/-- The quantity of a call's order, if the order consumed an arrival number. -/
def Effect.brought (c : Call) (e : Effect) : Int :=
  match c.order with
  | some o => if e.result.seq = 0 then 0 else o.quantity
  | none => 0

def Effect.traded (e : Effect) : Int := tradedIn e.trades

/-- What a cancel reports as withdrawn. -/
def cancelledQuantity (r : OrderResult) : Int := if r.status = .ok then r.remaining else 0

/-- What a call withdraws: as victims, by the cancel inside a replace, and by its own result. -/
def Effect.withdrawn (c : Call) (e : Effect) : Int :=
  remainingIn e.victims + (e.oldResult.map cancelledQuantity).getD 0 +
    match c with
    | .cancel _ => cancelledQuantity e.result
    | _ => if e.result.status.dropsResidual then e.result.remaining else 0

/-! ## Sums over the resting orders -/

theorem held_remove (hw : q.Wf) (hx : x ∈ q.orders) :
    (q.remove x.id).held + x.remaining = q.held := by
  have hnd : q.orders.Nodup := List.Nodup.of_map _ hw.ids
  have hfilter : (q.remove x.id).orders = q.orders.erase x := by
    rw [hnd.erase_eq_filter, remove]
    refine List.filter_congr fun y hy => ?_
    rw [Bool.eq_iff_iff, decide_eq_true_eq, bne_iff_ne]
    refine not_congr ⟨fun hid => hw.eq_of_id hy hx hid, fun h => ?_⟩
    rw [h]
  rw [held, held, hfilter, ← List.sum_map_erase (·.remaining) hx]
  ring

theorem sum_remaining_reduce (id qty : Int) (l : List RestingOrder)
    (hids : (l.map RestingOrder.id).Nodup) (h : ∃ x ∈ l, x.id = id) :
    ((l.map fun y => if y.id = id then { y with remaining := y.remaining - qty } else y).map
      (·.remaining)).sum + qty = (l.map (·.remaining)).sum := by
  have hkeep : ∀ l : List RestingOrder, (∀ y ∈ l, y.id ≠ id) →
      (l.map fun y => if y.id = id then { y with remaining := y.remaining - qty } else y) = l := by
    intro l hl
    refine (List.map_congr_left fun y hy => ?_).trans (List.map_id _)
    exact if_neg (hl y hy)
  induction l with
  | nil =>
    obtain ⟨x, hx, -⟩ := h
    cases hx
  | cons y l ih =>
    rw [List.map_cons, List.nodup_cons] at hids
    by_cases hy : y.id = id
    · have hl : ∀ z ∈ l, z.id ≠ id := fun z hz hid =>
        hids.1 (List.mem_map.2 ⟨z, hz, hid.trans hy.symm⟩)
      rw [List.map_cons, hkeep l hl, if_pos hy]
      simp only [List.map_cons, List.sum_cons]
      ring
    · have hex : ∃ x ∈ l, x.id = id := by
        obtain ⟨x, hx, hid⟩ := h
        rcases List.mem_cons.1 hx with rfl | hx
        · exact absurd hid hy
        · exact ⟨x, hx, hid⟩
      have := ih hids.2 hex
      rw [List.map_cons, if_neg hy]
      simp only [List.map_cons, List.sum_cons]
      omega

theorem held_reduce (hw : q.Wf) (hx : x ∈ q.orders) (qty : Int) :
    (q.reduce x.id qty).held + qty = q.held :=
  sum_remaining_reduce x.id qty q.orders hw.ids ⟨x, hx, rfl⟩

theorem held_settle (q : QueueBook) (s : Side) (p : Int) : (q.settle s p).held = q.held := by
  rw [held, settle_orders]
  rfl

theorem held_levelEmptied (q : QueueBook) (s : Side) (p : Int) :
    (q.levelEmptied s p).held = q.held := by
  rw [held, levelEmptied_orders]
  rfl

theorem held_afterVictim (hw : q.Wf) (hx : x ∈ q.orders) :
    (q.afterVictim o x).held + x.remaining = q.held := by
  rw [afterVictim, held_settle]
  exact held_remove hw hx

theorem held_afterTrade (o : NewOrder) (rem : Int) (hw : q.Wf) (hx : x ∈ q.orders) :
    (q.afterTrade o x rem).held + min rem x.remaining = q.held := by
  rw [afterTrade, held_settle, fill]
  split
  · next hfull =>
    rw [← hfull]
    exact held_remove hw.bumpTradeId hx
  · exact held_reduce hw.bumpTradeId hx _

/-- **Matching conserves quantity** on both sides of the trades. -/
theorem Match.conserves (hm : Match o q rem oc ts vs q' rem') (hw : q.Wf) :
    q.held = q'.held + tradedIn ts + remainingIn vs ∧ rem = rem' + tradedIn ts := by
  induction hm with
  | exhausted | noLongerCrosses | stpAggressor => simp [tradedIn, remainingIn]
  | stale _ hf _ ih =>
    have h := ih (hw.levelEmptied hf)
    rw [held_levelEmptied] at h
    exact h
  | @trade q rem _ ts vs _ _ x _ hl hf _ _ ih =>
    obtain ⟨h₁, h₂⟩ := ih (hw.afterTrade hl.rem_pos hf)
    have hstep := held_afterTrade o rem hw (mem_of_front hf).1
    have hcons : tradedIn (q.tradeOf o x rem :: ts) = min rem x.remaining + tradedIn ts := by
      rw [tradedIn, List.map_cons, List.sum_cons]
      rfl
    rw [hcons]
    omega
  | @stpPassive q rem _ ts vs _ _ x _ _ hf _ _ _ ih =>
    obtain ⟨h₁, h₂⟩ := ih hw.afterVictim
    have hstep := held_afterVictim (o := o) hw (mem_of_front hf).1
    have hcons : remainingIn (x :: vs) = x.remaining + remainingIn vs := by
      rw [remainingIn, List.map_cons, List.sum_cons]
      rfl
    rw [hcons]
    omega
  | @stpBoth q rem x _ _ hf =>
    have hstep := held_afterVictim (o := o) hw (mem_of_front hf).1
    simp only [tradedIn, remainingIn, List.map_nil, List.sum_nil, List.map_cons, List.sum_cons]
    omega

/-! ## The balance of a call -/

/-- What a submission withdraws by its own result. -/
def residualOf (r : OrderResult) : Int := if r.status.dropsResidual then r.remaining else 0

theorem Submits.conserves {r : OrderResult} (h : q.Submits o r ts vs q') (hw : q.Wf)
    (hseq : 0 ≤ q.seq) :
    (if r.seq = 0 then 0 else o.quantity) + q.held =
      q'.held + 2 * tradedIn ts + (remainingIn vs + residualOf r) := by
  have hne : q.seq + 1 ≠ 0 := by omega
  have hin : ∀ status rested rem, (if ({ q.arrived o rem with
      status := status, rested := rested } : OrderResult).seq = 0 then 0 else o.quantity) =
      o.quantity := fun _ _ _ => if_neg hne
  have hmatch : ∀ {oc ts vs q' rem}, Match o q.arrive o.quantity oc ts vs q' rem →
      q.held = q'.held + tradedIn ts + remainingIn vs ∧ o.quantity = rem + tradedIn ts :=
    fun hm => hm.conserves hw.arrive
  cases h with
  | rejected h =>
    rw [residualOf]
    simp [NewOrder.result, tradedIn, remainingIn]
  | unfillable => simp [residualOf, NewOrder.result, tradedIn, remainingIn]
  | @stp ts vs _ rem ha hm =>
    obtain ⟨h₁, h₂⟩ := hmatch hm
    have hres : residualOf { q.arrived o rem with status := .cancelledBySelfTradePrevention } =
        rem := rfl
    rw [hin, hres]
    omega
  | @rested oc ts vs q₁ rem ha hm =>
    obtain ⟨h₁, h₂⟩ := hmatch hm
    have hres : residualOf { q.arrived o rem with status := .ok, rested := true } = 0 := rfl
    have hheld : (q₁.add (o.resting (q.seq + 1) rem)).held = q₁.held + rem := by
      rw [held, add_orders, List.map_append, List.sum_append, held]
      simp [NewOrder.resting]
    rw [hin, hres, hheld]
    omega
  | @exhausted oc ts vs _ rem ha hm =>
    obtain ⟨h₁, h₂⟩ := hmatch hm
    have hres : residualOf { q.arrived o rem with status := .rejectedPoolExhausted } = rem := rfl
    rw [hin, hres]
    omega
  | @filled oc ts vs _ rem ha hm _ hrem =>
    obtain ⟨h₁, h₂⟩ := hmatch hm
    have hres : residualOf { q.arrived o rem with status := .ok } = 0 := rfl
    have hnn := (hm.rem_bounds hw.arrive (check_eq_none ha.check).1.le).1
    rw [hin, hres]
    omega
  | @residual oc ts vs _ rem ha hm =>
    obtain ⟨h₁, h₂⟩ := hmatch hm
    have hres : residualOf { q.arrived o rem with status := .cancelledResidual } = rem := rfl
    rw [hin, hres]
    omega
  | fokResidual ha hm _ ht hrem => exact absurd hrem (ha.fills ht hw hm)

theorem Cancels.conserves {id : Int} {r : OrderResult} (h : q.Cancels id r q') (hw : q.Wf) :
    q.held = q'.held + cancelledQuantity r := by
  cases h with
  | unknown =>
    change q.held = q.held + 0
    ring
  | @found x hx hid =>
    subst hid
    rw [held_settle, ← held_remove hw hx]
    rfl

theorem Submits.seq_le {r : OrderResult} (h : q.Submits o r ts vs q') : q.seq ≤ q'.seq := by
  cases h with
  | rejected | unfillable => exact le_rfl
  | stp _ hm | exhausted _ hm | filled _ hm | residual _ hm | fokResidual _ hm =>
    rw [hm.seq_eq]
    exact Int.le_add_one le_rfl
  | rested _ hm =>
    rw [add_seq, hm.seq_eq]
    exact Int.le_add_one le_rfl

theorem Cancels.seq_eq {id : Int} {r : OrderResult} (h : q.Cancels id r q') : q'.seq = q.seq := by
  cases h with
  | unknown => rfl
  | found => exact settle_seq ..

theorem Step.seq_le {c : Call} {e : Effect} (h : q.Step c e q') : q.seq ≤ q'.seq := by
  cases h with
  | submit h => exact h.seq_le
  | cancel h => exact h.seq_eq.ge
  | replaceRejected => exact le_rfl
  | replaced _ hc hs => exact hc.seq_eq.ge.trans hs.seq_le

/-- **The balance of one call.** -/
theorem Step.conserves {c : Call} {e : Effect} (h : q.Step c e q') (hw : q.Wf)
    (hseq : 0 ≤ q.seq) :
    e.brought c + q.held = q'.held + 2 * e.traded + e.withdrawn c := by
  cases h with
  | @submit o r ts vs _ h =>
    have := h.conserves hw hseq
    simp only [Effect.brought, Effect.traded, Effect.withdrawn, Call.order, Option.map_none,
      Option.getD_none]
    rw [residualOf] at this
    omega
  | @cancel id r _ h =>
    have := h.conserves hw
    simp only [Effect.brought, Effect.traded, Effect.withdrawn, Call.order, Option.map_none,
      Option.getD_none, tradedIn, remainingIn, List.map_nil, List.sum_nil]
    omega
  | replaceRejected h =>
    simp [Effect.brought, Effect.traded, Effect.withdrawn, Call.order, tradedIn, remainingIn]
  | @replaced oldId fresh old q₁ r ts vs _ h hc hs =>
    have h₁ := hc.conserves hw
    have h₂ := hs.conserves (hc.wf hw) (by rw [hc.seq_eq]; exact hseq)
    simp only [Effect.brought, Effect.traded, Effect.withdrawn, Call.order, Option.map_some,
      Option.getD_some]
    rw [residualOf] at h₂
    omega

/-- The sum of a ledger entry over a run. -/
def sumOver (entry : Call → Effect → Int) (cs : List Call) (es : List Effect) : Int :=
  (List.zipWith entry cs es).sum

/-- **The balance of a run.** -/
theorem Steps.conserves {cs : List Call} {es : List Effect} (h : Steps q cs es q') (hw : q.Wf)
    (hseq : 0 ≤ q.seq) :
    sumOver (fun c e => e.brought c) cs es + q.held =
      q'.held + 2 * sumOver (fun _ e => e.traded) cs es +
        sumOver (fun c e => e.withdrawn c) cs es := by
  induction h with
  | nil => simp [sumOver]
  | cons h _ ih =>
    have h₁ := h.conserves hw hseq
    have h₂ := ih (h.wf hw) (hseq.trans h.seq_le)
    simp only [sumOver, List.zipWith_cons_cons, List.sum_cons] at h₂ ⊢
    omega

/-! ## The history of an order -/

/-- The quantity traded by the order `id`, as aggressor or as passive. -/
def tradedBy (id : Int) (ts : List Trade) : Int :=
  tradedIn (ts.filter fun t => decide (t.aggressorId = id ∨ t.passiveId = id))

theorem tradedBy_append (id : Int) (ts ts' : List Trade) :
    tradedBy id (ts ++ ts') = tradedBy id ts + tradedBy id ts' := by
  rw [tradedBy, List.filter_append, tradedIn, List.map_append, List.sum_append]
  rfl

/-- Everything the orders traded over a run. -/
def tradesOf (es : List Effect) : List Trade := es.flatMap Effect.trades

/-- `y` is the order `x`, later, after trading `n`. -/
structure SameOrder (x y : RestingOrder) (n : Int) : Prop where
  id : y.id = x.id
  seq : y.seq = x.seq
  quantity : y.quantity = x.quantity
  traded : x.remaining - y.remaining = n

theorem Match.aggressor (hm : Match o q rem oc ts vs q' rem') : ∀ t ∈ ts, t.aggressorId = o.id := by
  induction hm with
  | exhausted | noLongerCrosses | stpAggressor | stpBoth => exact fun t ht => nomatch ht
  | stale _ _ _ ih | stpPassive _ _ _ _ _ ih => exact ih
  | trade _ _ _ _ ih =>
    intro t ht
    rcases List.mem_cons.1 ht with rfl | ht
    · rfl
    · exact ih t ht

/-- All trades of a submission are the submitted order's. -/
theorem Match.tradedBy_aggressor (hm : Match o q rem oc ts vs q' rem') :
    tradedBy o.id ts = tradedIn ts := by
  rw [tradedBy, List.filter_eq_self.2]
  intro t ht
  rw [decide_eq_true_eq]
  exact Or.inl (hm.aggressor t ht)

theorem tradedBy_cons_of_ne {id : Int} {t : Trade} {ts : List Trade} (ha : t.aggressorId ≠ id)
    (hp : t.passiveId ≠ id) : tradedBy id (t :: ts) = tradedBy id ts := by
  rw [tradedBy, List.filter_cons_of_neg (by simp [ha, hp])]
  rfl

theorem tradedBy_cons_passive (t : Trade) (ts : List Trade) :
    tradedBy t.passiveId (t :: ts) = t.quantity + tradedBy t.passiveId ts := by
  rw [tradedBy, List.filter_cons_of_pos (by simp), tradedIn, List.map_cons, List.sum_cons]
  rfl

/-- What one trade does to the orders at rest. -/
theorem afterTrade_origin {y : RestingOrder} (hy : y ∈ (q.afterTrade o x rem).orders) : ∃ z ∈ q.orders,
      SameOrder z y (if z.id = x.id then min rem x.remaining else 0) := by
  rw [afterTrade_orders, fill] at hy
  split at hy
  · have hmem := List.mem_filter.1 hy
    rw [decide_eq_true_eq] at hmem
    exact ⟨y, hmem.1, rfl, rfl, rfl, by rw [if_neg hmem.2, sub_self]⟩
  · obtain ⟨z, hz, rfl⟩ := reduce_mem hy
    refine ⟨z, hz, ?_⟩
    split
    · exact ⟨rfl, rfl, rfl, sub_sub_cancel _ _⟩
    · exact ⟨rfl, rfl, rfl, sub_self _⟩

/-- **What an order at rest lost in a match is what it traded there.** -/
theorem Match.origin (hm : Match o q rem oc ts vs q' rem') (hw : q.Wf)
    (hid : ∀ z ∈ q.orders, z.id ≠ o.id) {y : RestingOrder} (hy : y ∈ q'.orders) :
    ∃ z ∈ q.orders, SameOrder z y (tradedBy y.id ts) := by
  have hself : ∀ z : RestingOrder, SameOrder z z (tradedBy z.id []) := fun z =>
    ⟨rfl, rfl, rfl, sub_self _⟩
  induction hm with
  | exhausted | noLongerCrosses | stpAggressor => exact ⟨y, hy, hself y⟩
  | stale _ hf _ ih =>
    obtain ⟨z, hz, hsame⟩ := ih (hw.levelEmptied hf) (by simpa using hid) hy
    exact ⟨z, by simpa using hz, hsame⟩
  | @trade q rem _ ts vs _ _ x _ hl hf _ _ ih =>
    have hid' : ∀ z ∈ (q.afterTrade o x rem).orders, z.id ≠ o.id := by
      intro z hz
      obtain ⟨z', hz', hsame⟩ := afterTrade_origin hz
      rw [hsame.id]
      exact hid z' hz'
    obtain ⟨z, hz, hsame⟩ := ih (hw.afterTrade hl.rem_pos hf) hid' hy
    obtain ⟨w, hwmem, hold⟩ := afterTrade_origin hz
    refine ⟨w, hwmem, hsame.id.trans hold.id, hsame.seq.trans hold.seq,
      hsame.quantity.trans hold.quantity, ?_⟩
    have h₁ := hsame.traded
    have h₂ := hold.traded
    have hyid : y.id = w.id := hsame.id.trans hold.id
    by_cases hwx : w.id = x.id
    · have hcons : tradedBy y.id (q.tradeOf o x rem :: ts) =
          min rem x.remaining + tradedBy y.id ts := by
        rw [hyid.trans hwx]
        exact tradedBy_cons_passive (q.tradeOf o x rem) ts
      rw [if_pos hwx] at h₂
      rw [hcons]
      omega
    · have hcons : tradedBy y.id (q.tradeOf o x rem :: ts) = tradedBy y.id ts := by
        refine tradedBy_cons_of_ne (fun h => ?_) fun h => ?_
        · exact hid w hwmem (hyid.symm.trans h.symm)
        · exact hwx (hyid.symm.trans h.symm)
      rw [if_neg hwx] at h₂
      rw [hcons]
      omega
  | @stpPassive q _ _ _ _ _ _ x _ _ _ _ _ _ ih =>
    have hsub : (q.afterVictim o x).orders ⊆ q.orders := by
      rw [afterVictim_orders]
      exact (remove_sublist _ _).subset
    obtain ⟨z, hz, hsame⟩ := ih hw.afterVictim (fun z hz => hid z (hsub hz)) hy
    exact ⟨z, hsub hz, hsame⟩
  | stpBoth =>
    rw [afterVictim_orders] at hy
    exact ⟨y, (remove_sublist _ _).subset hy, hself y⟩

/-- Where an order at rest after a call comes from: it rested before, or the call brought it. -/
def Origin (q : QueueBook) (c : Call) (e : Effect) (y : RestingOrder) : Prop :=
  (∃ z ∈ q.orders, SameOrder z y (tradedBy y.id e.trades)) ∨
    ∃ o ∈ c.order, o.id = y.id ∧ o.quantity = y.quantity ∧ e.result.seq = y.seq ∧
      y.quantity - y.remaining = tradedBy y.id e.trades

theorem Submits.origin {r : OrderResult} (h : q.Submits o r ts vs q') (hw : q.Wf)
    {y : RestingOrder} (hy : y ∈ q'.orders) :
    (∃ z ∈ q.orders, SameOrder z y (tradedBy y.id ts)) ∨
      (o.id = y.id ∧ o.quantity = y.quantity ∧ r.seq = y.seq ∧
        y.quantity - y.remaining = tradedBy y.id ts) := by
  cases h with
  | rejected | unfillable => exact Or.inl ⟨y, hy, rfl, rfl, rfl, sub_self _⟩
  | stp ha hm | exhausted ha hm | filled ha hm | residual ha hm | fokResidual ha hm =>
    exact Or.inl (hm.origin hw.arrive (check_eq_none ha.check).2.2.1 hy)
  | @rested oc ts vs q₁ rem ha hm =>
    rw [add_orders, List.mem_append, List.mem_singleton] at hy
    rcases hy with hy | rfl
    · exact Or.inl (hm.origin hw.arrive (check_eq_none ha.check).2.2.1 hy)
    · refine Or.inr ⟨rfl, rfl, rfl, ?_⟩
      have h := (hm.conserves hw.arrive).2
      change o.quantity - rem = tradedBy o.id ts
      rw [hm.tradedBy_aggressor]
      omega

theorem Cancels.origin {id : Int} {r : OrderResult} (h : q.Cancels id r q') {y : RestingOrder}
    (hy : y ∈ q'.orders) : y ∈ q.orders := by
  cases h with
  | unknown => exact hy
  | found =>
    rw [settle_orders] at hy
    exact (remove_sublist _ _).subset hy

theorem Step.origin {c : Call} {e : Effect} (h : q.Step c e q') (hw : q.Wf) {y : RestingOrder}
    (hy : y ∈ q'.orders) : q.Origin c e y := by
  cases h with
  | @submit o _ _ _ _ h =>
    exact (h.origin hw hy).imp_right fun hnew => ⟨o, rfl, hnew⟩
  | cancel h => exact Or.inl ⟨y, h.origin hy, rfl, rfl, rfl, sub_self _⟩
  | replaceRejected => exact Or.inl ⟨y, hy, rfl, rfl, rfl, sub_self _⟩
  | @replaced _ fresh _ _ _ _ _ _ _ hc hs =>
    rcases hs.origin (hc.wf hw) hy with ⟨z, hz, hsame⟩ | hnew
    · exact Or.inl ⟨z, hc.origin hz, hsame⟩
    · exact Or.inr ⟨fresh, rfl, hnew⟩

/-- The order `y` arrived with one of the calls, and has since then traded what it is short of. -/
def Arrived (cs : List Call) (es : List Effect) (y : RestingOrder) : Prop :=
  ∃ k c e, cs[k]? = some c ∧ es[k]? = some e ∧
    ∃ o ∈ c.order, o.id = y.id ∧ o.quantity = y.quantity ∧ e.result.seq = y.seq ∧
      y.quantity - y.remaining = tradedBy y.id (tradesOf (es.drop k))

/-- **The history of every resting order.** -/
theorem Steps.origin {cs : List Call} {es : List Effect} (h : Steps q cs es q') (hw : q.Wf)
    {y : RestingOrder} (hy : y ∈ q'.orders) :
    (∃ z ∈ q.orders, SameOrder z y (tradedBy y.id (tradesOf es))) ∨ Arrived cs es y := by
  induction h with
  | nil => exact Or.inl ⟨y, hy, rfl, rfl, rfl, sub_self _⟩
  | @cons q c e q₁ cs es q' h _ ih =>
    have happend : tradedBy y.id (tradesOf (e :: es)) =
        tradedBy y.id e.trades + tradedBy y.id (tradesOf es) := by
      rw [tradesOf, List.flatMap_cons, tradedBy_append]
      rfl
    rcases ih (h.wf hw) hy with ⟨z, hz, hsame⟩ | ⟨k, c', e', hc, he, hrest⟩
    · have hzid := hsame.id
      have hlater := hsame.traded
      rcases h.origin hw hz with ⟨w, hw', hold⟩ | ⟨o, ho, hid, hq, hseq, htr⟩
      · refine Or.inl ⟨w, hw', hzid.trans hold.id, hsame.seq.trans hold.seq,
          hsame.quantity.trans hold.quantity, ?_⟩
        have hearlier := hold.traded
        rw [← hzid] at hearlier
        rw [happend]
        omega
      · refine Or.inr ⟨0, c, e, rfl, rfl, o, ho, hid.trans hzid.symm,
          hq.trans hsame.quantity.symm, hseq.trans hsame.seq.symm, ?_⟩
        have hqty := hsame.quantity
        rw [← hzid] at htr
        rw [List.drop_zero, happend]
        omega
    · exact Or.inr ⟨k + 1, c', e', hc, he, hrest⟩

end QueueBook

namespace OrderBook

open QueueBook

variable {b : OrderBook}

/-- **Quantity is conserved over whole runs**, whatever the prices, quantities, order types and
self-trade prevention policy, and each resting order accounts for its own trades. The effects `es`
are what the calls do for any buffers the caller hands in. -/
theorem run_conserves {cfg : BookConfig} (hb : create cfg = some b) (cs : List Call) :
    ∃ es b', (∀ outs : List Sinks, outs.length = cs.length →
        b.run (cs.zip outs) = some (List.zipWith Effect.reply es outs, b')) ∧
      sumOver (fun c e => e.brought c) cs es =
        (b'.resting.map (·.remaining)).sum + 2 * sumOver (fun _ e => e.traded) cs es +
          sumOver (fun c e => e.withdrawn c) cs es ∧
      ∀ y ∈ b'.resting, Arrived cs es y := by
  obtain ⟨es, b', ps', hrun, hr', hsteps⟩ := run_create_spec hb cs
  have hw := emptyView_wf cfg
  have hbalance := hsteps.conserves hw le_rfl
  have hempty : (emptyView cfg).held = 0 := rfl
  have hperm : b'.resting.Perm (b'.view ps').orders := hr'.resting_perm (hsteps.wf hw)
  refine ⟨es, b', hrun, ?_, fun y hy => ?_⟩
  · rw [(hperm.map _).sum_eq]
    rw [hempty, add_zero] at hbalance
    exact hbalance
  · rcases hsteps.origin hw (hperm.mem_iff.1 hy) with ⟨z, hz, -⟩ | h
    · cases hz
    · exact h

theorem run_conserves_smallConfig : ∃ b es b', create smallConfig = some b ∧
    b.run [(.submit ⟨1, 110, 5, 1, .sell, .limit⟩, .empty 4),
      (.submit ⟨2, 113, 7, 2, .buy, .limit⟩, .empty 4)] =
        some (List.zipWith Effect.reply es [.empty 4, .empty 4], b') ∧
    ∀ y ∈ b'.resting, Arrived [.submit ⟨1, 110, 5, 1, .sell, .limit⟩,
      .submit ⟨2, 113, 7, 2, .buy, .limit⟩] es y := by
  have hb := create_smallConfig
  obtain ⟨es, b', hrun, -, harrived⟩ := run_conserves hb
    [.submit ⟨1, 110, 5, 1, .sell, .limit⟩, .submit ⟨2, 113, 7, 2, .buy, .limit⟩]
  exact ⟨_, es, b', hb, hrun [.empty 4, .empty 4] rfl, harrived⟩

end OrderBook

end Velox
