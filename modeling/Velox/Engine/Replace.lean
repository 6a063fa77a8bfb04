import Velox.Engine.Canonical
import Velox.Engine.Prescan

/-!
# A refused replace

`replace` promises to check everything before it touches the book. It makes the checks that it knows
of, cancels the old order and submits the fresh one, and `submitEx` then refuses a market order that
finds no opposite side and a fill-or-kill order that cannot be filled. In these two cases the old
order is gone (`replace_atomic_iff`).
-/

namespace Velox

/-- The order is refused. -/
def SubmitStatus.rejects : SubmitStatus → Bool
  | .ok | .cancelledBySelfTradePrevention | .cancelledResidual => false
  | _ => true

namespace QueueBook

variable {q q' : QueueBook} {o : NewOrder} {rem rem' : Int} {oc : MatchOutcome} {ts : List Trade}
  {vs : List StpVictim}

theorem Cancels.orders_of_mem {id : Int} {x : RestingOrder} {r : OrderResult}
    (h : q.Cancels id r q') (hx : x ∈ q.orders) (hid : x.id = id) :
    q'.orders = (q.remove id).orders := by
  cases h with
  | unknown hno => exact absurd hid (hno x hx)
  | found => exact settle_orders ..

/-- Matching adds no order. -/
theorem Match.length_orders (hm : Match o q rem oc ts vs q' rem') :
    q'.orders.length ≤ q.orders.length := by
  have hremove : ∀ (m : QueueBook) (id : Int), (m.remove id).orders.length ≤ m.orders.length :=
    fun m id => List.length_filter_le ..
  induction hm with
  | exhausted | noLongerCrosses | stpAggressor => exact le_rfl
  | stale _ _ _ ih =>
    rw [levelEmptied_orders] at ih
    exact ih
  | @trade q rem _ _ _ _ _ x _ _ _ _ _ ih =>
    have hfill : (q.bumpTradeId.fill x (min rem x.remaining)).orders.length ≤ q.orders.length := by
      rw [fill]
      split
      · exact hremove _ _
      · exact (List.length_map ..).le
    rw [afterTrade, settle_orders] at ih
    exact ih.trans hfill
  | stpPassive _ _ _ _ _ ih =>
    rw [afterVictim, settle_orders] at ih
    exact ih.trans (hremove _ _)
  | stpBoth =>
    rw [afterVictim, settle_orders]
    exact hremove _ _

/-- With a free place in the book, an order that is matched is not refused. -/
theorem Submits.not_rejects {r : OrderResult} (h : q.Submits o r ts vs q') (ha : q.Admits o)
    (hroom : q.orders.length < q.cfg.maxOrders) (ht : o.type ≠ .fok) : r.status.rejects = false := by
  cases h with
  | rejected h =>
    rw [ha.check] at h
    cases h
  | unfillable _ ht' | fokResidual _ _ _ ht' => exact absurd ht' ht
  | stp | rested | filled | residual => rfl
  | exhausted _ hm _ _ _ hfull =>
    have hle : _ ≤ q.orders.length := hm.length_orders
    omega

end QueueBook

namespace OrderBook

variable {b : OrderBook} {ps : List Ptr}

/-- The checks of `replace`. -/
def passesReplace (b : OrderBook) (oldId : Int) (fresh : NewOrder) : Bool :=
  (b.idMap.find idHash oldId).isSome && decide (0 < fresh.quantity) &&
    (decide (fresh.type = .market) || b.bids.inRange fresh.price) &&
    (decide (fresh.id = oldId) || !(b.idMap.find idHash fresh.id).isSome)

/-- There is nothing on this book for a market order, or too little for a fill-or-kill order. -/
def Starves (b : OrderBook) (o : NewOrder) : Prop :=
  (o.type = .market ∧ (b.sideOf o.side.opposite).hasBest = false) ∨
    (o.type = .fok ∧ ∃ n ∈ b.availableAgainst o, n < o.quantity)

/-- The fresh order passes the checks of `replace`, and starves on the book without the old one. -/
def LosesOld (b : OrderBook) (oldId : Int) (fresh : NewOrder) : Prop :=
  b.passesReplace oldId fresh = true ∧ ∃ after ∈ b.cancel oldId, after.2.Starves fresh

theorem passesReplace_iff (hr : b.Repr ps none) (oldId : Int) (fresh : NewOrder) :
    b.passesReplace oldId fresh = true ↔ (b.view ps).checkReplace oldId fresh = none := by
  have hrange : b.bids.inRange fresh.price = b.cfg.inRange fresh.price :=
    (hr.isSide .buy).inRange _
  rw [passesReplace, QueueBook.checkReplace, ← hr.find_isSome, ← hr.find_isSome, hrange]
  change _ ↔ (if (b.idMap.find idHash oldId).isSome = false then _ else
    if fresh.quantity ≤ 0 then _ else if fresh.type ≠ .market ∧ b.cfg.inRange fresh.price = false then _
    else if fresh.id ≠ oldId ∧ (b.idMap.find idHash fresh.id).isSome = true then _ else _) = none
  split_ifs <;> grind

/-- **A refused replace leaves the book as it was**, unless the fresh order is one that starves
without the old order: then the old order is lost. -/
theorem replace_atomic_iff (hb : b.Reached) (oldId : Int) (fresh : NewOrder) (out : Sinks) :
    (∀ r old out' b', b.replace oldId fresh out = some (r, old, out', b') →
      r.status.rejects = true → r.filled = 0 → b' = b) ↔ ¬ b.LosesOld oldId fresh := by
  obtain ⟨ps, hr, hw⟩ := hb.repr
  rcases replace_eq oldId fresh hr hw with ⟨status, hcheck, hrun⟩ |
    ⟨hcheck, old, b₁, ps₁, hcancel, hr₁, hc, hrun⟩
  · refine iff_of_true (fun r old out' b' h _ _ => ?_) fun h => ?_
    · rw [hrun] at h
      cases h
      rfl
    · have hpass := (passesReplace_iff hr oldId fresh).1 h.1
      rw [hcheck] at hpass
      cases hpass
  have hw₁ := hc.wf hw
  have hloses : b.LosesOld oldId fresh ↔ b₁.Starves fresh := by
    rw [LosesOld, passesReplace_iff hr, hcancel]
    simp [hcheck]
  obtain ⟨x, hx, hid⟩ := (QueueBook.checkReplace_eq_none hcheck).1
  have horders := hc.orders_of_mem hx hid
  have hgone : b₁ ≠ b := by
    rintro rfl
    have hfound : (b₁.idMap.find idHash oldId).isSome = true := by
      rw [hr.find_isSome, List.any_eq_true]
      exact ⟨x, hx, decide_eq_true hid⟩
    rw [hr₁.find_isSome, horders, List.any_eq_true] at hfound
    obtain ⟨y, hy, hyid⟩ := hfound
    exact of_decide_eq_true (List.mem_filter.1 hy).2 (of_decide_eq_true hyid)
  have hroom : (b₁.view ps₁).orders.length < (b₁.view ps₁).cfg.maxOrders := by
    rw [horders, hc.cfg_eq, ← hid]
    exact (QueueBook.remove_length_lt hx).trans_le hw.room
  rw [hloses]
  rcases submitEx_eq fresh hr₁ hw₁ with ⟨status, hcheck₁, hrun₁⟩ |
    ⟨n, hcheck₁, ht, havail, hs, hlt, hrun₁⟩ | ⟨ha, hrun₁⟩
  · obtain ⟨rfl, hmarket, hbest⟩ := QueueBook.check_after_cancel hcheck hc hcheck₁
    refine iff_of_false (fun h => hgone ?_) (not_not.2 (.inl ⟨hmarket, ?_⟩))
    · exact h _ _ _ _ (by rw [hrun, hrun₁]; rfl) rfl rfl
    · rw [← Bool.not_eq_true, hasBest_iff hr₁, not_not]
      exact hbest
  · refine iff_of_false (fun h => hgone ?_) (not_not.2 (.inr ⟨ht, n, havail, hlt⟩))
    exact h _ _ _ _ (by rw [hrun, hrun₁]; rfl) rfl rfl
  · refine iff_of_true (fun r old' out' b' h hrejects _ => ?_) ?_
    · rw [hrun, hrun₁] at h
      obtain ⟨⟨r', out₂, b₂⟩, haccept, heq⟩ := Option.bind_eq_some_iff.1 h
      cases heq
      refine absurd hrejects ?_
      rw [Bool.not_eq_true]
      by_cases ht : fresh.type = .fok
      · obtain ⟨b₃, ts, vs, hfok⟩ := accept_fok hr₁ hw₁ ha ht
        rw [hfok] at haccept
        cases haccept
        rfl
      · obtain ⟨r₃, b₃, ps₃, ts, vs, hspec, -, hsub⟩ := accept_spec hr₁ hw₁ ha
        rw [hspec] at haccept
        cases haccept
        exact hsub.not_rejects ha hroom ht
    · rintro (⟨hmarket, hbest⟩ | ⟨ht, n, havail, hlt⟩)
      · have hsome := (QueueBook.check_eq_none ha.check).2.2.2 hmarket
        rw [← hasBest_iff hr₁, hbest] at hsome
        cases hsome
      · obtain ⟨n', havail', hs⟩ := availableAgainst_spec (o := fresh) hr₁ hw₁
        obtain ⟨n'', hs', hle⟩ := ha.fok ht
        rw [havail'] at havail
        cases havail
        rw [hs.det hs'] at hlt
        omega

/-- The offer of five is replaced by a fill-or-kill order to buy, for which nothing is left. -/
theorem replace_loses_the_offer :
    (offering.2.replace 1 ⟨2, 110, 3, 2, .buy, .fok⟩ (.empty 4)).map
        (fun done => (done.1.status, done.1.filled, done.2.2.2.resting)) =
      some (.rejectedFokUnfillable, 0, []) ∧
    offering.2.resting = [⟨1, 110, 5, 5, 1, 1, .sell⟩] ∧
    ¬ ∀ r old out' b', offering.2.replace 1 ⟨2, 110, 3, 2, .buy, .fok⟩ (.empty 4) =
      some (r, old, out', b') → r.status.rejects = true → r.filled = 0 → b' = offering.2 := by
  have hrun : (offering.2.replace 1 ⟨2, 110, 3, 2, .buy, .fok⟩ (.empty 4)).map
      (fun done => (done.1.status, done.1.filled, done.2.2.2.resting)) =
        some (.rejectedFokUnfillable, 0, []) := by decide +kernel
  have hbefore : offering.2.resting = [⟨1, 110, 5, 5, 1, 1, .sell⟩] := by decide +kernel
  refine ⟨hrun, hbefore, fun h => ?_⟩
  obtain ⟨⟨r, old, out', b'⟩, hreplace, heq⟩ := Option.map_eq_some_iff.1 hrun
  obtain ⟨hstatus, hfilled, hresting⟩ : r.status = .rejectedFokUnfillable ∧ r.filled = 0 ∧
      b'.resting = [] := by simpa using heq
  have hsame := h r old out' b' hreplace (by rw [hstatus]; rfl) hfilled
  rw [hsame, hbefore] at hresting
  cases hresting

/-- A fresh order of quantity zero is refused in time. -/
theorem replace_atomic_offering :
    (offering.2.replace 1 ⟨2, 110, 0, 2, .buy, .fok⟩ (.empty 4)).map (·.1.status) =
        some .rejectedInvalidQuantity ∧
      ∀ r old out' b', offering.2.replace 1 ⟨2, 110, 0, 2, .buy, .fok⟩ (.empty 4) =
        some (r, old, out', b') → r.status.rejects = true → r.filled = 0 → b' = offering.2 :=
  ⟨by decide +kernel,
    (replace_atomic_iff offering_reached 1 ⟨2, 110, 0, 2, .buy, .fok⟩ (.empty 4)).2
      fun h => absurd h.1 (by decide +kernel)⟩

end OrderBook

end Velox
