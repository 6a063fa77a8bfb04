import Velox.Engine.Ledger

/-!
# What a call does to the orders of others

A call names at most one order at rest and brings at most one order of its own. Every other order
at rest that belongs to somebody else is touched by the trades of the call and by nothing else: it
loses what it traded, and leaves the book when that was all (`Step.fate`).

The trades of a call all have the call's order as their aggressor and an order at rest of another
participant as their passive side (`Submits.trade_spec`).
-/

namespace Velox

/-- The order at rest that a call names. -/
def Call.target : Call → Option Int
  | .submit _ => none
  | .cancel id => some id
  | .replace oldId _ => some oldId

namespace QueueBook

variable {q q' q₁ : QueueBook} {o : NewOrder} {rem rem' : Int} {oc : MatchOutcome} {ts : List Trade}
  {vs : List StpVictim} {x y : RestingOrder} {xs : List RestingOrder}

/-! ## The trades -/

theorem afterTrade_mem (hy : y ∈ (q.afterTrade o x rem).orders) :
    ∃ z ∈ q.orders, y = { z with remaining := y.remaining } := by
  rw [afterTrade_orders, fill] at hy
  split at hy
  · exact ⟨y, (remove_sublist _ _).subset hy, rfl⟩
  · obtain ⟨z, hz, rfl⟩ := reduce_mem hy
    refine ⟨z, hz, ?_⟩
    split <;> rfl

theorem afterVictim_subset : (q.afterVictim o x).orders ⊆ q.orders := by
  rw [afterVictim_orders]
  exact (remove_sublist _ _).subset

/-- What every trade of an order `o` against the book `q` looks like. -/
structure TradeOf (q : QueueBook) (o : NewOrder) (t : Trade) : Prop where
  aggressor : t.aggressorId = o.id
  side : t.aggressorSide = o.side
  passive : ∃ x ∈ q.orders, x.id = t.passiveId ∧ x.participant ≠ o.participant

theorem Match.trade_spec (hm : Match o q rem oc ts vs q' rem') : ∀ t ∈ ts, q.TradeOf o t := by
  induction hm with
  | exhausted | noLongerCrosses | stpAggressor | stpBoth => exact fun t ht => nomatch ht
  | stale _ _ _ ih =>
    intro t ht
    obtain ⟨ha, hs, z, hz, hpassive⟩ := ih t ht
    exact ⟨ha, hs, z, by simpa using hz, hpassive⟩
  | @trade q rem _ ts _ _ _ x _ _ hf hp _ ih =>
    intro t ht
    rcases List.mem_cons.1 ht with rfl | ht
    · exact ⟨rfl, rfl, x, (mem_of_front hf).1, rfl, hp⟩
    · obtain ⟨ha, hs, z, hz, hid, hown⟩ := ih t ht
      obtain ⟨w, hw, heq⟩ := afterTrade_mem hz
      rw [heq] at hid hown
      exact ⟨ha, hs, w, hw, hid, hown⟩
  | stpPassive _ _ _ _ _ ih =>
    intro t ht
    obtain ⟨ha, hs, z, hz, hpassive⟩ := ih t ht
    exact ⟨ha, hs, z, afterVictim_subset hz, hpassive⟩

theorem Submits.trade_spec {r : OrderResult} (h : q.Submits o r ts vs q') :
    ∀ t ∈ ts, q.TradeOf o t := by
  cases h with
  | rejected | unfillable => exact fun t ht => nomatch ht
  | stp _ hm | rested _ hm | exhausted _ hm | filled _ hm | residual _ hm | fokResidual _ hm =>
    intro t ht
    obtain ⟨ha, hs, x, hx, hpassive⟩ := hm.trade_spec t ht
    exact ⟨ha, hs, x, hx, hpassive⟩

theorem tradedBy_eq_zero {id : Int} (h : ∀ t ∈ ts, t.aggressorId ≠ id ∧ t.passiveId ≠ id) :
    tradedBy id ts = 0 := by
  rw [tradedBy, List.filter_eq_nil_iff.2]
  · rfl
  · intro t ht
    simp [h t ht]

/-! ## The fate of an order -/

/-- After trading `n`, the order is gone if that was all, and rests with the difference if not. -/
inductive Fate (x : RestingOrder) (n : Int) (xs : List RestingOrder) : Prop
  | gone (hn : n = x.remaining) (h : ∀ y ∈ xs, y.id ≠ x.id)
  | rests (hn : n < x.remaining) (h : { x with remaining := x.remaining - n } ∈ xs)

theorem Fate.of_mem (hpos : 0 < x.remaining) (hx : x ∈ xs) : Fate x 0 xs :=
  .rests hpos (by rw [sub_zero]; exact hx)

theorem Wf.remaining_pos (hw : q.Wf) (hx : x ∈ q.orders) : 0 < x.remaining := (hw.positive x hx).1

theorem mem_remove {id : Int} : x ∈ (q.remove id).orders ↔ x ∈ q.orders ∧ x.id ≠ id := by
  rw [remove, List.mem_filter, decide_eq_true_eq]

theorem mem_afterVictim_of_ne (hx : x ∈ q.orders) (hne : x.id ≠ y.id) :
    x ∈ (q.afterVictim o y).orders := by
  rw [afterVictim_orders]
  exact mem_remove.2 ⟨hx, hne⟩

theorem mem_afterTrade_of_ne (hx : x ∈ q.orders) (hne : x.id ≠ y.id) :
    x ∈ (q.afterTrade o y rem).orders := by
  rw [afterTrade_orders, fill]
  split
  · exact mem_remove.2 ⟨hx, hne⟩
  · refine List.mem_map.2 ⟨x, hx, if_neg hne⟩

/-- The order a trade was made with: it is gone, or rests with what is left. -/
theorem afterTrade_fate (o : NewOrder) (rem : Int) (hx : x ∈ q.orders) :
    (min rem x.remaining = x.remaining ∧ ∀ y ∈ (q.afterTrade o x rem).orders, y.id ≠ x.id) ∨
      (min rem x.remaining < x.remaining ∧
        { x with remaining := x.remaining - min rem x.remaining } ∈
          (q.afterTrade o x rem).orders) := by
  rw [afterTrade_orders, fill]
  split
  · next hall => exact Or.inl ⟨hall.symm, fun y hy => (mem_remove.1 hy).2⟩
  · next hpart =>
    refine Or.inr ⟨lt_of_le_of_ne (min_le_right _ _) (Ne.symm hpart), ?_⟩
    exact List.mem_map.2 ⟨x, hx, if_pos rfl⟩

/-- **A match takes from the orders of others what they trade, and nothing else.** -/
theorem Match.fate (hm : Match o q rem oc ts vs q' rem') (hw : q.Wf)
    (hid : ∀ z ∈ q.orders, z.id ≠ o.id) (hx : x ∈ q.orders) (hown : x.participant ≠ o.participant) :
    Fate x (tradedBy x.id ts) q'.orders := by
  induction hm generalizing x with
  | exhausted | noLongerCrosses | stpAggressor => exact .of_mem (hw.remaining_pos hx) hx
  | stale _ hf _ ih => exact ih (hw.levelEmptied hf) (by simpa using hid) (by simpa using hx) hown
  | @trade q rem _ ts _ q' _ z _ hl hf _ rest ih =>
    have hw' := hw.afterTrade (o := o) hl.rem_pos hf
    have hid' : ∀ y ∈ (q.afterTrade o z rem).orders, y.id ≠ o.id := by
      intro y hy
      obtain ⟨w, hwmem, heq⟩ := afterTrade_mem hy
      rw [heq]
      exact hid w hwmem
    by_cases hxz : x.id = z.id
    · obtain rfl := hw.eq_of_id hx (mem_of_front hf).1 hxz
      have hcons : tradedBy x.id (q.tradeOf o x rem :: ts) =
        min rem x.remaining + tradedBy x.id ts := tradedBy_cons_passive (q.tradeOf o x rem) ts
      rw [hcons]
      rcases afterTrade_fate o rem hx with ⟨hall, hgone⟩ | ⟨hpart, hrests⟩
      · -- The later trades are with orders that still rest.
        have hzero : tradedBy x.id ts = 0 := by
          refine tradedBy_eq_zero fun t ht => ?_
          obtain ⟨ha, -, w, hwmem, hpassive, -⟩ := rest.trade_spec t ht
          rw [ha, ← hpassive]
          exact ⟨(hid x hx).symm, hgone w hwmem⟩
        refine .gone (by rw [hall, hzero, add_zero]) fun y hy => ?_
        obtain ⟨w, hwmem, heq⟩ := rest.mem_orders hy
        rw [heq]
        exact hgone w hwmem
      · rcases ih hw' hid' hrests hown with ⟨hn, hgone⟩ | ⟨hn, hmem⟩
        · exact .gone (by rw [hn]; exact add_sub_cancel _ _) hgone
        · refine .rests (by dsimp only at hn; omega) ?_
          rw [← sub_sub]
          exact hmem
    · have hcons : tradedBy x.id (q.tradeOf o z rem :: ts) = tradedBy x.id ts :=
        tradedBy_cons_of_ne (hid x hx).symm (Ne.symm hxz)
      rw [hcons]
      exact ih hw' hid' (mem_afterTrade_of_ne hx hxz) hown
  | @stpPassive q _ _ _ _ _ _ z _ _ hf hp _ _ ih =>
    have hxz : x.id ≠ z.id := fun h =>
      hown (hw.eq_of_id hx (mem_of_front hf).1 h ▸ hp)
    exact ih hw.afterVictim (fun y hy => hid y (afterVictim_subset hy))
      (mem_afterVictim_of_ne hx hxz) hown
  | @stpBoth q _ z _ _ hf hp _ =>
    have hxz : x.id ≠ z.id := fun h =>
      hown (hw.eq_of_id hx (mem_of_front hf).1 h ▸ hp)
    exact .of_mem (hw.remaining_pos hx) (mem_afterVictim_of_ne hx hxz)

theorem Fate.add {n : Int} (h : Fate x n q.orders) (hne : x.id ≠ y.id) :
    Fate x n (q.add y).orders := by
  rw [add_orders]
  rcases h with ⟨hn, hgone⟩ | ⟨hn, hmem⟩
  · refine .gone hn fun z hz => ?_
    rcases List.mem_append.1 hz with hz | hz
    · exact hgone z hz
    · rw [List.mem_singleton.1 hz]
      exact hne.symm
  · exact .rests hn (List.mem_append_left _ hmem)

theorem Submits.fate {r : OrderResult} (h : q.Submits o r ts vs q') (hw : q.Wf)
    (hx : x ∈ q.orders) (hown : x.participant ≠ o.participant) :
    Fate x (tradedBy x.id ts) q'.orders := by
  cases h with
  | rejected | unfillable => exact .of_mem (hw.remaining_pos hx) hx
  | stp ha hm | exhausted ha hm | filled ha hm | residual ha hm | fokResidual ha hm =>
    exact hm.fate hw.arrive (check_eq_none ha.check).2.2.1 hx hown
  | @rested _ _ _ q' rem ha hm =>
    have hid := (check_eq_none ha.check).2.2.1
    exact (hm.fate hw.arrive hid hx hown).add (hid x hx)

theorem Cancels.mem_of_ne {id : Int} {r : OrderResult} (h : q.Cancels id r q') (hx : x ∈ q.orders)
    (hne : x.id ≠ id) : x ∈ q'.orders := by
  cases h with
  | unknown => exact hx
  | found =>
    rw [settle_orders]
    exact mem_remove.2 ⟨hx, hne⟩

/-- **A call leaves the orders of others alone**, those apart that it names or trades with. -/
theorem Step.fate {c : Call} {e : Effect} (h : q.Step c e q') (hw : q.Wf) (hx : x ∈ q.orders)
    (hown : ∀ o ∈ c.order, x.participant ≠ o.participant) (hname : ∀ id ∈ c.target, x.id ≠ id) :
    Fate x (tradedBy x.id e.trades) q'.orders := by
  cases h with
  | submit h => exact h.fate hw hx (hown _ rfl)
  | cancel h => exact .of_mem (hw.remaining_pos hx) (h.mem_of_ne hx (hname _ rfl))
  | replaceRejected => exact .of_mem (hw.remaining_pos hx) hx
  | replaced _ hc hs => exact hs.fate (hc.wf hw) (hc.mem_of_ne hx (hname _ rfl)) (hown _ rfl)

/-! ## Where orders and trades come from -/

/-- Where an order at rest after a submit comes from. -/
theorem Submits.mem_orders {r : OrderResult} (h : q.Submits o r ts vs q') (hy : y ∈ q'.orders) :
    (∃ z ∈ q.orders, y = { z with remaining := y.remaining }) ∨
      (r.rested = true ∧ r.status = .ok ∧ y.id = o.id ∧ y.side = o.side ∧
        y.participant = o.participant) := by
  cases h with
  | rejected | unfillable => exact Or.inl ⟨y, hy, rfl⟩
  | stp _ hm | exhausted _ hm | filled _ hm | residual _ hm | fokResidual _ hm =>
    exact Or.inl (hm.mem_orders hy)
  | rested _ hm =>
    rw [add_orders, List.mem_append, List.mem_singleton] at hy
    rcases hy with hy | rfl
    · exact Or.inl (hm.mem_orders hy)
    · exact Or.inr ⟨rfl, rfl, rfl, rfl, rfl⟩

/-- After a cancel no order has this id. -/
theorem Cancels.ne_of_mem {id : Int} {r : OrderResult} (h : q.Cancels id r q')
    (hy : y ∈ q'.orders) : y.id ≠ id := by
  cases h with
  | unknown h => exact h y hy
  | found =>
    rw [settle_orders] at hy
    exact (mem_remove.1 hy).2

/-- A trade of a call is between the order that the call brings and an order at rest that it does
not name. -/
theorem Step.trade_spec {c : Call} {e : Effect} (h : q.Step c e q') {t : Trade}
    (ht : t ∈ e.trades) : ∃ o ∈ c.order, t.aggressorId = o.id ∧ t.aggressorSide = o.side ∧
      ∃ x ∈ q.orders, x.id = t.passiveId ∧ x.participant ≠ o.participant ∧
        ∀ id ∈ c.target, x.id ≠ id := by
  cases h with
  | submit h =>
    obtain ⟨ha, hs, x, hx, hid, hown⟩ := h.trade_spec t ht
    exact ⟨_, rfl, ha, hs, x, hx, hid, hown, nofun⟩
  | cancel | replaceRejected => cases ht
  | replaced _ hc hs =>
    obtain ⟨ha, hs, x, hx, hid, hown⟩ := hs.trade_spec t ht
    refine ⟨_, rfl, ha, hs, x, hc.origin hx, hid, hown, fun id hid => ?_⟩
    exact Option.some.inj hid ▸ hc.ne_of_mem hx

/-! ## How much is traded -/

theorem Match.quantity_pos (hm : Match o q rem oc ts vs q' rem') (hw : q.Wf) :
    ∀ t ∈ ts, 0 < t.quantity := by
  induction hm with
  | exhausted | noLongerCrosses | stpAggressor | stpBoth => exact fun t ht => nomatch ht
  | stale _ hf _ ih => exact ih (hw.levelEmptied hf)
  | @trade q rem _ _ _ _ _ x _ hl hf _ _ ih =>
    intro t ht
    rcases List.mem_cons.1 ht with rfl | ht
    · exact lt_min hl.rem_pos (hw.remaining_pos (mem_of_front hf).1)
    · exact ih (hw.afterTrade hl.rem_pos hf) t ht
  | stpPassive _ _ _ _ _ ih => exact ih hw.afterVictim

/-- An order trades at most its quantity. -/
theorem Submits.traded_le {r : OrderResult} (h : q.Submits o r ts vs q') (hw : q.Wf) :
    (∀ t ∈ ts, 0 < t.quantity) ∧ (ts ≠ [] → tradedIn ts ≤ o.quantity) := by
  cases h with
  | rejected | unfillable => exact ⟨fun t ht => (nomatch ht), fun h => absurd rfl h⟩
  | stp ha hm | rested ha hm | exhausted ha hm | filled ha hm | residual ha hm
  | fokResidual ha hm =>
    have hq := (check_eq_none ha.check).1
    have hbound := hm.rem_bounds hw.arrive hq.le
    have hsum := (hm.conserves hw.arrive).2
    exact ⟨hm.quantity_pos hw.arrive, fun _ => by omega⟩

theorem Step.traded_le {c : Call} {e : Effect} (h : q.Step c e q') (hw : q.Wf) :
    (∀ t ∈ e.trades, 0 < t.quantity) ∧
      (e.trades ≠ [] → ∀ o ∈ c.order, tradedIn e.trades ≤ o.quantity) := by
  cases h with
  | submit h =>
    refine ⟨(h.traded_le hw).1, fun hne o ho => ?_⟩
    exact Option.some.inj ho ▸ (h.traded_le hw).2 hne
  | cancel | replaceRejected => exact ⟨fun t ht => (nomatch ht), fun h => absurd rfl h⟩
  | replaced _ hc hs =>
    refine ⟨(hs.traded_le (hc.wf hw)).1, fun hne o ho => ?_⟩
    exact Option.some.inj ho ▸ (hs.traded_le (hc.wf hw)).2 hne

theorem tradedBy_nonneg {id : Int} (h : ∀ t ∈ ts, 0 < t.quantity) : 0 ≤ tradedBy id ts := by
  refine List.sum_nonneg fun n hn => ?_
  obtain ⟨t, ht, rfl⟩ := List.mem_map.1 hn
  exact (h t (List.mem_of_mem_filter ht)).le

theorem tradedBy_le_tradedIn (id : Int) (h : ∀ t ∈ ts, 0 < t.quantity) :
    tradedBy id ts ≤ tradedIn ts := by
  refine (List.filter_sublist.map _).sum_le_sum fun n hn => ?_
  obtain ⟨t, ht, rfl⟩ := List.mem_map.1 hn
  exact (h t ht).le

theorem Fate.le {n : Int} (h : Fate x n xs) : n ≤ x.remaining := by
  cases h with
  | gone hn => exact hn.le
  | rests hn => exact hn.le

theorem Fate.congr {n : Int} {ys : List RestingOrder} (h : Fate x n xs)
    (hxy : ∀ y, y ∈ ys ↔ y ∈ xs) : Fate x n ys := by
  cases h with
  | gone hn hgone => exact .gone hn fun y hy => hgone y ((hxy y).1 hy)
  | rests hn hmem => exact .rests hn ((hxy _).2 hmem)

/-! ## How many trades -/

/-- A trade that leaves something to match has taken its order off the book, so no order is traded
with twice. -/
theorem Match.passives_nodup (hm : Match o q rem oc ts vs q' rem') (hw : q.Wf) :
    (ts.map Trade.passiveId).Nodup := by
  induction hm with
  | exhausted | noLongerCrosses | stpAggressor | stpBoth => exact List.nodup_nil
  | stale _ hf _ ih => exact ih (hw.levelEmptied hf)
  | stpPassive _ _ _ _ _ ih => exact ih hw.afterVictim
  | @trade q rem _ _ _ _ _ x _ hl hf _ hrest ih =>
    rw [List.map_cons]
    refine List.nodup_cons.2 ⟨fun hmem => ?_, ih (hw.afterTrade hl.rem_pos hf)⟩
    obtain ⟨t, ht, hid⟩ := List.mem_map.1 hmem
    obtain ⟨-, -, y, hy, hyid, -⟩ := hrest.trade_spec t ht
    by_cases hleft : 0 < rem - min rem x.remaining
    · have hfull : x.remaining = min rem x.remaining := by omega
      rw [afterTrade_orders, fill, if_pos hfull] at hy
      exact (mem_remove.1 hy).2 (hyid.trans hid)
    · cases hrest with
      | exhausted => cases ht
      | noLongerCrosses hpos => exact hleft hpos
      | stale hl | trade hl | stpAggressor hl | stpPassive hl | stpBoth hl => exact hleft hl.rem_pos

theorem Submits.passives_nodup {r : OrderResult} (h : q.Submits o r ts vs q') (hw : q.Wf) :
    (ts.map Trade.passiveId).Nodup := by
  cases h with
  | rejected | unfillable => exact List.nodup_nil
  | stp _ hm | rested _ hm | exhausted _ hm | filled _ hm | residual _ hm | fokResidual _ hm =>
    exact hm.passives_nodup hw.arrive

theorem Step.passives_nodup {c : Call} {e : Effect} (h : q.Step c e q') (hw : q.Wf) :
    (e.trades.map Trade.passiveId).Nodup := by
  cases h with
  | submit h => exact h.passives_nodup hw
  | cancel | replaceRejected => exact List.nodup_nil
  | replaced _ hc hs => exact hs.passives_nodup (hc.wf hw)

/-- **A call makes at most one trade with each order at rest.** -/
theorem Step.trades_le {c : Call} {e : Effect} (h : q.Step c e q') (hw : q.Wf) :
    e.trades.length ≤ q.orders.length := by
  have hsub : e.trades.map Trade.passiveId ⊆ q.orders.map RestingOrder.id := by
    intro id hid
    obtain ⟨t, ht, rfl⟩ := List.mem_map.1 hid
    obtain ⟨-, -, -, -, x, hx, hxid, -⟩ := h.trade_spec ht
    exact List.mem_map.2 ⟨x, hx, hxid⟩
  have hle := (h.passives_nodup hw).length_le_of_subset hsub
  rwa [List.length_map, List.length_map] at hle

/-! ## An order that meets none of its own participant -/

/-- No order of the same participant rests at a price at which `o` could be matched. -/
def Apart (q : QueueBook) (o : NewOrder) : Prop :=
  ∀ x ∈ q.orders, x.side = o.side.opposite → x.participant = o.participant →
    o.type ≠ .market ∧ o.side.opposite.beyond (q.cfg.slot o.price) (q.cfg.slot x.price)

theorem Apart.mono (ha : q.Apart o) (hcfg : q'.cfg = q.cfg)
    (hmem : ∀ y ∈ q'.orders, ∃ z ∈ q.orders, y = { z with remaining := y.remaining }) :
    q'.Apart o := by
  intro y hy hside hown
  obtain ⟨z, hz, heq⟩ := hmem y hy
  rw [heq] at hside hown ⊢
  rw [hcfg]
  exact ha z hz hside hown

theorem Apart.front_ne (ha : q.Apart o) (hl : q.Looks o rem) (hf : q.front o = x :: xs) :
    x.participant ≠ o.participant := by
  intro hown
  obtain ⟨hx, hside, hslot⟩ := mem_of_front hf
  obtain ⟨ht, hbeyond⟩ := ha x hx hside hown
  have hc := hl.crosses
  rw [hslot, Side.beyond_iff_lt] at hbeyond
  cases hs : o.side with
  | buy =>
    simp only [hs, Velox.crosses, if_neg ht, decide_eq_true_eq, Side.opposite] at hc hbeyond
    have hle : q.cfg.slot _ ≤ q.cfg.slot _ := BookConfig.slot_mono hc
    rcases hbeyond with ⟨h, -⟩ | ⟨-, hlt⟩
    · cases h
    · exact hle.not_gt hlt
  | sell =>
    simp only [hs, Velox.crosses, if_neg ht, decide_eq_true_eq, Side.opposite] at hc hbeyond
    have hle : q.cfg.slot _ ≤ q.cfg.slot _ := BookConfig.slot_mono hc
    rcases hbeyond with ⟨-, hlt⟩ | ⟨h, -⟩
    · exact hle.not_gt hlt
    · cases h

/-- Self-trade prevention has nothing to do. -/
theorem Match.apart (hm : Match o q rem oc ts vs q' rem') (ha : q.Apart o) :
    oc ≠ .stpFired ∧ vs = [] := by
  induction hm with
  | exhausted | noLongerCrosses => exact ⟨by decide, rfl⟩
  | stale _ _ _ ih => exact ih (ha.mono (by simp) fun y hy => ⟨y, by simpa using hy, rfl⟩)
  | trade _ _ _ _ ih => exact ih (ha.mono (by simp) fun y hy => afterTrade_mem hy)
  | stpAggressor hl hf hp | stpPassive hl hf hp | stpBoth hl hf hp =>
    exact absurd hp (ha.front_ne hl hf)

/-- An order that is filled removes an order of its own participant only where the passive one is
to be cancelled. -/
theorem Match.no_victims_of_filled (hm : Match o q rem oc ts vs q' rem') (hrem : ¬ 0 < rem')
    (hstp : q.cfg.stp ≠ .cancelPassive) : vs = [] := by
  induction hm with
  | exhausted | noLongerCrosses | stpAggressor => rfl
  | stale _ _ _ ih | trade _ _ _ _ ih => exact ih hrem (by simpa using hstp)
  | stpPassive _ _ _ hs => exact absurd hs hstp
  | stpBoth hl => exact absurd hl.rem_pos hrem

theorem Match.own_stays (hm : Match o q rem oc ts vs q' rem') (hw : q.Wf) (hvs : vs = [])
    (hx : x ∈ q.orders) (hown : x.participant = o.participant) : x ∈ q'.orders := by
  induction hm with
  | exhausted | noLongerCrosses | stpAggressor => exact hx
  | stale _ hf _ ih => exact ih (hw.levelEmptied hf) hvs (by simpa using hx)
  | trade hl hf hp _ ih =>
    refine ih (hw.afterTrade hl.rem_pos hf) hvs (mem_afterTrade_of_ne hx fun hid => hp ?_)
    rw [← hw.eq_of_id hx (mem_of_front hf).1 hid]
    exact hown
  | stpPassive | stpBoth => cases hvs

/-- **A match without victims takes from every order what it trades, and nothing else.** -/
theorem Match.fate_of_no_victims (hm : Match o q rem oc ts vs q' rem') (hw : q.Wf)
    (hid : ∀ z ∈ q.orders, z.id ≠ o.id) (hvs : vs = []) (hx : x ∈ q.orders) :
    Fate x (tradedBy x.id ts) q'.orders := by
  by_cases hown : x.participant = o.participant
  · have hzero : tradedBy x.id ts = 0 := by
      refine tradedBy_eq_zero fun t ht => ?_
      obtain ⟨ha, -, z, hz, hpassive, hforeign⟩ := hm.trade_spec t ht
      refine ⟨ha ▸ (hid x hx).symm, fun h => hforeign ?_⟩
      rw [hw.eq_of_id hz hx (hpassive.trans h)]
      exact hown
    rw [hzero]
    exact .of_mem (hw.remaining_pos hx) (hm.own_stays hw hvs hx hown)
  · exact hm.fate hw hid hx hown

end QueueBook

end Velox
