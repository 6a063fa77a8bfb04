import Velox.Engine.FillOrKill

/-!
# Exact best prices

On the tick grid a slot holds one price, so the tracked best price is the price of a resting
order. `Sharp` collects what then holds: every order is on the grid and not at its side's
sentinel, and each best price is the sentinel or the price of an order at rest. With the general
invariant `Wf` it follows that no order is priced better than the best price (`Sharp.best_le`).

Every call keeps `Sharp`, as long as the limit orders it submits are on the grid and visible
(`NewOrder.Aligned`). A sharp book has no stale levels: the front of a book that is looked at is
never empty (`Sharp.front_ne_nil`).
-/

namespace Velox

/-- How good a price is on its side; smaller is better. -/
def Side.rank : Side → Int → Int
  | .buy, p => -p
  | .sell, p => p

theorem Side.rank_inj {s : Side} {p p' : Int} (h : s.rank p = s.rank p') : p = p' := by
  cases s <;> simp only [rank] at h <;> omega

/-- A better price crosses as well. -/
theorem crosses_mono {t : OrderType} {s : Side} {limit p p' : Int}
    (hle : s.opposite.rank p' ≤ s.opposite.rank p) (h : crosses t s limit p = true) :
    crosses t s limit p' = true := by
  unfold crosses at h ⊢
  split
  · rfl
  · next ht =>
    rw [if_neg ht] at h
    cases s <;> simp only [Side.opposite, Side.rank, decide_eq_true_eq] at * <;> omega

/-- A limit order that may rest: on the grid, and not at the price that stands for an empty
side. -/
def NewOrder.Aligned (cfg : BookConfig) (o : NewOrder) : Prop :=
  o.type = .limit → cfg.onGrid o.price = true ∧ o.price ≠ emptySentinel o.side

instance (cfg : BookConfig) (o : NewOrder) : Decidable (o.Aligned cfg) :=
  inferInstanceAs (Decidable (_ → _))

namespace QueueBook

/-- The best prices are exact. -/
structure Sharp (q : QueueBook) : Prop where
  wf : q.Wf
  onGrid : ∀ x ∈ q.orders, q.cfg.onGrid x.price = true
  visible : ∀ x ∈ q.orders, x.price ≠ emptySentinel x.side
  exact : ∀ s, q.best s = emptySentinel s ∨ ∃ x ∈ q.orders, x.side = s ∧ x.price = q.best s

section Sharp

variable {q q' : QueueBook} {o : NewOrder} {x y : RestingOrder} {xs : List RestingOrder}
  {rem rem' : Int} {oc : MatchOutcome} {ts : List Trade} {vs : List StpVictim} {s : Side}

theorem Sharp.slotPrice_eq (hs : q.Sharp) (hx : x ∈ q.orders) :
    q.cfg.slotPrice (q.cfg.slot x.price) = x.price :=
  BookConfig.slotPrice_slot (hs.wf.inRange x hx) (hs.onGrid x hx)

/-- A slot holds one price. -/
theorem Sharp.price_eq (hs : q.Sharp) (hx : x ∈ q.orders) (hy : y ∈ q.orders)
    (h : q.cfg.slot x.price = q.cfg.slot y.price) : x.price = y.price := by
  rw [← hs.slotPrice_eq hx, h, hs.slotPrice_eq hy]

theorem Sharp.not_hidden (hs : q.Sharp) (hx : x ∈ q.orders) :
    q.cfg.hidden x.side x.price = false := by
  rw [BookConfig.hidden, decide_eq_false_iff_not, hs.slotPrice_eq hx, or_self]
  exact hs.visible x hx

/-- **The best price is the best resting price.** -/
theorem Sharp.best_le (hs : q.Sharp) (hx : x ∈ q.orders) :
    q.best x.side ≠ emptySentinel x.side ∧ x.side.rank (q.best x.side) ≤ x.side.rank x.price := by
  obtain ⟨hne, hslot⟩ := hs.wf.ahead x hx (hs.not_hidden hx)
  refine ⟨hne, ?_⟩
  obtain ⟨y, hy, hside, hprice⟩ := (hs.exact x.side).resolve_left hne
  rw [← hprice] at hslot ⊢
  rcases hslot with heq | hb
  · exact (congrArg x.side.rank (hs.price_eq hy hx heq.symm)).le
  · rw [← hs.slotPrice_eq hx, ← hs.slotPrice_eq hy]
    cases hx' : x.side <;> rw [hx'] at hb
    · exact Int.neg_le_neg (BookConfig.slotPrice_mono hb.le)
    · exact BookConfig.slotPrice_mono hb.le

/-- A side without a best price has no orders. -/
theorem Sharp.best_eq_sentinel (hs : q.Sharp) :
    q.best s = emptySentinel s ↔ ∀ x ∈ q.orders, x.side ≠ s := by
  constructor
  · rintro h x hx rfl
    exact (hs.best_le hx).1 h
  · intro h
    by_contra hne
    obtain ⟨x, hx, hside, -⟩ := (hs.exact s).resolve_left hne
    exact h x hx hside

/-- The front of a sharp book is priced at the best price. -/
theorem Sharp.front_price (hs : q.Sharp) (hne : q.best o.side.opposite ≠ emptySentinel o.side.opposite)
    (hx : x ∈ q.front o) : x.price = q.best o.side.opposite := by
  obtain ⟨hx, -, hslot⟩ := mem_queue.1 hx
  obtain ⟨y, hy, -, hprice⟩ := (hs.exact o.side.opposite).resolve_left hne
  rw [← hprice] at hslot ⊢
  exact hs.price_eq hx hy hslot

theorem Sharp.front_ne_nil (hs : q.Sharp)
    (hne : q.best o.side.opposite ≠ emptySentinel o.side.opposite) : q.front o ≠ [] := by
  obtain ⟨y, hy, hside, hprice⟩ := (hs.exact o.side.opposite).resolve_left hne
  refine queue_ne_nil_iff.2 ⟨y, hy, hside, ?_⟩
  rw [hprice]

/-! ## The operations keep it -/

theorem sharp_of_empty (hw : q.Wf) (ho : q.orders = [])
    (hb : ∀ s, q.best s = emptySentinel s) : q.Sharp :=
  ⟨hw, by simp [ho], by simp [ho], fun s => Or.inl (hb s)⟩

theorem Sharp.bumpTradeId (hs : q.Sharp) : q.bumpTradeId.Sharp :=
  ⟨hs.wf.bumpTradeId, hs.onGrid, hs.visible, hs.exact⟩

theorem Sharp.arrive (hs : q.Sharp) : q.arrive.Sharp :=
  ⟨hs.wf.arrive, hs.onGrid, hs.visible, hs.exact⟩

theorem Sharp.reduce (hs : q.Sharp) {qty : Int} (hx : x ∈ q.orders)
    (hqty : 0 ≤ qty ∧ qty < x.remaining) : (q.reduce x.id qty).Sharp := by
  have hmem : ∀ y ∈ (q.reduce x.id qty).orders, ∃ y' ∈ q.orders, y.price = y'.price ∧
      y.side = y'.side := by
    intro y hy
    obtain ⟨y', hy', rfl⟩ := reduce_mem hy
    exact ⟨y', hy', by split <;> rfl, by split <;> rfl⟩
  refine ⟨hs.wf.reduce hx hqty, fun y hy => ?_, fun y hy => ?_, fun s => ?_⟩
  · obtain ⟨y', hy', hp, -⟩ := hmem y hy
    rw [hp]
    exact hs.onGrid y' hy'
  · obtain ⟨y', hy', hp, hside⟩ := hmem y hy
    rw [hp, hside]
    exact hs.visible y' hy'
  · refine (hs.exact s).imp_right ?_
    rintro ⟨y, hy, hside, hp⟩
    refine ⟨_, List.mem_map.2 ⟨y, hy, rfl⟩, ?_, ?_⟩ <;> split <;> assumption

/-- **An order leaves**, and its level is reported if it is now empty. -/
theorem Sharp.remove (hs : q.Sharp) (hx : x ∈ q.orders) :
    ((q.remove x.id).settle x.side x.price).Sharp := by
  have hsub := q.remove_sublist x.id
  have hmem : ∀ {y}, y ∈ ((q.remove x.id).settle x.side x.price).orders → y ∈ q.orders := by
    intro y hy
    rw [settle_orders] at hy
    exact hsub.mem hy
  have hkeep : ∀ {y}, y ∈ q.orders → y ≠ x → y ∈ (q.remove x.id).orders := by
    intro y hy hne
    rw [QueueBook.remove, List.mem_filter, decide_eq_true_eq]
    exact ⟨hy, fun hid => hne (hs.wf.eq_of_id hy hx hid)⟩
  refine ⟨(hs.wf.remove _).settle _ _, fun y hy => ?_, fun y hy => ?_, fun s => ?_⟩
  · rw [settle_cfg]
    exact hs.onGrid y (hmem hy)
  · exact hs.visible y (hmem hy)
  · rw [settle_orders, settle]
    -- A best price that stays needs another order at that price.
    have hother : q.best s ≠ emptySentinel s → (s = x.side → q.best s ≠ x.price) →
        ∃ y ∈ (q.remove x.id).orders, y.side = s ∧ y.price = q.best s := by
      intro hne hprice
      obtain ⟨y, hy, hside, hp⟩ := (hs.exact s).resolve_left hne
      refine ⟨y, hkeep hy ?_, hside, hp⟩
      rintro rfl
      exact hprice hside.symm hp.symm
    have hold : (q.remove x.id).best s = q.best s := by cases s <;> rfl
    split
    · next hnil =>
      rw [levelEmptied]
      by_cases hp : x.price = (q.remove x.id).best x.side
      · rw [if_pos hp, setBest_best]
        by_cases ht : s = x.side
        · rw [if_pos ht, ht]
          rcases (q.remove x.id).nextOccupied_isNext x.side x.price with ⟨h, -⟩ | ⟨j, h, -, hocc, -⟩
          · exact Or.inl h
          · obtain ⟨y, hy, hside, rfl⟩ := queue_ne_nil_iff.1 hocc
            exact Or.inr ⟨y, hy, hside, by rw [h]; exact (hs.slotPrice_eq (hsub.mem hy)).symm⟩
        · rw [if_neg ht, hold]
          exact or_iff_not_imp_left.2 fun hne => hother hne fun h => absurd h ht
      · rw [if_neg hp, hold]
        refine or_iff_not_imp_left.2 fun hne => hother hne fun h heq => hp ?_
        subst h
        exact heq.symm.trans hold.symm
    · next hocc =>
      rw [hold]
      refine or_iff_not_imp_left.2 fun hne => ?_
      by_cases hp : s = x.side ∧ q.best s = x.price
      · obtain ⟨y, hy, hside, hslot⟩ := queue_ne_nil_iff.1 hocc
        refine ⟨y, hy, hside.trans hp.1.symm, ?_⟩
        rw [hp.2]
        exact hs.price_eq (hsub.mem hy) hx hslot
      · exact hother hne fun h heq => hp ⟨h, heq⟩

/-- An order comes to rest. -/
theorem Sharp.add (hs : q.Sharp) (hw : (q.add x).Wf) (hg : q.cfg.onGrid x.price = true)
    (hv : x.price ≠ emptySentinel x.side) : (q.add x).Sharp := by
  have hmem : ∀ {y}, y ∈ (q.add x).orders → y ∈ q.orders ∨ y = x := by
    intro y hy
    rw [add_orders, List.mem_append, List.mem_singleton] at hy
    exact hy
  refine ⟨hw, fun y hy => ?_, fun y hy => ?_, fun s => ?_⟩
  · rw [add_cfg]
    rcases hmem hy with hy | rfl
    · exact hs.onGrid y hy
    · exact hg
  · rcases hmem hy with hy | rfl
    · exact hs.visible y hy
    · exact hv
  · rw [add_best, add_orders]
    split
    · next hb => exact Or.inr ⟨x, by simp, hb.1.symm, rfl⟩
    · refine (hs.exact s).imp_right ?_
      rintro ⟨y, hy, hside, hp⟩
      exact ⟨y, List.mem_append_left _ hy, hside, hp⟩

theorem Sharp.afterVictim (hs : q.Sharp) (hl : q.Looks o rem) (hf : q.front o = x :: xs) :
    (q.afterVictim o x).Sharp := by
  obtain ⟨hx, hside, -⟩ := mem_of_front hf
  have hprice := hs.front_price hl.hasBest (by rw [hf]; exact List.mem_cons_self)
  have h := hs.remove hx
  rwa [hside, hprice] at h

theorem Sharp.afterTrade (hs : q.Sharp) (hl : q.Looks o rem) (hf : q.front o = x :: xs) :
    (q.afterTrade o x rem).Sharp := by
  obtain ⟨hx, hside, hslot⟩ := mem_of_front hf
  have hprice := hs.front_price hl.hasBest (by rw [hf]; exact List.mem_cons_self)
  have hpos := hs.wf.positive x hx
  have hrem := hl.rem_pos
  rw [QueueBook.afterTrade, fill]
  split
  · have h := hs.bumpTradeId.remove hx
    rwa [hside, hprice] at h
  · have h : (q.bumpTradeId.reduce x.id (min rem x.remaining)).Sharp :=
      hs.bumpTradeId.reduce hx (by omega)
    have hne : (q.bumpTradeId.reduce x.id (min rem x.remaining)).queue o.side.opposite
        ((q.bumpTradeId.reduce x.id (min rem x.remaining)).cfg.slot (q.best o.side.opposite)) ≠
          [] := by
      rw [reduce_queue, ne_eq, List.map_eq_nil_iff]
      exact List.ne_nil_of_mem (mem_queue.2 ⟨hx, hside, hslot⟩)
    rw [settle, if_neg hne]
    exact h

/-- **Matching keeps the best prices exact**, and never meets a stale level. -/
theorem Match.sharp (hm : Match o q rem oc ts vs q' rem') (hs : q.Sharp) : q'.Sharp := by
  induction hm with
  | exhausted | noLongerCrosses | stpAggressor => exact hs
  | stale hl hf => exact absurd hf (hs.front_ne_nil hl.hasBest)
  | trade hl hf _ _ ih => exact ih (hs.afterTrade hl hf)
  | stpPassive hl hf _ _ _ ih => exact ih (hs.afterVictim hl hf)
  | stpBoth hl hf => exact hs.afterVictim hl hf

theorem Submits.sharp {r : OrderResult} (h : q.Submits o r ts vs q') (hs : q.Sharp)
    (ha : o.Aligned q.cfg) : q'.Sharp := by
  have hw := h.wf hs.wf
  cases h with
  | rejected | unfillable => exact hs
  | stp _ hm | exhausted _ hm | filled _ hm | residual _ hm | fokResidual _ hm =>
    exact hm.sharp hs.arrive
  | rested _ hm _ ht =>
    obtain ⟨hg, hv⟩ := ha ht
    refine (hm.sharp hs.arrive).add hw ?_ hv
    rw [hm.cfg_eq]
    exact hg

theorem Cancels.sharp {id : Int} {r : OrderResult} (h : q.Cancels id r q') (hs : q.Sharp) :
    q'.Sharp := by
  cases h with
  | unknown => exact hs
  | found hx hid =>
    subst hid
    exact hs.remove hx

end Sharp

end QueueBook

end Velox
