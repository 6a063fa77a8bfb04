import Velox.Engine.PriceTime

/-!
# The representation invariant

`Consistent b chain linked` is what the book's five structures owe each other, in the terms of
the source: the levels link the orders of their slot, the id map and the levels hold the same
orders, the pool counts them, the occupancy bits are exact and the tracked best price is not
behind an occupied slot.

It holds in every state of every run whose limit orders are *trackable* (`run_consistent`): the
order's price is not one that the tracked best price cannot express, and the level's total
quantity still fits into 64 bits with the order added. Prices need not lie on the grid.
-/

namespace Velox

namespace QueueBook

variable {q q' : QueueBook} {o : NewOrder} {rem rem' : Int} {oc : MatchOutcome} {ts : List Trade}
  {vs : List StpVictim}

/-- What remains at one side and slot. -/
def total (q : QueueBook) (s : Side) (i : Nat) : Int := ((q.queue s i).map (·.remaining)).sum

/-- Every order can be seen from the best price, and every level's total fits into 64 bits. -/
structure Tracked (q : QueueBook) : Prop where
  wf : q.Wf
  visible : ∀ x ∈ q.orders, q.cfg.hidden x.side x.price = false
  fits : ∀ s i, q.total s i < 2 ^ 63

theorem Wf.total_remove_le (hw : q.Wf) (id : Int) (s : Side) (i : Nat) :
    (q.remove id).total s i ≤ q.total s i := by
  rw [total, total, remove_queue]
  refine (List.filter_sublist.map _).sum_le_sum fun n hn => ?_
  obtain ⟨x, hx, rfl⟩ := List.mem_map.1 hn
  exact (hw.positive x (mem_queue.1 hx).1).1.le

theorem total_reduce_le {qty : Int} (hqty : 0 ≤ qty) (id : Int) (s : Side) (i : Nat) :
    (q.reduce id qty).total s i ≤ q.total s i := by
  rw [total, total, reduce_queue, List.map_map]
  refine List.sum_le_sum fun x _ => ?_
  simp only [Function.comp]
  split
  · exact Int.sub_le_self _ hqty
  · exact le_rfl

theorem total_settle (q : QueueBook) (s : Side) (p : Int) (t : Side) (i : Nat) :
    (q.settle s p).total t i = q.total t i := by
  rw [total, settle_queue]
  rfl

/-- Matching only takes quantity away. -/
theorem Match.total_le (hm : Match o q rem oc ts vs q' rem') (hw : q.Wf) (s : Side) (i : Nat) :
    q'.total s i ≤ q.total s i := by
  have hvictim : ∀ {q : QueueBook} {x : RestingOrder}, q.Wf →
      (q.afterVictim o x).total s i ≤ q.total s i := by
    intro q x hw
    rw [afterVictim, total_settle]
    exact hw.total_remove_le _ _ _
  induction hm with
  | exhausted | noLongerCrosses | stpAggressor => exact le_rfl
  | stale _ hf _ ih =>
    refine (ih (hw.levelEmptied hf)).trans (le_of_eq ?_)
    rw [total, queue_congr (levelEmptied_cfg ..) (levelEmptied_orders ..)]
    rfl
  | @trade q rem _ _ _ _ _ x _ hl hf _ _ ih =>
    refine (ih (hw.afterTrade hl.rem_pos hf)).trans ?_
    have hpos := hw.positive x (mem_of_front hf).1
    have hrem := hl.rem_pos
    rw [afterTrade, total_settle, fill]
    split
    · exact hw.bumpTradeId.total_remove_le _ _ _
    · exact total_reduce_le (q := q.bumpTradeId) (by omega) _ _ _
  | stpPassive _ _ _ _ _ ih => exact (ih hw.afterVictim).trans (hvictim hw)
  | stpBoth => exact hvictim hw

/-- Every level's total fits into 64 bits. -/
structure Summed (q : QueueBook) : Prop where
  wf : q.Wf
  fits : ∀ s i, q.total s i < 2 ^ 63

theorem Tracked.summed (ht : q.Tracked) : q.Summed := ⟨ht.wf, ht.fits⟩

theorem Summed.total_nonneg (hs : q.Summed) (s : Side) (i : Nat) : 0 ≤ q.total s i := by
  refine List.sum_nonneg fun n hn => ?_
  obtain ⟨x, hx, rfl⟩ := List.mem_map.1 hn
  exact (hs.wf.positive x (mem_queue.1 hx).1).1.le

/-- The total of its level can take the quantity of a limit order. -/
def Summable (q : QueueBook) (o : NewOrder) : Prop :=
  o.type = .limit → q.cfg.inRange o.price = true →
    q.total o.side (q.cfg.slot o.price) + o.quantity < 2 ^ 63

theorem Match.summed (hm : Match o q rem oc ts vs q' rem') (hs : q.Summed) : q'.Summed :=
  ⟨hm.wf hs.wf, fun s i => (hm.total_le hs.wf s i).trans_lt (hs.fits s i)⟩

theorem Submits.summed {r : OrderResult} (h : q.Submits o r ts vs q') (hs : q.Summed)
    (ho : q.Summable o) : q'.Summed := by
  have hw := h.wf hs.wf
  have harrive : q.arrive.Summed := ⟨hs.wf.arrive, hs.fits⟩
  cases h with
  | rejected | unfillable => exact hs
  | stp _ hm | exhausted _ hm | filled _ hm | residual _ hm | fokResidual _ hm =>
    exact hm.summed harrive
  | @rested oc _ _ q₁ rem ha hm _ htype hrem _ =>
    have hcfg : q₁.cfg = q.cfg := hm.cfg_eq
    obtain ⟨hq, hrange, -, -⟩ := check_eq_none ha.check
    have hfits := ho htype (hrange (by rw [htype]; decide))
    refine ⟨hw, fun s i => ?_⟩
    rw [total, add_queue]
    split
    · next hplace =>
      obtain ⟨rfl, rfl⟩ := hplace
      have hle := hm.total_le hs.wf.arrive o.side (q.cfg.slot o.price)
      have hrem := (hm.rem_bounds hs.wf.arrive hq.le).2
      have hsame : q.arrive.total o.side (q.cfg.slot o.price) =
          q.total o.side (q.cfg.slot o.price) := rfl
      have hslot : q₁.cfg.slot (o.resting (q.seq + 1) rem).price = q.cfg.slot o.price := by
        rw [hcfg]
        rfl
      rw [List.map_append, List.sum_append, hslot]
      change q₁.total o.side (q.cfg.slot o.price) + (rem + 0) < 2 ^ 63
      omega
    · exact (hm.summed harrive).fits s i

theorem Cancels.total_le {id : Int} {r : OrderResult} (h : q.Cancels id r q') (hw : q.Wf)
    (s : Side) (i : Nat) : q'.total s i ≤ q.total s i := by
  cases h with
  | unknown => exact le_rfl
  | found =>
    rw [total_settle]
    exact hw.total_remove_le _ _ _

/-- **A call whose order the levels can take keeps the totals.** -/
theorem Step.summed {c : Call} {e : Effect} (h : q.Step c e q') (hs : q.Summed)
    (ho : ∀ o ∈ c.order, q.Summable o) : q'.Summed := by
  cases h with
  | submit h => exact h.summed hs (ho _ rfl)
  | cancel h => exact ⟨h.wf hs.wf, fun s i => (h.total_le hs.wf s i).trans_lt (hs.fits s i)⟩
  | replaceRejected => exact hs
  | @replaced _ fresh _ q₁ _ _ _ _ _ hc hsub =>
    have hle := hc.total_le hs.wf
    refine hsub.summed ⟨hc.wf hs.wf, fun s i => (hle s i).trans_lt (hs.fits s i)⟩
      fun htype hrange => ?_
    rw [hc.cfg_eq] at hrange ⊢
    exact (Int.add_le_add_right (hle _ _) _).trans_lt (ho fresh rfl htype hrange)

/-- What a limit order has to meet. -/
def Trackable (q : QueueBook) (o : NewOrder) : Prop :=
  o.type = .limit → q.cfg.inRange o.price = true → q.cfg.hidden o.side o.price = false ∧
    q.total o.side (q.cfg.slot o.price) + o.quantity < 2 ^ 63

theorem Trackable.summable (h : q.Trackable o) : q.Summable o :=
  fun htype hrange => (h htype hrange).2

theorem Match.visible (hm : Match o q rem oc ts vs q' rem')
    (hv : ∀ x ∈ q.orders, q.cfg.hidden x.side x.price = false) :
    ∀ x ∈ q'.orders, q'.cfg.hidden x.side x.price = false := by
  intro x hx
  obtain ⟨y, hy, heq⟩ := hm.mem_orders hx
  rw [hm.cfg_eq, heq]
  exact hv y hy

theorem Submits.visible {r : OrderResult} (h : q.Submits o r ts vs q')
    (hv : ∀ x ∈ q.orders, q.cfg.hidden x.side x.price = false) (ho : q.Trackable o) :
    ∀ x ∈ q'.orders, q'.cfg.hidden x.side x.price = false := by
  have harrive : ∀ x ∈ q.arrive.orders, q.arrive.cfg.hidden x.side x.price = false := hv
  cases h with
  | rejected | unfillable => exact hv
  | stp _ hm | exhausted _ hm | filled _ hm | residual _ hm | fokResidual _ hm =>
    exact hm.visible harrive
  | @rested oc _ _ q₁ rem ha hm _ htype hrem _ =>
    intro x hx
    obtain ⟨-, hrange, -, -⟩ := check_eq_none ha.check
    have hcfg : q₁.cfg = q.cfg := hm.cfg_eq
    rw [add_orders, List.mem_append, List.mem_singleton] at hx
    rw [add_cfg]
    rcases hx with hx | rfl
    · exact hm.visible harrive x hx
    · rw [hcfg]
      exact (ho htype (hrange (by rw [htype]; decide))).1

/-- **A call on trackable orders keeps the book tracked.** -/
theorem Step.tracked {c : Call} {e : Effect} (h : q.Step c e q') (ht : q.Tracked)
    (ho : ∀ o ∈ c.order, q.Trackable o) : q'.Tracked := by
  have hsummed := h.summed ht.summed fun o hmem => (ho o hmem).summable
  refine ⟨hsummed.wf, ?_, hsummed.fits⟩
  cases h with
  | submit h => exact h.visible ht.visible (ho _ rfl)
  | cancel h =>
    intro x hx
    rw [h.cfg_eq]
    exact ht.visible x (h.orders_subset hx)
  | replaceRejected => exact ht.visible
  | @replaced _ fresh _ q₁ _ _ _ _ _ hc hsub =>
    refine hsub.visible (fun x hx => ?_) fun htype hrange => ?_
    · rw [hc.cfg_eq]
      exact ht.visible x (hc.orders_subset hx)
    · rw [hc.cfg_eq] at hrange ⊢
      obtain ⟨hvis, hfits⟩ := ho fresh rfl htype hrange
      exact ⟨hvis, (Int.add_le_add_right (hc.total_le ht.wf _ _) _).trans_lt hfits⟩

end QueueBook

namespace OrderBook

variable {b : OrderBook} {ps : List Ptr}

/-- The five structures of the book agree on the orders `linked`, of which the level at index `i`
of side `s` links `chain s i`. -/
structure Consistent (b : OrderBook) (chain : Side → Nat → List Ptr) (linked : List Ptr) : Prop where
  mem_linked : ∀ p, p ∈ linked ↔ ∃ s, ∃ i < (b.sideOf s).numSlots, p ∈ chain s i
  -- Each level is a well-formed list that counts and adds up its orders.
  list : ∀ s, ∀ i < (b.sideOf s).numSlots, Chain.DList (fun p => (b.heap p).next)
    (fun p => (b.heap p).prev) ((b.sideOf s).levels i).head ((b.sideOf s).levels i).tail (chain s i)
  count : ∀ s, ∀ i < (b.sideOf s).numSlots, ((b.sideOf s).levels i).count = (chain s i).length
  totalQty : ∀ s, ∀ i < (b.sideOf s).numSlots,
    ((b.sideOf s).levels i).totalQty = ((chain s i).map fun p => (b.heap p).remaining).sum
  positive : ∀ p ∈ linked, 0 < (b.heap p).remaining
  seqs : ∀ s, ∀ i < (b.sideOf s).numSlots,
    (chain s i).Pairwise fun p p' => (b.heap p).seq < (b.heap p').seq
  placed : ∀ s, ∀ i < (b.sideOf s).numSlots, ∀ p ∈ chain s i,
    (b.heap p).side = s ∧ (b.sideOf s).slot (b.heap p).price = i
  -- The id map and the levels hold the same orders.
  level : ∀ s, ∀ i < (b.sideOf s).numSlots, ∀ p ∈ chain s i, (b.heap p).level = some ⟨s, i⟩
  find : ∀ id p, b.idMap.find idHash id = some p ↔ p ∈ linked ∧ (b.heap p).id = id
  ids : (linked.map fun p => (b.heap p).id).Nodup
  -- The pool has handed out exactly their slots, once each.
  slots : b.pool.Live linked
  inUse : b.pool.inUse = b.idMap.size
  size : b.idMap.size = linked.length
  insert : ∀ id p, b.idMap.find idHash id = none → (b.idMap.insert idHash id p).1 = true
  -- The occupancy bits.
  l0 : ∀ s i, (b.sideOf s).bits.mem i = true ↔ i < (b.sideOf s).numSlots ∧ chain s i ≠ []
  l1 : ∀ s, ∀ w < (b.sideOf s).bits.l0Words,
    ((b.sideOf s).bits.l1 (w / 64)).getLsbD (w % 64) = true ↔ (b.sideOf s).bits.l0 w ≠ 0
  -- The tracked best price.
  best : ∀ s, ∀ i < (b.sideOf s).numSlots, chain s i ≠ [] →
    (b.sideOf s).best ≠ emptySentinel s ∧
      (i = (b.sideOf s).slot (b.sideOf s).best ∨ s.beyond ((b.sideOf s).slot (b.sideOf s).best) i)

theorem sum_remaining_chain (hr : b.Repr ps none) (s : Side) (i : Nat) :
    (((b.sideOf s).chain b.heap ps i).map fun p => (b.heap p).remaining).sum =
      (b.view ps).total s i := by
  rw [QueueBook.total, hr.queue_eq, List.map_map]
  rfl

/-- The running total of a level is what remains there. -/
theorem Repr.totalQty_eq (hr : b.Repr ps none) (hs : (b.view ps).Summed) {s : Side} {i : Nat}
    (hi : i < b.cfg.numSlots) : ((b.sideOf s).levels i).totalQty = (b.view ps).total s i := by
  have hlevel := (hr.side s).levels i (by rw [hr.numSlots]; exact hi)
  have hnn := hs.total_nonneg s i
  rw [hlevel.total, sum_remaining_chain hr]
  exact wrap64_of_fits (by omega) (hs.fits s i)

theorem consistent_of_repr (hr : b.Repr ps none) (ht : (b.view ps).Tracked) :
    b.Consistent (fun s => (b.sideOf s).chain b.heap ps) ps where
  mem_linked := fun p => by
    constructor
    · intro hp
      refine ⟨(b.heap p).side, b.cfg.slot (b.heap p).price, ?_, hr.mem_chain hp⟩
      rw [hr.numSlots]
      exact BookConfig.slot_lt (ht.wf.inRange _ (List.mem_map.2 ⟨p, hp, rfl⟩))
    · rintro ⟨s, i, -, hp⟩
      exact (LevelMap.mem_chain.1 hp).1
  list := fun s i hi => ((hr.side s).levels i hi).list
  count := fun s i hi => ((hr.side s).levels i hi).count
  totalQty := fun s i hi => by
    rw [hr.totalQty_eq ht.summed (by rw [← hr.numSlots s]; exact hi), sum_remaining_chain hr]
  positive := fun p hp => (ht.wf.positive _ (List.mem_map.2 ⟨p, hp, rfl⟩)).1
  seqs := fun s i _ => by
    have hseqs := ht.wf.seqs s i
    rw [hr.queue_eq, List.pairwise_map] at hseqs
    exact hseqs
  placed := fun s i _ p hp => by
    obtain ⟨-, hside, hslot⟩ := LevelMap.mem_chain.1 hp
    exact ⟨hside.trans (hr.isSide s).side, hslot⟩
  level := fun s i hi p hp => by
    rw [((hr.side s).levels i hi).level p hp, (hr.isSide s).side]
  find := fun id p => hr.find_eq_some
  ids := by
    have hids := ht.wf.ids
    rw [view, List.map_map] at hids
    exact hids
  slots := hr.live
  inUse := by rw [hr.live.inUse, hr.idSize]
  size := hr.idSize
  insert := fun id p hnone => by
    obtain ⟨t, hins, -⟩ := Probing.Table.insert_fresh hr.idInv hr.size_lt p
      ((Probing.Table.find_eq_none hr.idInv hr.size_lt).1 hnone)
    rw [hins]
  l0 := fun s i => by
    rw [(hr.side s).bits]
    simp
  l1 := fun s => (hr.side s).summary
  best := fun s i _ hne => by
    obtain ⟨p, hp⟩ := List.exists_mem_of_ne_nil _ hne
    obtain ⟨hp, hside, hslot⟩ := LevelMap.mem_chain.1 hp
    have hmem : (b.heap p).data ∈ (b.view ps).orders := List.mem_map.2 ⟨p, hp, rfl⟩
    have hahead := ht.wf.ahead _ hmem (ht.visible _ hmem)
    rw [(hr.isSide s).side] at hside
    rw [(hr.isSide s).slot] at hslot ⊢
    rw [show (b.heap p).data.side = s from hside, view_best,
      show (b.view ps).cfg.slot (b.heap p).data.price = i from hslot] at hahead
    exact hahead

/-- A call the representation can keep track of: a limit order in range is not priced where the
tracked best price cannot express it, and the level's running total can take its quantity. -/
def Trackable (b : OrderBook) (c : Call) : Prop :=
  ∀ o ∈ c.order, o.type = .limit → b.cfg.inRange o.price = true →
    b.cfg.hidden o.side o.price = false ∧
      ((b.sideOf o.side).levels (b.cfg.slot o.price)).totalQty + o.quantity < 2 ^ 63

instance (b : OrderBook) (c : Call) : Decidable (b.Trackable c) :=
  inferInstanceAs (Decidable (∀ o ∈ c.order, _ → _ → _ ∧ _))

theorem Repr.trackable (hr : b.Repr ps none) (ht : (b.view ps).Tracked) {c : Call}
    (hc : b.Trackable c) : ∀ o ∈ c.order, (b.view ps).Trackable o := by
  intro o ho htype hrange
  have htotal := hr.totalQty_eq (s := o.side) ht.summed (BookConfig.slot_lt hrange)
  obtain ⟨hvis, hfits⟩ := hc o ho htype hrange
  exact ⟨hvis, (congrArg (· + o.quantity) htotal).symm.trans_lt hfits⟩

theorem emptyView_tracked (cfg : BookConfig) : (emptyView cfg).Tracked where
  wf := emptyView_wf cfg
  visible := fun x hx => nomatch hx
  fits := fun s i => by
    change (0 : Int) < 2 ^ 63
    norm_num

/-- **The representation invariant** holds after every run of trackable calls. -/
theorem run_consistent {cfg : BookConfig} (hb : create cfg = some b) (calls : List (Call × Sinks))
    (hok : b.Along Trackable calls) :
    ∃ rs b' chain linked, b.run calls = some (rs, b') ∧ b'.Consistent chain linked := by
  obtain ⟨hr, hview⟩ := repr_create hb
  obtain ⟨es, b', ps', hrun, hr', -, ht'⟩ := run_induct (I := QueueBook.Tracked) (P := Trackable)
    (fun _ ht => ht.wf) (fun hr ht hc hstep => hstep.tracked ht (hr.trackable ht hc)) calls hr
    (by rw [hview]; exact emptyView_tracked cfg) hok
  exact ⟨_, b', _, _, hrun, consistent_of_repr hr' ht'⟩

theorem run_consistent_smallCalls : ∃ b rs b' chain linked, create smallConfig = some b ∧
    b.run smallCalls = some (rs, b') ∧ b'.Consistent chain linked := by
  have hb := create_smallConfig
  obtain ⟨rs, b', chain, linked, hrun, hcons⟩ :=
    run_consistent hb smallCalls (by decide +kernel)
  exact ⟨_, rs, b', chain, linked, hb, hrun, hcons⟩

/-- The book after these calls, as the level at index `i` of side `s` shows it: its running total,
its count and whether the side has a best price. -/
def levelAfter (cfg : BookConfig) (calls : List (Call × Sinks)) (s : Side) (i : Nat) :
    Option (Int × Int × Bool) :=
  ((create cfg).bind fun b => b.run calls).map fun done =>
    (((done.2.sideOf s).levels i).totalQty, ((done.2.sideOf s).levels i).count,
      (done.2.sideOf s).hasBest)

/-- Two sells of `2 ^ 62` at one price make the level's total negative; a sell at `kAskEmpty`
leaves a non-empty side without a best price. -/
theorem untracked_states :
    levelAfter smallConfig [(.submit ⟨1, 110, 2 ^ 62, 1, .sell, .limit⟩, .empty 4),
      (.submit ⟨2, 110, 2 ^ 62, 1, .sell, .limit⟩, .empty 4)] .sell 1 =
        some (-2 ^ 63, 2, true) ∧
    levelAfter topConfig [(.submit ⟨1, kAskEmpty, 5, 1, .sell, .limit⟩, .empty 4)] .sell 0 =
        some (5, 1, false) := by
  constructor <;> decide +kernel

end OrderBook

end Velox
