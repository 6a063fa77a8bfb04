import Velox.Engine.Invariants
import Velox.Marketdata.Publisher

/-!
# Market data after a restart

`apps/velox_gateway.cpp` recovers the books of all instruments first and then constructs the
publishers, each with an empty mirror that nothing loads: the snapshot source is asked only when the
publisher is lapped. `Publisher.start` is that publisher; `Shows` says that its mirror shows the
book, `Reports` that it sends a delta for each change of a level's total.

Both hold after every run on the grid exactly if nothing was at rest when the publisher started
(`pump_shows_and_reports_iff`). An order it has not seen stays unknown: either it is in the book in
the end, or the event that takes something from it changes a level about which nothing is sent.
-/

namespace Velox

/-- What a reader who sees the book now knows of it. -/
def OrderBook.known (b : OrderBook) : Replica := ⟨b.resting, b.seq, b.nextTradeId⟩

namespace Publisher

/-- The mirror shows the book: the same orders, each once, and the totals of the levels. -/
structure Shows (p : Publisher) (b : OrderBook) : Prop where
  once : (p.mirror.forEachOrder.map RestingOrder.id).Nodup
  orders : ∀ x, x ∈ p.mirror.forEachOrder ↔ x ∈ b.resting
  totals : ∀ side price, b.cfg.inRange price = true → b.cfg.onGrid price = true →
    p.mirror.levelTotal side price = ((b.sideOf side).levels (b.cfg.slot price)).totalQty

/-- Whenever an event changes the total of a level, a delta with the new total is sent. `r` is the
book before the events. -/
def Reports (p : Publisher) (r : Replica) : List OutboundEvent → Prop
  | [] => True
  | e :: es =>
    (∀ loc, (r.apply e).total loc ≠ r.total loc →
      ∃ d ∈ (p.applyAndPublish e).2.filterMap FeedMsg.delta?,
        d.side = loc.side ∧ d.price = loc.price ∧ d.totalQty = (r.apply e).total loc) ∧
      (p.applyAndPublish e).1.Reports (r.apply e) es

end Publisher

namespace Replica

section Unseen

variable {r r' : Replica} {e : OutboundEvent} {x : RestingOrder}

theorem total_perm (h : r.orders.Perm r'.orders) (loc : Location) : r.total loc = r'.total loc :=
  congrArg wrap64 ((h.filter _).map _).sum_eq

theorem applyAll_perm (h : r.orders.Perm r'.orders) (es : List OutboundEvent) :
    (r.applyAll es).orders.Perm (r'.applyAll es).orders := by
  induction es generalizing r r' with
  | nil => exact h
  | cons e es ih => exact ih (apply_perm h e)

/-- A reader who knows less. -/
theorem apply_subset (h : r'.orders ⊆ r.orders) (e : OutboundEvent) :
    (r'.apply e).orders ⊆ (r.apply e).orders := by
  cases e with
  | trade t n => exact List.filter_subset _ (List.map_subset _ h)
  | status => exact h
  | orderUpdate action side u st n =>
    cases action with
    | rested =>
      exact List.append_subset.2 ⟨List.Subset.trans h (List.subset_append_left ..),
        List.subset_append_right ..⟩
    | cancelled | replaced => exact List.filter_subset _ h
    | rejected => exact h

theorem Admits.mono (h : r.Admits e) (hsub : r'.orders ⊆ r.orders) : r'.Admits e :=
  fun loc hloc x hx hid => h loc hloc x (hsub hx) hid

/-- An event about another order leaves this one alone. -/
theorem mem_apply_of_ne (hx : x ∈ r.orders) (hne : e.level? = none ∨ e.subject ≠ x.id) :
    x ∈ (r.apply e).orders := by
  cases e with
  | status => exact hx
  | trade t n =>
    have hne : x.id ≠ t.passiveId := Ne.symm (hne.resolve_left nofun)
    exact List.mem_filter.2 ⟨List.mem_map.2 ⟨x, hx, if_neg hne⟩, decide_eq_true (Or.inl hne)⟩
  | orderUpdate action side u st n =>
    cases action with
    | rejected => exact hx
    | rested => exact List.mem_append_left _ hx
    | cancelled | replaced =>
      exact List.mem_filter.2 ⟨hx, decide_eq_true (Ne.symm (hne.resolve_left nofun))⟩

/-- And brings no order with its id. -/
theorem apply_ids_ne {id : Int} (h : ∀ y ∈ r.orders, y.id ≠ id)
    (hne : e.level? = none ∨ e.subject ≠ id) : ∀ y ∈ (r.apply e).orders, y.id ≠ id := by
  intro y hy
  cases e with
  | status => exact h y hy
  | trade t n =>
    obtain ⟨z, hz, rfl⟩ := List.mem_map.1 (List.mem_filter.1 hy).1
    have := h z hz
    split <;> exact this
  | orderUpdate action side u st n =>
    cases action with
    | rejected => exact h y hy
    | cancelled | replaced => exact h y (List.mem_filter.1 hy).1
    | rested =>
      rcases List.mem_append.1 hy with hy | hy
      · exact h y hy
      · rw [List.mem_singleton.1 hy]
        exact hne.resolve_left nofun

/-- An event about an order the reader does not know tells them nothing. -/
theorem apply_orders_eq (h : ∀ y ∈ r.orders, y.id ≠ e.subject) (hrests : e.rests = false) :
    (r.apply e).orders = r.orders := by
  cases e with
  | status => rfl
  | trade t n => exact fillOrder_of_forall_ne h
  | orderUpdate action side u st n =>
    cases action with
    | rejected => rfl
    | rested => cases hrests
    | cancelled | replaced => exact dropOrder_of_forall_ne h

end Unseen

end Replica

namespace Publisher

section Restart

variable {p : Publisher} {r r' : Replica} {es : List OutboundEvent} {x : RestingOrder}

theorem synced_start (instrumentId : UInt32) : (start instrumentId).Synced .empty :=
  ⟨BookMirror.mirrors_empty, fun loc => by cases loc.side <;> rfl⟩

theorem Synced.pump (h : p.Synced r) (hn : r.NamesAll es) :
    (p.pump es).1.Synced (r.applyAll es) := by
  induction es generalizing p r with
  | nil => exact h
  | cons e es ih => exact ih (h.applyAndPublish (hn.1.admits h.mirrors.ids)).1 hn.2

theorem Reports.perm (h : p.Reports r es) (hp : r.orders.Perm r'.orders) : p.Reports r' es := by
  induction es generalizing p r r' with
  | nil => trivial
  | cons e es ih =>
    have hp' := Replica.apply_perm hp e
    refine ⟨fun loc hne => ?_, ih h.2 hp'⟩
    rw [← Replica.total_perm hp', ← Replica.total_perm hp] at hne
    rw [← Replica.total_perm hp']
    exact h.1 loc hne

/-- A publisher that holds the book reports what happens to it. -/
theorem Synced.reports (h : p.Synced r) (hn : r.NamesAll es) : p.Reports r es := by
  induction es generalizing p r with
  | nil => trivial
  | cons e es ih =>
    have hadm := hn.1.admits h.mirrors.ids
    obtain ⟨hs, hdeltas⟩ := h.applyAndPublish hadm
    refine ⟨fun loc hne => ?_, ih hs hn.2⟩
    have hloc : e.level? = some loc := by
      by_contra hloc
      exact hne (hadm.total_eq hloc)
    rw [hdeltas, hloc, Option.bind_some, Replica.delta?, if_neg hne]
    exact ⟨_, List.mem_singleton_self _, rfl, rfl, rfl⟩

/-- **An order that the publisher has not seen** stays unknown to it and in the book, if every
change is reported. -/
theorem Synced.unseen (h : p.Synced r') (hsub : r'.orders ⊆ r.orders) (hr : r.Sound)
    (hx : x ∈ r.orders) (hno : ∀ y ∈ r'.orders, y.id ≠ x.id) (hn : r.NamesAll es)
    (hrep : p.Reports r es) :
    ∃ r₁, (p.pump es).1.Synced r₁ ∧ x ∈ (r.applyAll es).orders ∧ ∀ y ∈ r₁.orders, y.id ≠ x.id := by
  induction es generalizing p r r' with
  | nil => exact ⟨r', h, hx, hno⟩
  | cons e es ih =>
    have hadm := hn.1.admits hr.ids
    obtain ⟨hs, hdeltas⟩ := h.applyAndPublish (hadm.mono hsub)
    have hother : e.level? = none ∨ e.subject ≠ x.id := by
      by_contra habout
      rw [not_or, not_not] at habout
      obtain ⟨hsome, hid⟩ := habout
      obtain ⟨loc, hloc⟩ := Option.ne_none_iff_exists'.1 hsome
      obtain ⟨hrests, -⟩ := hadm loc hloc x hx hid.symm
      -- The level of the order changes, and nothing is sent.
      obtain ⟨d, hd, -⟩ := hrep.1 loc (hn.1.total_ne hr hloc)
      have hsame : (r'.apply e).orders = r'.orders :=
        Replica.apply_orders_eq (by rw [hid]; exact hno) hrests
      rw [hdeltas, hloc, Option.bind_some, Replica.delta?,
        if_pos (Replica.total_perm (List.Perm.of_eq hsame) loc)] at hd
      cases hd
    exact ih hs (Replica.apply_subset hsub e) (hn.1.sound hr) (Replica.mem_apply_of_ne hx hother)
      (Replica.apply_ids_ne hno hother) hn.2 hrep.2

end Restart

end Publisher

/-! ## The book itself -/

/-- The prices at which this submission may leave a limit order are on the grid. -/
def Submission.OnGrid (cfg : BookConfig) (c : Submission) : Prop :=
  ∀ k ∈ CommandKind.ofByte c.kind, ∀ o ∈ (c.command.call k).order,
    o.type = .limit → cfg.onGrid o.price = true

instance (cfg : BookConfig) (c : Submission) : Decidable (c.OnGrid cfg) :=
  inferInstanceAs (Decidable (∀ k ∈ CommandKind.ofByte c.kind, ∀ o ∈ (c.command.call k).order,
    o.type = .limit → cfg.onGrid o.price = true))

/-- The empty book of an instrument. -/
def gatewayBook : OrderBook := (OrderBook.create gatewayConfig).get (by decide +kernel)

/-- Neither empty-side sentinel is on its grid. -/
theorem Submission.OnGrid.aligned {c : Submission} (h : c.OnGrid gatewayConfig) :
    c.Aligned gatewayConfig := by
  intro k hk o ho ht
  have hgrid := h k hk o ho ht
  refine ⟨hgrid, fun hprice => ?_⟩
  rw [hprice] at hgrid
  cases hs : o.side <;> rw [hs] at hgrid <;> exact absurd hgrid (by decide)

namespace QueueBook

variable {q q' : QueueBook} {G : Int → Prop}

/-- Where the prices of the orders at rest come from. -/
theorem Submits.prices {o : NewOrder} {r : OrderResult} {ts : List Trade} {vs : List StpVictim}
    (h : q.Submits o r ts vs q') (hq : ∀ x ∈ q.orders, G x.price) (ho : o.type = .limit → G o.price) :
    ∀ x ∈ q'.orders, G x.price := by
  have hmatch : ∀ {oc q₁ rem}, Match o q.arrive o.quantity oc ts vs q₁ rem →
      ∀ x ∈ q₁.orders, G x.price := by
    intro oc q₁ rem hm x hx
    obtain ⟨y, hy, heq⟩ := hm.mem_orders hx
    rw [heq]
    exact hq y hy
  cases h with
  | rejected | unfillable => exact hq
  | stp _ hm | exhausted _ hm | filled _ hm | residual _ hm | fokResidual _ hm => exact hmatch hm
  | rested _ hm _ ht =>
    intro x hx
    rw [add_orders, List.mem_append, List.mem_singleton] at hx
    rcases hx with hx | rfl
    · exact hmatch hm x hx
    · exact ho ht

theorem Step.prices {c : Call} {e : Effect} (h : q.Step c e q') (hq : ∀ x ∈ q.orders, G x.price)
    (hc : ∀ o ∈ c.order, o.type = .limit → G o.price) : ∀ x ∈ q'.orders, G x.price := by
  cases h with
  | submit h => exact h.prices hq (hc _ rfl)
  | cancel h => exact fun x hx => hq x (h.origin hx)
  | replaceRejected => exact hq
  | replaced _ hcancel h => exact h.prices (fun x hx => hq x (hcancel.origin hx)) (hc _ rfl)

end QueueBook

namespace OrderBook

variable {b : OrderBook} {ps : List Ptr}

/-- Commands on the grid leave the orders of the book on the grid. -/
theorem applyAll_onGrid (hr : b.Repr ps none) (hw : (b.view ps).Wf)
    (hb : ∀ x ∈ b.resting, b.cfg.onGrid x.price = true) {cs : List Submission}
    (hcs : ∀ c ∈ cs, c.OnGrid b.cfg) {out : Sinks} {b' : OrderBook}
    (h : b.applyAll out cs = some b') :
    b'.cfg = b.cfg ∧ ∀ x ∈ b'.resting, b.cfg.onGrid x.price = true := by
  induction cs generalizing b ps with
  | nil =>
    cases h
    exact ⟨rfl, hb⟩
  | cons c cs ih =>
    obtain ⟨b₁, ps₁, hap, hr₁, hstep⟩ := apply_spec c.kind c.command hr hw
    obtain ⟨hcfg, hw₁, hb₁⟩ : b₁.cfg = b.cfg ∧ (b₁.view ps₁).Wf ∧
        ∀ x ∈ b₁.resting, b.cfg.onGrid x.price = true := by
      rcases hstep with hview | ⟨k, hk, e, hstep⟩
      · refine ⟨congrArg QueueBook.cfg hview.symm, hview ▸ hw, fun x hx => hb x ?_⟩
        rw [hr.mem_resting, hview]
        exact hr₁.mem_resting.1 hx
      · refine ⟨hstep.cfg_eq, hstep.wf hw, fun x hx => ?_⟩
        exact hstep.prices (G := fun price => b.cfg.onGrid price = true)
          (fun y hy => hb y (hr.mem_resting.2 hy))
          (fun o ho ht => hcs c List.mem_cons_self k hk o ho ht) x (hr₁.mem_resting.1 hx)
    rw [applyAll, hap] at h
    obtain ⟨hcfg', hb'⟩ := ih hr₁ hw₁ (by rw [hcfg]; exact hb₁)
      (fun c' hc' => by rw [hcfg]; exact hcs c' (List.mem_cons_of_mem _ hc')) h
    exact ⟨hcfg'.trans hcfg, by rw [← hcfg]; exact hb'⟩

/-- On the grid, the running total of a level is that of its price. -/
theorem Repr.totalQty_eq_total (hr : b.Repr ps none) (hw : (b.view ps).Wf)
    (hg : ∀ x ∈ b.resting, b.cfg.onGrid x.price = true) {s : Side} {p : Int}
    (hp : b.cfg.inRange p = true) (hpg : b.cfg.onGrid p = true) :
    ((b.sideOf s).levels (b.cfg.slot p)).totalQty = (b.view ps).replica.total ⟨s, p⟩ := by
  have hlevel := (hr.side s).levels (b.cfg.slot p) (by rw [hr.numSlots]; exact BookConfig.slot_lt hp)
  have hqueue : (b.view ps).queue s (b.cfg.slot p) = restingAt s p (b.view ps).orders := by
    refine List.filter_congr fun x hx => ?_
    rw [decide_eq_decide]
    refine and_congr_right fun _ => ⟨fun hslot => ?_, fun hprice => congrArg _ hprice⟩
    rw [← BookConfig.slotPrice_slot hp hpg, ← BookConfig.slotPrice_slot (hw.inRange x hx)
      (hg x (hr.mem_resting.2 hx))]
    exact congrArg _ hslot
  rw [hlevel.total, sum_remaining_chain hr, QueueBook.total, hqueue]
  rfl

end OrderBook

namespace Publisher

/-- A mirror with the orders of the book shows it. -/
theorem Synced.shows {p : Publisher} {r : Replica} {b : OrderBook} {ps : List Ptr} (h : p.Synced r)
    (hr : b.Repr ps none) (hw : (b.view ps).Wf) (hperm : r.orders.Perm (b.view ps).orders)
    (hg : ∀ x ∈ b.resting, b.cfg.onGrid x.price = true) : p.Shows b where
  once := ((h.mirrors.forEachOrder_perm.map _).nodup_iff).2 h.mirrors.ids
  orders := fun x => by
    rw [h.mirrors.forEachOrder_perm.mem_iff, hperm.mem_iff, hr.mem_resting]
  totals := fun s p hp hpg => by
    rw [h.mirrors.levelTotal_eq ⟨s, p⟩, hr.totalQty_eq_total hw hg hp hpg]
    exact Replica.total_perm hperm _

/-- **The feed after a restart**: the mirror shows the book and every change is reported exactly if
nothing was at rest when the publisher started. -/
theorem pump_shows_and_reports_iff {t : MatchingThread} (ht : t.book.Reachable)
    (instrumentId : UInt32) {cmds : List Command}
    (hgrid : ∀ cmd ∈ cmds, cmd.submission.OnGrid t.book.cfg) (hfits : t.runFits cmds = true) :
    ∃ events t', t.run cmds = some (events, t') ∧
      (((start instrumentId).pump events).1.Shows t'.book ∧
        (start instrumentId).Reports t.book.known events ↔ t.book.resting = []) := by
  obtain ⟨ps, hr, hf⟩ := ht.fits
  obtain ⟨events, t', ps', hrun, hr', hf', hnames, hread⟩ := t.run_names hr hf hfits
  have hknown : t.book.known.orders.Perm (t.book.view ps).orders := hr.resting_perm hf.wf
  have hend : (t.book.known.applyAll events).orders.Perm (t'.book.view ps').orders := by
    have hlast : (t'.book.view ps').orders = (t'.book.view ps').replica.orders := rfl
    rw [hlast, ← hread]
    exact Replica.applyAll_perm hknown events
  have hnames : t.book.known.NamesAll events := hnames.perm hknown.symm
  refine ⟨events, t', hrun, fun ⟨hshows, hrep⟩ => ?_, fun hnil => ?_⟩
  · -- An order at rest would have to be in the book in the end, and is not in the mirror.
    refine List.eq_nil_iff_forall_not_mem.2 fun x hx => ?_
    have hsound : t.book.known.Sound := by
      refine ⟨(hknown.map _).nodup_iff.2 hf.wf.ids, fun y hy => ?_⟩
      have hy' := hknown.mem_iff.1 hy
      obtain ⟨hpos, hle⟩ := hf.wf.positive y hy'
      obtain ⟨-, -, hqty, -⟩ := hf.order y hy'
      exact ⟨hpos, hle.trans_lt hqty.2⟩
    obtain ⟨r₁, hsync, hmem, hno⟩ := (synced_start instrumentId).unseen (List.nil_subset _) hsound hx
      (fun y hy => (nomatch hy)) hnames hrep
    have hin := (hshows.orders x).2 (hr'.mem_resting.2 (hend.mem_iff.1 hmem))
    exact hno x (hsync.mirrors.forEachOrder_perm.mem_iff.1 hin) rfl
  · have hempty : Replica.empty.orders.Perm t.book.known.orders := by
      rw [OrderBook.known, hnil]
      exact List.Perm.refl _
    have hsync := (synced_start instrumentId).pump (hnames.perm hempty.symm)
    have hbook := t.run_book cmds
    rw [hrun, Option.map_some] at hbook
    obtain ⟨hcfg, hg⟩ := OrderBook.applyAll_onGrid hr hf.wf (by rw [hnil]; simp)
      (fun c hc => by
        obtain ⟨cmd, hcmd, rfl⟩ := List.mem_map.1 hc
        exact hgrid cmd hcmd) hbook.symm
    refine ⟨hsync.shows hr' hf'.wf ((Replica.applyAll_perm hempty events).trans hend) ?_, ?_⟩
    · rw [hcfg]
      exact hg
    · exact ((synced_start instrumentId).reports (hnames.perm hempty.symm)).perm hempty

/-- The small book, recovered from a journal of one sell of 5 at 110. -/
def recoveredBook : OrderBook :=
  ((OrderBook.create OrderBook.smallConfig).bind (·.applyAll ⟨.empty 0, none⟩
    [⟨0, ⟨1, 0, 110, 5, 1, 0, .sell, .limit, 0⟩⟩])).get (by decide +kernel)

theorem recoveredBook_reachable : recoveredBook.Reachable := by
  obtain ⟨b₀, hb₀, hall⟩ := Option.bind_eq_some_iff.1 (Option.some_get _).symm
  exact OrderBook.reachable_of_applyAll hb₀ hall

/-- Participant 2 buys 2 at 110. -/
def buyTwo : Command := ⟨2, 0, 110, 2, 2, 0, .buy, .limit, 0⟩

theorem pump_shows_and_reports_iff_recoveredBook :
    ∃ events t', (⟨recoveredBook, 1⟩ : MatchingThread).run [buyTwo] = some (events, t') ∧
      (((start 1).pump events).1.Shows t'.book ∧
        (start 1).Reports recoveredBook.known events ↔ recoveredBook.resting = []) :=
  pump_shows_and_reports_iff (t := ⟨recoveredBook, 1⟩) recoveredBook_reachable 1
    (by decide +kernel) (by decide +kernel)

/-- The recovered sell is not in the mirror. The fill that takes 2 of its 5 makes the publisher send
the trade and a fill that leaves 0, and no delta. -/
theorem recovered_order_missing_from_feed : ∃ events t',
    (⟨recoveredBook, 1⟩ : MatchingThread).run [buyTwo] = some (events, t') ∧
      t'.book.resting = [⟨1, 110, 5, 3, 1, 1, .sell⟩] ∧
      ((start 1).pump events).1.mirror.forEachOrder = [] ∧
      ((start 1).pump events).2.map FeedMsg.body =
        [.tradeTick ⟨0, 2, 1, 110, 2, .buy⟩, .l3Fill ⟨1, 0, 110, 2, 0⟩] ∧
      ¬ ((start 1).pump events).1.Shows t'.book := by
  have hrun : ((⟨recoveredBook, 1⟩ : MatchingThread).run [buyTwo]).map (fun st =>
      (st.2.book.resting, ((start 1).pump st.1).1.mirror.forEachOrder,
        ((start 1).pump st.1).2.map FeedMsg.body)) =
      some ([⟨1, 110, 5, 3, 1, 1, .sell⟩], [],
        [.tradeTick ⟨0, 2, 1, 110, 2, .buy⟩, .l3Fill ⟨1, 0, 110, 2, 0⟩]) := by
    decide +kernel
  obtain ⟨⟨events, t'⟩, hrun, hsummary⟩ := Option.map_eq_some_iff.1 hrun
  obtain ⟨hresting, hsummary⟩ := Prod.mk.inj hsummary
  obtain ⟨hmirror, hbodies⟩ := Prod.mk.inj hsummary
  refine ⟨events, t', hrun, hresting, hmirror, hbodies, fun hshows => ?_⟩
  have hmem := (hshows.orders ⟨1, 110, 5, 3, 1, 1, .sell⟩).2 (by rw [hresting]; simp)
  rw [hmirror] at hmem
  cases hmem

end Publisher

end Velox
