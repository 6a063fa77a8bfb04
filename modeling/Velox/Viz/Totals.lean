import Velox.Engine.Invariants
import Velox.Engine.Prescan
import Velox.Viz.LateJoin

/-!
# The sums of quantities

Quantities are added up in four places, in 64 bits each time: in the running total of a level, in
the pre-scan of a fill-or-kill order, in the level totals of the mirror and, from these, in the
ladder of a subscriber. Nothing bounds the sums: the orders of a level can outgrow them.

The only guard needed is on the level an order joins (`runSums`). If its running total can take the
order's quantity each time, all four are the mathematical sums, after every event of the run
(`run_sums_exact`). The mirror has a level for each price where the book has one for each slot, so
that its sums are smaller; between two commands' ends the events only take quantity off.
-/

namespace Velox

/-! ## The levels of the book -/

namespace OrderBook

variable {b : OrderBook} {ps : List Ptr}

/-- What remains in a slot of one side. -/
def slotSum (b : OrderBook) (s : Side) (i : Nat) : Int :=
  ((QueueBook.atSlot b.cfg s i b.resting).map RestingOrder.remaining).sum

/-- The running total of the level that a limit order would join can take its quantity. -/
def Summable (b : OrderBook) (c : Call) : Prop :=
  ∀ o ∈ c.order, o.type = .limit → b.cfg.inRange o.price = true →
    ((b.sideOf o.side).levels (b.cfg.slot o.price)).totalQty + o.quantity < 2 ^ 63

instance (b : OrderBook) (c : Call) : Decidable (b.Summable c) :=
  inferInstanceAs (Decidable (∀ o ∈ c.order, _ → _ → _ < _))

theorem Repr.summable (hr : b.Repr ps none) (hs : (b.view ps).Summed) {c : Call}
    (hc : b.Summable c) : ∀ o ∈ c.order, (b.view ps).Summable o := by
  intro o ho htype hrange
  have htotal := hr.totalQty_eq (s := o.side) hs (BookConfig.slot_lt hrange)
  exact (congrArg (· + o.quantity) htotal).symm.trans_lt (hc o ho htype hrange)

theorem Repr.slotSum_eq (hr : b.Repr ps none) (hw : (b.view ps).Wf) (s : Side) (i : Nat) :
    b.slotSum s i = (b.view ps).total s i :=
  (((hr.resting_perm hw).filter _).map _).sum_eq

/-- The book adds up as one would with integers: each level's running total, and the pre-scan of a
fill-or-kill order, as long as the order and one more that is at rest fit into 64 bits together. -/
structure AddsUp (b : OrderBook) : Prop where
  totalQty : ∀ s, ∀ i < b.cfg.numSlots, ((b.sideOf s).levels i).totalQty = b.slotSum s i
  available : ∀ o : NewOrder, o.type = .fok → 0 < o.quantity →
    (∀ x ∈ b.resting, x.side = o.side.opposite → o.quantity + x.remaining ≤ 2 ^ 63) →
    ∃ n, b.availableAgainst o = some n ∧ b.availableWith (· + ·) o = some n ∧
      (o.quantity ≤ n → ∀ out, ∃ r out' b', b.submitEx o out = some (r, out', b') ∧
        r.status ≠ .rejectedFokUnfillable)

theorem Repr.addsUp (hr : b.Repr ps none) (hs : (b.view ps).Summed) : b.AddsUp where
  totalQty := fun s i hi => (hr.totalQty_eq hs hi).trans (hr.slotSum_eq hs.wf s i).symm
  available := fun o ht hq hfits => by
    refine availableAgainst_exact hr hs.wf (fun _ x hx => ?_) ht hq
    exact hfits x ((hr.resting_perm hs.wf).mem_iff.2 hx)

end OrderBook

/-! ## The levels of the mirror -/

namespace Replica

variable {r : Replica} {e : OutboundEvent} {es : List OutboundEvent} {loc : Location}

/-- What remains on a level. -/
def sum (r : Replica) (loc : Location) : Int :=
  ((restingAt loc.side loc.price r.orders).map RestingOrder.remaining).sum

/-- An event that brings no order to rest takes quantity off its level. -/
theorem Names.sum_le (h : r.Names e) (hr : r.Sound) (hrests : e.rests = false) (loc : Location) :
    (r.apply e).sum loc ≤ r.sum loc := by
  have hn := BookMirror.restingAt_nodup hr.ids loc.side loc.price
  by_cases hloc : e.level? = some loc
  · cases h with
    | status | rejected => cases hloc
    | rested => cases hrests
    | @trade t n x hx hid hxloc hpos hle =>
      cases hloc
      obtain ⟨hside, hprice⟩ := Location.mk.inj hxloc
      have hmem := mem_restingAt.2 ⟨hx, hside, hprice⟩
      rw [sum, show (r.apply (.trade t n)).orders = fillOrder x.id t.quantity r.orders by
        rw [hid]; rfl, restingAt_fillOrder, sum_fillOrder hn hmem hle]
      exact Int.sub_le_self _ hpos.le
    | @cancelled side u st n x hx hid hxloc =>
      refine ((List.filter_sublist.filter _).map _).sum_le_sum fun n hn => ?_
      obtain ⟨y, hy, rfl⟩ := List.mem_map.1 hn
      exact (hr.remaining y (mem_restingAt.1 hy).1).1.le
  · rw [sum, (h.admits hr.ids).restingAt_eq hloc]
    rfl

theorem NamesAll.sum_le (h : r.NamesAll es) (hr : r.Sound) (hrests : ∀ e ∈ es, e.rests = false)
    (loc : Location) : (r.applyAll es).sum loc ≤ r.sum loc := by
  induction es generalizing r with
  | nil => exact le_rfl
  | cons e es ih =>
    rw [List.forall_mem_cons] at hrests
    exact (ih h.2 (h.1.sound hr) hrests.2).trans (h.1.sum_le hr hrests.1 loc)

theorem NamesAll.mirrors {m : BookMirror} (h : r.NamesAll es) (hm : m.Mirrors r) :
    (m.applyAll es).Mirrors (r.applyAll es) := by
  induction es generalizing m r with
  | nil => exact hm
  | cons e es ih => exact ih h.2 ((h.1.admits hm.ids).mirrors hm)

end Replica

namespace BookMirror

/-- What remains on a level of the mirror. -/
def levelSum (m : BookMirror) (loc : Location) : Int :=
  (((m.deque loc).getD []).map MirrorOrder.remaining).sum

variable {m : BookMirror} {r : Replica} {loc : Location}

theorem Mirrors.levelSum_eq (h : m.Mirrors r) : m.levelSum loc = r.sum loc := by
  rw [levelSum, h.deque_getD, List.map_map]
  rfl

/-- A sum that fits is the total that the mirror computes. -/
theorem Mirrors.levelTotal_eq_levelSum (h : m.Mirrors r) (hr : r.Sound)
    (hfits : r.sum loc < 2 ^ 63) : m.levelTotal loc.side loc.price = m.levelSum loc := by
  have hnn : 0 ≤ r.sum loc := by
    refine List.sum_nonneg fun n hn => ?_
    obtain ⟨x, hx, rfl⟩ := List.mem_map.1 hn
    exact (hr.remaining x (mem_restingAt.1 hx).1).1.le
  rw [h.levelTotal_eq, h.levelSum_eq]
  exact wrap64_of_fits (le_trans (by norm_num) hnn) hfits

end BookMirror

/-! ## A run -/

namespace QueueBook

/-- The level of a price is part of the level of its slot. -/
theorem Wf.replica_sum_le {q : QueueBook} (hw : q.Wf) (loc : Location) :
    q.replica.sum loc ≤ q.total loc.side (q.cfg.slot loc.price) := by
  rw [Replica.sum, restingAt_eq_filter_atSlot q.cfg]
  refine (List.filter_sublist.map _).sum_le_sum fun n hn => ?_
  obtain ⟨x, hx, rfl⟩ := List.mem_map.1 hn
  exact (hw.positive x (List.mem_filter.1 hx).1).1.le

theorem Fits.sound {q : QueueBook} (hf : q.Fits) : q.replica.Sound := by
  refine ⟨hf.wf.ids, fun x hx => ?_⟩
  have hpos := hf.wf.positive x hx
  exact ⟨hpos.1, hpos.2.trans_lt (hf.order x hx).2.2.1.2⟩

theorem Summed.replica_sum_lt {q : QueueBook} (hs : q.Summed) (loc : Location) :
    q.replica.sum loc < 2 ^ 63 :=
  (hs.wf.replica_sum_le loc).trans_lt (hs.fits _ _)

end QueueBook

namespace MatchingThread

variable {t t' : MatchingThread} {ps : List Ptr} {cmd : Command} {cmds : List Command}
  {events : List OutboundEvent}

/-- Each of these commands finds its level able to take the order. -/
def runSums (t : MatchingThread) : List Command → Bool
  | [] => true
  | cmd :: cmds =>
    ((CommandKind.ofByte cmd.kind).all fun k => decide (t.book.Summable (cmd.call k))) &&
      (t.dispatch cmd).all fun step => step.2.runSums cmds

/-- **A command whose level can take its order** keeps the totals. -/
theorem dispatch_summed (hr : t.book.Repr ps none) (hs : (t.book.view ps).Summed)
    (hsum : (CommandKind.ofByte cmd.kind).all fun k => decide (t.book.Summable (cmd.call k))) :
    ∃ events t' ps', t.dispatch cmd = some (events, t') ∧ t'.book.Repr ps' none ∧
      (t'.book.view ps').Summed ∧ ∀ e ∈ events.dropLast, e.rests = false := by
  rcases dispatch_spec hr hs.wf cmd with ⟨-, hd⟩ | ⟨k, e, b, ps', hk, -, hd, hr', hstep⟩
  · exact ⟨[], _, ps, hd, hr, hs, fun e he => (by cases he)⟩
  · rw [hk, Option.all_some, decide_eq_true_eq] at hsum
    exact ⟨_, _, ps', hd, hr', hstep.summed hs (hr.summable hs hsum), BookMirror.publish_rests cmd _ _ k⟩

theorem run_summed (hr : t.book.Repr ps none) (hs : (t.book.view ps).Summed)
    (hsums : t.runSums cmds = true) :
    ∃ events t' ps', t.run cmds = some (events, t') ∧ t'.book.Repr ps' none ∧
      (t'.book.view ps').Summed := by
  induction cmds generalizing t ps with
  | nil => exact ⟨[], t, ps, rfl, hr, hs⟩
  | cons cmd cmds ih =>
    rw [runSums, Bool.and_eq_true] at hsums
    obtain ⟨events, t₁, ps₁, hd, hr₁, hs₁, -⟩ := dispatch_summed hr hs hsums.1
    have hrest := hsums.2
    rw [hd, Option.all_some] at hrest
    obtain ⟨events', t', ps', hrun, hr', hs'⟩ := ih hr₁ hs₁ hrest
    refine ⟨events ++ events', t', ps', ?_, hr', hs'⟩
    rw [run, hd]
    change (t₁.run cmds).bind _ = _
    rw [hrun]
    rfl

/-- After each event of such a command the levels of the mirror fit: before the last one there is
less on them than before the command, after it there is what the book holds. -/
theorem dispatch_sums (hr : t.book.Repr ps none) (hf : (t.book.view ps).Fits)
    (hs : (t.book.view ps).Summed) (hfit : t.overflows cmd = false)
    (hsum : (CommandKind.ofByte cmd.kind).all fun k => decide (t.book.Summable (cmd.call k))) :
    ∃ events t' ps', t.dispatch cmd = some (events, t') ∧ t'.book.Repr ps' none ∧
      (t'.book.view ps').Fits ∧ (t'.book.view ps').Summed ∧
      (t.book.view ps).replica.applyAll events = (t'.book.view ps').replica ∧
      ∀ es, es <+: events → ∀ loc, ((t.book.view ps).replica.applyAll es).sum loc < 2 ^ 63 := by
  obtain ⟨events, t', ps', hd, hr', hf', hnames, hread⟩ := dispatch_names hr hf hfit
  obtain ⟨events₁, t₁, ps₁, hd₁, hr₁, hs₁, hrests⟩ := dispatch_summed hr hs hsum
  obtain ⟨rfl, rfl⟩ := Prod.mk.inj (Option.some.inj (hd.symm.trans hd₁))
  -- The two listings of the book have the same orders on each level.
  have hperm := (hr'.resting_perm hf'.wf).symm.trans (hr₁.resting_perm hs₁.wf)
  have hs' : (t'.book.view ps').Summed :=
    ⟨hf'.wf, fun s i => (((hperm.filter _).map _).sum_eq).trans_lt (hs₁.fits s i)⟩
  refine ⟨events, t', ps', hd, hr', hf', hs', hread, fun es hes loc => ?_⟩
  rcases hes.length_le.eq_or_lt with hlen | hlen
  · rw [hes.eq_of_length hlen, hread]
    exact hs'.replica_sum_lt loc
  · have hes' : es <+: events.dropLast := List.prefix_of_prefix_length_le hes
      (List.dropLast_prefix _) (by rw [List.length_dropLast]; omega)
    obtain ⟨rest, rfl⟩ := hes
    refine lt_of_le_of_lt ?_ (hs.replica_sum_lt loc)
    exact (Replica.namesAll_append.1 hnames).1.sum_le hf.sound
      (fun e he => hrests e (hes'.subset he)) loc

theorem run_sums (hr : t.book.Repr ps none) (hf : (t.book.view ps).Fits)
    (hs : (t.book.view ps).Summed) (hfits : t.runFits cmds = true)
    (hsums : t.runSums cmds = true) (hrun : t.run cmds = some (events, t')) :
    ∀ es, es <+: events → ∀ loc, ((t.book.view ps).replica.applyAll es).sum loc < 2 ^ 63 := by
  induction cmds generalizing t ps events with
  | nil =>
    obtain ⟨rfl, -⟩ := Prod.mk.inj (Option.some.inj hrun)
    intro es hes loc
    rw [List.prefix_nil.1 hes]
    exact hs.replica_sum_lt loc
  | cons cmd cmds ih =>
    rw [runFits, Bool.and_eq_true, Bool.not_eq_true'] at hfits
    rw [runSums, Bool.and_eq_true] at hsums
    obtain ⟨events₁, t₁, ps₁, hd, hr₁, hf₁, hs₁, hread, hfirst⟩ :=
      dispatch_sums hr hf hs hfits.1 hsums.1
    have hfits₁ := hfits.2
    have hsums₁ := hsums.2
    rw [hd, Option.all_some] at hfits₁ hsums₁
    rw [run, hd] at hrun
    change (t₁.run cmds).bind _ = _ at hrun
    obtain ⟨⟨events₂, t₂⟩, hrun₂, heq⟩ := Option.bind_eq_some_iff.1 hrun
    obtain ⟨rfl, rfl⟩ := Prod.mk.inj (Option.some.inj heq)
    intro es hes loc
    rcases List.prefix_or_prefix_of_prefix hes (List.prefix_append events₁ events₂) with h | h
    · exact hfirst es h loc
    · obtain ⟨rest, rfl⟩ := h
      rw [Replica.applyAll_append, hread]
      exact ih hr₁ hf₁ hs₁ hfits₁ hsums₁ hrun₂ rest ((List.prefix_append_right_inj _).1 hes) loc

end MatchingThread

/-! ## The four sums -/

/-- The feed of these events adds up as one would with integers, after each of them: the mirror's
level totals, and the levels of a ladder that started with a burst `m` after some of the events and
heard the messages from any one of these on. In the end they are those of the book. -/
structure FeedAddsUp (instrumentId : UInt32) (events : List OutboundEvent) (b : OrderBook) :
    Prop where
  mirror : ∀ es, es <+: events → ∀ loc : Location,
    (BookMirror.empty.applyAll es).levelTotal loc.side loc.price =
      (BookMirror.empty.applyAll es).levelSum loc
  ladder : ∀ es es', es ++ es' <+: events → ∀ m r, BookMirror.Mirrors m r →
    r.orders.Perm (Replica.empty.applyAll es).orders → ∀ (l : Ladder) (n : Nat),
    n ≤ ((Publisher.start instrumentId).pump es).2.length → ∀ loc : Location,
    (l.joined instrumentId m (es ++ es') n).level loc = aggregate
      (restingAt loc.side loc.price (Replica.empty.applyAll (es ++ es')).orders)
  last : ∀ loc : Location, (BookMirror.empty.applyAll events).levelSum loc = b.levelSum loc ∧
    aggregate (restingAt loc.side loc.price (Replica.empty.applyAll events).orders) =
      b.levelAgg loc

theorem feedAddsUp_of_sums {instrumentId : UInt32} {events : List OutboundEvent} {b : OrderBook}
    (hnames : Replica.empty.NamesAll events)
    (hend : (Replica.empty.applyAll events).orders.Perm b.resting)
    (hsums : ∀ es, es <+: events → ∀ loc, (Replica.empty.applyAll es).sum loc < 2 ^ 63) :
    FeedAddsUp instrumentId events b where
  mirror := fun es hes loc => by
    have hfits := hsums es hes loc
    obtain ⟨rest, rfl⟩ := hes
    have hes := (Replica.namesAll_append.1 hnames).1
    exact (hes.mirrors BookMirror.mirrors_empty).levelTotal_eq_levelSum
      (hes.sound Replica.sound_empty) hfits
  ladder := fun es es' hes m r hm hperm l n hn => by
    have hfits := hsums _ hes
    obtain ⟨rest, rfl⟩ := hes
    exact (Ladder.joined_iff l instrumentId (Replica.namesAll_append.1 hnames).1 hm hperm hn).2 hfits
  last := fun loc => by
    rw [(hnames.mirrors BookMirror.mirrors_empty).levelSum_eq]
    exact ⟨((hend.filter _).map _).sum_eq, aggregate_perm (hend.filter _)⟩

/-- **All quantities add up** in every run whose levels can take their orders. -/
theorem run_sums_exact {cfg : BookConfig} {b : OrderBook} (hb : OrderBook.create cfg = some b)
    (cmds : List Command) (hsums : (⟨b, 0⟩ : MatchingThread).runSums cmds = true)
    (instrumentId : UInt32) :
    ∃ events t, (⟨b, 0⟩ : MatchingThread).run cmds = some (events, t) ∧ t.book.AddsUp ∧
      ((⟨b, 0⟩ : MatchingThread).runFits cmds = true →
        FeedAddsUp instrumentId events t.book) := by
  obtain ⟨hr₀, hview₀⟩ := OrderBook.repr_create hb
  have hs₀ : (b.view []).Summed := by
    rw [hview₀]
    exact (OrderBook.emptyView_tracked cfg).summed
  have hf₀ : (b.view []).Fits := by
    rw [hview₀]
    exact OrderBook.fits_emptyView _
  have hstart : (b.view []).replica = Replica.empty := by
    rw [hview₀]
    rfl
  obtain ⟨events, t, ps, hrun, hr, hs⟩ :=
    MatchingThread.run_summed (t := ⟨b, 0⟩) hr₀ hs₀ hsums
  refine ⟨events, t, hrun, hr.addsUp hs, fun hfits => ?_⟩
  obtain ⟨events', t', ps', hrun', hr', hf', hnames, hread⟩ :=
    MatchingThread.run_names (t := ⟨b, 0⟩) hr₀ hf₀ hfits
  obtain ⟨rfl, rfl⟩ := Prod.mk.inj (Option.some.inj (hrun.symm.trans hrun'))
  have hall := MatchingThread.run_sums (t := ⟨b, 0⟩) hr₀ hf₀ hs₀ hfits hsums hrun
  rw [hstart] at hnames hread hall
  refine feedAddsUp_of_sums hnames ?_ hall
  rw [hread]
  exact (hr'.resting_perm hf'.wf).symm

/-- Two sells of 5 at 110, and a fill-or-kill buy of 7. -/
theorem run_sums_exact_smallConfig : ∃ b events t,
    OrderBook.create OrderBook.smallConfig = some b ∧
    (⟨b, 0⟩ : MatchingThread).run [⟨1, 0, 110, 5, 1, 0, .sell, .limit, 0⟩,
      ⟨2, 0, 110, 5, 1, 0, .sell, .limit, 0⟩, ⟨3, 0, 110, 7, 2, 0, .buy, .fok, 0⟩] =
        some (events, t) ∧ t.book.AddsUp ∧ FeedAddsUp 1 events t.book := by
  have hb := OrderBook.create_smallConfig
  obtain ⟨events, t, hrun, hbook, hfeed⟩ := run_sums_exact hb
    [⟨1, 0, 110, 5, 1, 0, .sell, .limit, 0⟩, ⟨2, 0, 110, 5, 1, 0, .sell, .limit, 0⟩,
      ⟨3, 0, 110, 7, 2, 0, .buy, .fok, 0⟩] (by decide +kernel) 1
  exact ⟨_, events, t, hb, hrun, hbook, hfeed (by decide +kernel)⟩

/-- A sell of 5 and one of `2 ^ 63 - 2` at one price: the level's total, the mirror's and the
ladder's are negative, and a fill-or-kill buy of `2 ^ 63 - 1` is refused although more rests. -/
theorem sums_wrap_around :
    ((OrderBook.create OrderBook.smallConfig).bind fun b =>
      ((⟨b, 0⟩ : MatchingThread).run [⟨1, 0, 110, 5, 1, 0, .sell, .limit, 0⟩,
        ⟨2, 0, 110, 2 ^ 63 - 2, 1, 0, .sell, .limit, 0⟩]).map fun st =>
          ((((st.2.book.sideOf .sell).levels 1).totalQty, st.2.book.slotSum .sell 1),
            ((BookMirror.empty.applyAll st.1).levelTotal .sell 110,
              (BookMirror.empty.applyAll st.1).levelSum ⟨.sell, 110⟩),
            (Ladder.empty.joined 1 .empty st.1 0).level ⟨.sell, 110⟩)) =
      some ((-2 ^ 63 + 3, 2 ^ 63 + 3), (-2 ^ 63 + 3, 2 ^ 63 + 3), some ⟨-2 ^ 63 + 3, 2⟩) ∧
    ((OrderBook.create OrderBook.smallConfig).bind fun b =>
      ((⟨b, 0⟩ : MatchingThread).run [⟨1, 0, 110, 5, 1, 0, .sell, .limit, 0⟩,
        ⟨2, 0, 110, 2 ^ 63 - 2, 1, 0, .sell, .limit, 0⟩]).bind fun st =>
          (st.2.book.submitEx ⟨3, 110, 2 ^ 63 - 1, 2, .buy, .fok⟩ (.empty 4)).map fun done =>
            (done.1.status, st.2.book.availableAgainst ⟨3, 110, 2 ^ 63 - 1, 2, .buy, .fok⟩,
              st.2.book.availableWith (· + ·) ⟨3, 110, 2 ^ 63 - 1, 2, .buy, .fok⟩)) =
      some (.rejectedFokUnfillable, some (-2 ^ 63 + 3), some (2 ^ 63 + 3)) := by
  constructor <;> decide +kernel

end Velox
