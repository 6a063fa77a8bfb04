import Velox.Viz.Ladder

/-!
# A subscriber who joins late

Following `emitSnapshotBurst` of `marketdata/publisher.hpp` and its installation in
`apps/velox_gateway.cpp`. A subscriber joins when the journal holds the commands `early`: it is sent
the burst of the book recovered from them, and then every message that is broadcast later. The
broadcast is behind the journal, so that the first of these messages, number `n`, may come from any
event of `early`: the deltas after it are heard a second time, on top of a burst that covers them.

The ladder converges (`late_ladder_iff`): deltas carry totals, not differences, and a level that no
later delta is about has not changed since the burst. The only thing that can go wrong is a level
whose total does not fit into 64 bits.
-/

namespace Velox

namespace MatchingThread

theorem runFits_append (t : MatchingThread) (xs ys : List Command) :
    t.runFits (xs ++ ys) = (t.runFits xs && (t.run xs).all fun st => st.2.runFits ys) := by
  induction xs generalizing t with
  | nil => simp [runFits, run]
  | cons x xs ih =>
    rw [List.cons_append, runFits, runFits, run]
    cases t.dispatch x with
    | none => simp
    | some st =>
      rw [Option.all_some, Option.all_some, ih, Bool.and_assoc]
      change _ = (!t.overflows x && (st.2.runFits xs && ((st.2.run xs).bind _).all _))
      cases st.2.run xs <;> simp

end MatchingThread

namespace OrderBook

/-- A heap with the queues of a book whose best prices are exact. -/
theorem SameView.sharp {b b' : OrderBook} {ps' : List Ptr} (h : b.SameView b')
    (hr' : b'.Repr ps' none) (hs : (b'.view ps').Sharp) :
    ∃ ps, b.Repr ps none ∧ (b.view ps).Sharp ∧ (b.view ps).orders.Perm (b'.view ps').orders := by
  obtain ⟨ps, qs, hr, hr₁, hw, hview⟩ := h
  -- The two listings of the second heap differ in their order only.
  have hperm : (b.view ps).orders.Perm (b'.view ps').orders := by
    rw [hview]
    exact (hr₁.resting_perm (hview ▸ hw)).symm.trans (hr'.resting_perm hs.wf)
  have hcfg : (b.view ps).cfg = (b'.view ps').cfg := by
    rw [hview]
    rfl
  have hbest : ∀ s, (b.view ps).best s = (b'.view ps').best s := by
    intro s
    rw [hview]
    cases s <;> rfl
  refine ⟨ps, hr, ⟨hw, fun x hx => ?_, fun x hx => hs.visible x (hperm.mem_iff.1 hx), fun s => ?_⟩,
    hperm⟩
  · rw [hcfg]
    exact hs.onGrid x (hperm.mem_iff.1 hx)
  · rw [hbest]
    refine (hs.exact s).imp_right fun ⟨x, hx, hside, hprice⟩ => ⟨x, hperm.mem_iff.2 hx, hside, hprice⟩

end OrderBook

/-! ## What the book shows -/

/-- A level of the book; none if it is empty. -/
def OrderBook.levelAgg (b : OrderBook) (loc : Location) : Option LevelAgg :=
  aggregate (restingAt loc.side loc.price b.resting)

/-- What remains on a level of the book. -/
def OrderBook.levelSum (b : OrderBook) (loc : Location) : Int :=
  ((restingAt loc.side loc.price b.resting).map RestingOrder.remaining).sum

section Aggregate

variable {r : Replica} {loc : Location} {xs : List RestingOrder}

theorem sum_remaining_pos (h : ∀ x ∈ xs, 0 < x.remaining) (hne : xs ≠ []) :
    0 < (xs.map RestingOrder.remaining).sum := by
  refine List.sum_pos _ (fun n hn => ?_) (by simpa using hne)
  obtain ⟨x, hx, rfl⟩ := List.mem_map.1 hn
  exact h x hx

/-- If the total fits, deltas and bursts show it. -/
theorem Replica.Sound.shown_eq (hr : r.Sound)
    (h : ((restingAt loc.side loc.price r.orders).map RestingOrder.remaining).sum < 2 ^ 63) :
    r.shown loc = aggregate (restingAt loc.side loc.price r.orders) ∧
      burstAgg (restingAt loc.side loc.price r.orders) =
        aggregate (restingAt loc.side loc.price r.orders) := by
  by_cases hnil : restingAt loc.side loc.price r.orders = []
  · rw [Replica.shown, Replica.total, hnil]
    exact ⟨rfl, rfl⟩
  · have hpos := sum_remaining_pos
      (fun x hx => (hr.remaining x (mem_restingAt.1 hx).1).1) hnil
    have hwrap := wrap64_of_fits (by omega) h
    rw [Replica.shown, Replica.total, hwrap, if_neg hpos.ne', burstAgg, aggregate, if_neg hnil,
      Option.map_some, hwrap]
    exact ⟨rfl, rfl⟩

end Aggregate

/-! ## Convergence -/

namespace Ladder

open Replay Publisher

/-- What the subscriber has read in the end: the burst, and the messages from number `n` on. -/
def joined (l : Ladder) (instrumentId : UInt32) (m : BookMirror) (events : List OutboundEvent)
    (n : Nat) : Ladder :=
  l.readAll (BookMirror.emitSnapshotBurst instrumentId m ++
    ((start instrumentId).pump events).2.drop n)

section Joined

variable {r : Replica} {m : BookMirror} {es es' : List OutboundEvent}

/-- The ladder as a log of assignments on top of the burst. -/
theorem level_joined (l : Ladder) (instrumentId : UInt32)
    (hm : m.Mirrors r) (events : List OutboundEvent) (n : Nat) :
    (l.joined instrumentId m events n).level =
      replay (fun loc => burstAgg (restingAt loc.side loc.price r.orders))
        (assignments (((start instrumentId).pump events).2.drop n)) := by
  obtain ⟨hburst, hlevel⟩ := l.level_burst instrumentId hm
  rw [joined, readAll, List.foldl_append]
  refine (level_readAll hburst fun msg hmsg => pump_live _ _ msg (List.mem_of_mem_drop hmsg)).trans ?_
  exact congrArg (replay · _) (funext hlevel)

/-- **The ladder and the levels in the end.** The mirror of the burst holds the book after `es`; the
messages from any one of `es` on follow. -/
theorem joined_iff (l : Ladder) (instrumentId : UInt32) (hes : Replica.empty.NamesAll (es ++ es'))
    (hm : m.Mirrors r) (hr : r.orders.Perm (Replica.empty.applyAll es).orders) {n : Nat}
    (hn : n ≤ ((start instrumentId).pump es).2.length) :
    (∀ loc, (l.joined instrumentId m (es ++ es') n).level loc =
      aggregate (restingAt loc.side loc.price (Replica.empty.applyAll (es ++ es')).orders)) ↔
    ∀ loc : Location, ((restingAt loc.side loc.price
      (Replica.empty.applyAll (es ++ es')).orders).map RestingOrder.remaining).sum < 2 ^ 63 := by
  obtain ⟨hes₁, hes₂⟩ := Replica.namesAll_append.1 hes
  have hsound₁ := hes₁.sound Replica.sound_empty
  have hsound₂ := hes.sound Replica.sound_empty
  have hsync := (synced_start instrumentId).pump hes₁
  obtain ⟨hshown₁, -, hqty₁⟩ := (synced_start instrumentId).pump_shown Replica.sound_empty hes₁
  obtain ⟨hshown₂, hlevels₂, hqty₂⟩ := hsync.pump_shown hsound₁ hes₂
  have hmsgs : ((start instrumentId).pump (es ++ es')).2.drop n =
      ((start instrumentId).pump es).2.drop n ++
        (((start instrumentId).pump es).1.pump es').2 := by
    rw [pump_append, List.drop_append_of_le_length hn]
  have hburst : ∀ loc : Location, burstAgg (restingAt loc.side loc.price r.orders) =
      burstAgg (restingAt loc.side loc.price (Replica.empty.applyAll es).orders) :=
    fun loc => burstAgg_perm (hr.filter _)
  rw [level_joined l instrumentId hm, hmsgs, assignments_append, funext hburst]
  constructor
  · -- Whatever the ladder shows is a 64-bit value.
    intro hall loc
    by_cases hnil : restingAt loc.side loc.price (Replica.empty.applyAll (es ++ es')).orders = []
    · rw [hnil]
      norm_num
    · have hlt := replay_forall (P := fun v : Option LevelAgg => ∀ agg ∈ v, agg.qty < 2 ^ 63)
        (σ := fun loc => burstAgg (restingAt loc.side loc.price (Replica.empty.applyAll es).orders))
        (B := assignments (((start instrumentId).pump es).2.drop n) ++
          assignments (((start instrumentId).pump es).1.pump es').2)
        (fun k agg hagg => burstAgg_lt hagg)
        (List.forall_mem_append.2 ⟨fun a ha => hqty₁ a (mem_assignments_of_drop ha), hqty₂⟩) loc
      rw [hall, aggregate, if_neg hnil] at hlt
      exact hlt _ rfl
  · intro hfit loc
    rw [← (hsound₂.shown_eq (hfit loc)).1, Replica.applyAll_append, hshown₂, hshown₁,
      ← replay_append, ← List.take_append_drop n ((start instrumentId).pump es).2,
      assignments_append, List.take_append_drop]
    refine congrFun (replay_late fun k hk => ?_) loc
    -- Nothing more is said about this level: it is as it was when the burst was taken.
    rw [List.forall_mem_append] at hk
    have hsame := hlevels₂ k hk.2
    rw [← assignments_append, List.take_append_drop, ← hshown₁]
    have hfit₁ := hfit k
    rw [Replica.applyAll_append, hsame] at hfit₁
    obtain ⟨h₁, h₂⟩ := hsound₁.shown_eq hfit₁
    rw [h₁, h₂]

end Joined

/-- **A late subscriber's ladder** shows the levels of the matching book in the end, exactly if their
totals fit into 64 bits. The subscriber joins when the journal holds `early`; `shadow` is a book
recovered from it. -/
theorem late_ladder_iff {b : OrderBook} (hb : OrderBook.create gatewayConfig = some b)
    (instrumentId : UInt32) {early late : List Command}
    (hgrid : ∀ cmd ∈ early ++ late, cmd.submission.OnGrid gatewayConfig)
    (hfits : (⟨b, 0⟩ : MatchingThread).runFits (early ++ late) = true) :
    ∃ events t events' t', (⟨b, 0⟩ : MatchingThread).run early = some (events, t) ∧
      t.run late = some (events', t') ∧
      ∀ shadow, shadow.SameView t.book → ∃ m, BookMirror.loadMirrorFromBook shadow = some m ∧
        ∀ (l : Ladder) (n : Nat), n ≤ ((start instrumentId).pump events).2.length →
          ((∀ loc, (l.joined instrumentId m (events ++ events') n).level loc =
              t'.book.levelAgg loc) ↔
            ∀ loc, t'.book.levelSum loc < 2 ^ 63) := by
  obtain ⟨hr₀, hview₀⟩ := OrderBook.repr_create hb
  have hcfg : b.cfg = gatewayConfig := congrArg QueueBook.cfg hview₀
  have hf₀ : (b.view []).Fits := by
    rw [hview₀]
    exact OrderBook.fits_emptyView _
  rw [MatchingThread.runFits_append, Bool.and_eq_true] at hfits
  -- The commands up to the moment of joining, and those after it.
  obtain ⟨events, t, ps, hrun, hr, hf, hnames, hread⟩ :=
    MatchingThread.run_names (t := ⟨b, 0⟩) hr₀ hf₀ hfits.1
  have hlate := hfits.2
  rw [hrun, Option.all_some] at hlate
  obtain ⟨events', t', ps', hrun', hr', hf', hnames', hread'⟩ := t.run_names hr hf hlate
  have hstart : (b.view []).replica = Replica.empty := by
    rw [hview₀]
    rfl
  rw [hstart] at hnames hread
  rw [← hread] at hnames' hread'
  -- On the grid the best prices are exact, so that the walk of the recovered book is complete.
  have haligned : ∀ cmd ∈ early, cmd.submission.Aligned b.cfg := by
    intro cmd hcmd
    rw [hcfg]
    exact (hgrid cmd (List.mem_append_left _ hcmd)).aligned
  obtain ⟨events₁, t₁, hrun₁, ps₁, hr₁, hs₁, -, -⟩ :=
    (BookMirror.follows_create hb).run (t := ⟨b, 0⟩) haligned hfits.1
  obtain ⟨-, rfl⟩ : events = events₁ ∧ t = t₁ :=
    Prod.mk.inj (Option.some.inj (hrun.symm.trans hrun₁))
  refine ⟨events, t, events', t', hrun, hrun', fun shadow hshadow => ?_⟩
  obtain ⟨qs, hrs, hss, hperm⟩ := hshadow.sharp hr₁ hs₁
  obtain ⟨m, hload, hm⟩ := BookMirror.loadMirrorFromBook_mirrors hrs hss.wf hss.inSight
  refine ⟨m, hload, fun l n hn => ?_⟩
  have hburst : (shadow.view qs).replica.orders.Perm (Replica.empty.applyAll events).orders := by
    rw [hread]
    exact hperm.trans ((hr₁.resting_perm hs₁.wf).symm.trans (hr.resting_perm hf.wf))
  have hend : (Replica.empty.applyAll (events ++ events')).orders.Perm t'.book.resting := by
    rw [Replica.applyAll_append, hread']
    exact (hr'.resting_perm hf'.wf).symm
  have hiff := joined_iff l instrumentId (Replica.namesAll_append.2 ⟨hnames, hnames'⟩) hm hburst hn
  have hagg : ∀ loc : Location, aggregate (restingAt loc.side loc.price
      (Replica.empty.applyAll (events ++ events')).orders) = t'.book.levelAgg loc :=
    fun loc => aggregate_perm (hend.filter _)
  have hsum : ∀ loc : Location, ((restingAt loc.side loc.price
      (Replica.empty.applyAll (events ++ events')).orders).map RestingOrder.remaining).sum =
      t'.book.levelSum loc := fun loc => ((hend.filter _).map _).sum_eq
  simpa only [hagg, hsum] using hiff

/-- A sell of 5 at 1.01, as it is in the journal when the subscriber joins, and a buy of 2 of it. -/
theorem late_ladder_iff_gatewayBook : ∃ events t events' t',
    (⟨gatewayBook, 0⟩ : MatchingThread).run [⟨1, 0, 10100, 5, 1, 0, .sell, .limit, 0⟩] =
      some (events, t) ∧
    t.run [⟨2, 0, 10100, 2, 2, 0, .buy, .limit, 0⟩] = some (events', t') ∧
    ∀ shadow, shadow.SameView t.book → ∃ m, BookMirror.loadMirrorFromBook shadow = some m ∧
      ∀ (l : Ladder) (n : Nat), n ≤ ((start 1).pump events).2.length →
        ((∀ loc, (l.joined 1 m (events ++ events') n).level loc = t'.book.levelAgg loc) ↔
          ∀ loc, t'.book.levelSum loc < 2 ^ 63) :=
  late_ladder_iff (Option.some_get _).symm 1 (by decide +kernel) (by decide +kernel)

/-- Two sells of `2 ^ 63 - 1` at one price: the ladder shows a total of -2. -/
theorem ladder_total_overflows : ∃ events t m,
    (⟨gatewayBook, 0⟩ : MatchingThread).run
      [⟨1, 0, 10100, 2 ^ 63 - 1, 1, 0, .sell, .limit, 0⟩,
        ⟨2, 0, 10100, 2 ^ 63 - 1, 1, 0, .sell, .limit, 0⟩] = some (events, t) ∧
      BookMirror.loadMirrorFromBook t.book = some m ∧
      (empty.joined 1 m events 0).level ⟨.sell, 10100⟩ = some ⟨-2, 2⟩ ∧
      t.book.levelAgg ⟨.sell, 10100⟩ = some ⟨2 ^ 64 - 2, 2⟩ := by
  obtain ⟨cmds, hcmds⟩ : ∃ cmds : List Command, cmds =
    [⟨1, 0, 10100, 2 ^ 63 - 1, 1, 0, .sell, .limit, 0⟩,
      ⟨2, 0, 10100, 2 ^ 63 - 1, 1, 0, .sell, .limit, 0⟩] := ⟨_, rfl⟩
  rw [← hcmds]
  have hshown : ((⟨gatewayBook, 0⟩ : MatchingThread).run cmds).bind (fun st =>
      (BookMirror.loadMirrorFromBook st.2.book).map fun m =>
        (aggregate (restingAt .sell 10100 (Replica.empty.applyAll st.1).orders),
          (empty.joined 1 m st.1 0).level ⟨.sell, 10100⟩)) =
      some (some ⟨2 ^ 64 - 2, 2⟩, some ⟨-2, 2⟩) := by
    rw [hcmds]
    decide +kernel
  have hfits : (⟨gatewayBook, 0⟩ : MatchingThread).runFits cmds = true := by
    rw [hcmds]
    decide +kernel
  obtain ⟨⟨events, t⟩, hrun, hm⟩ := Option.bind_eq_some_iff.1 hshown
  obtain ⟨m, hload, hm⟩ := Option.map_eq_some_iff.1 hm
  obtain ⟨hbook, hladder⟩ := Prod.mk.inj hm
  refine ⟨events, t, m, hrun, hload, hladder, ?_⟩
  -- The orders of the book are those that the events tell of.
  obtain ⟨hr₀, hview₀⟩ := OrderBook.repr_create (b := gatewayBook) (Option.some_get _).symm
  obtain ⟨events', t', ps, hrun', hr, hf, -, hread⟩ := MatchingThread.run_names
    (t := ⟨gatewayBook, 0⟩) hr₀ (by rw [hview₀]; exact OrderBook.fits_emptyView _) hfits
  obtain ⟨rfl, rfl⟩ := Prod.mk.inj (Option.some.inj (hrun.symm.trans hrun'))
  rw [hview₀] at hread
  rw [OrderBook.levelAgg, ← hbook]
  refine aggregate_perm ((hr.resting_perm hf.wf).filter _ |>.trans ?_)
  exact List.Perm.of_eq (congrArg (fun r : Replica => restingAt .sell 10100 r.orders) hread.symm)

end Ladder

end Velox
