import Velox.Engine.Prescan

/-!
# The work of the match loop

How often the bodies of the two loops of `matchInto` run. The counted loops are the loops of the
source with a counter each (`matchIntoCounted_erase`). The inner body makes a trade, removes a
victim or ends the matching. The outer body leaves its level empty, or is the last one; and a level that
was empty to begin with is met at most once, because `onLevelEmptied` moves the best price to an
occupied level (`Fresh`).

* `matchLevelCounted_spec` — the inner loop.
* `matchInto_work` — the bounds.
-/

namespace Velox

namespace QueueBook

variable {q q' q'' : QueueBook} {o : NewOrder} {s : Side} {p : Int}

/-- Nothing has been added to an empty level. -/
structure Shrinks (q q' : QueueBook) : Prop where
  cfg : q'.cfg = q.cfg
  queue : ∀ s i, q.queue s i = [] → q'.queue s i = []

theorem Shrinks.refl (q : QueueBook) : q.Shrinks q := ⟨rfl, fun _ _ h => h⟩

theorem Shrinks.trans (h : q.Shrinks q') (h' : q'.Shrinks q'') : q.Shrinks q'' :=
  ⟨h'.cfg.trans h.cfg, fun s i hq => h'.queue s i (h.queue s i hq)⟩

theorem shrinks_of_orders (hc : q'.cfg = q.cfg) (ho : q'.orders = q.orders) : q.Shrinks q' :=
  ⟨hc, fun s i h => (queue_congr hc ho s i).trans h⟩

theorem shrinks_remove (q : QueueBook) (id : Int) : q.Shrinks (q.remove id) := by
  refine ⟨rfl, fun s i h => ?_⟩
  rw [remove_queue, h, List.filter_nil]

theorem shrinks_fill (q : QueueBook) (x : RestingOrder) (n : Int) :
    q.Shrinks (q.bumpTradeId.fill x n) := by
  refine ⟨fill_cfg .., fun s i h => ?_⟩
  have hbump : q.bumpTradeId.queue s i = [] := h
  rw [fill]
  split
  · exact (shrinks_remove _ _).queue s i hbump
  · rw [reduce_queue, hbump, List.map_nil]

theorem shrinks_settle (q : QueueBook) (s : Side) (p : Int) : q.Shrinks (q.settle s p) :=
  shrinks_of_orders (settle_cfg ..) (settle_orders ..)

theorem shrinks_afterVictim (q : QueueBook) (o : NewOrder) (x : RestingOrder) :
    q.Shrinks (q.afterVictim o x) :=
  Shrinks.trans (shrinks_remove q _) (shrinks_settle _ _ _)

/-- The best price is not that of an empty level. -/
def Fresh (q : QueueBook) (s : Side) : Prop :=
  q.best s = emptySentinel s ∨ q.queue s (q.cfg.slot (q.best s)) ≠ []

/-- Once its level has been reported, the best price is that of an occupied level. -/
theorem fresh_levelEmptied (hp : p = q.best s) : (q.levelEmptied s p).Fresh s := by
  rcases q.best_levelEmptied hp with h | ⟨j, h, -, hocc⟩
  · exact .inl h
  · refine .inr ?_
    rw [h, levelEmptied_cfg, BookConfig.slot_slotPrice,
      queue_congr (levelEmptied_cfg ..) (levelEmptied_orders ..)]
    exact hocc

end QueueBook

namespace OrderBook

/-! ## The loops with counters -/

/-- The inner loop, with the number of times its body runs. -/
def matchLevelCounted (o : NewOrder) (bestOpp : Int) (i : Nat) :
    Nat → MatchState → Option (Nat × Bool × MatchState)
  | 0, _ => none
  | fuel + 1, st =>
    if 0 < st.remaining then
      match ((st.book.sideOf o.side.opposite).levels i).head with
      | none => some (0, false, st)
      | some p =>
        if (st.book.heap p).participant = o.participant then
          match st.book.cfg.stp with
          | .cancelAggressor => some (1, true, st)
          | .cancelPassive => do
            let st ← removeVictim o bestOpp i p st
            let (n, res) ← matchLevelCounted o bestOpp i fuel st
            some (n + 1, res)
          | .cancelBoth => do
            let st ← removeVictim o bestOpp i p st
            some (1, true, st)
        else do
          let st ← trade o i p st
          let (n, res) ← matchLevelCounted o bestOpp i fuel st
          some (n + 1, res)
    else
      some (0, false, st)

/-- How often the two bodies have run. -/
structure Work where
  outer : Nat
  inner : Nat

def matchLoopCounted (o : NewOrder) : Nat → MatchState → Option (Work × MatchOutcome × MatchState)
  | 0, _ => none
  | fuel + 1, st =>
    let s := o.side.opposite
    let opposite := st.book.sideOf s
    if 0 < st.remaining ∧ opposite.hasBest = true then
      let bestOpp := opposite.best
      if crosses o.type o.side o.price bestOpp then do
        let i ← opposite.levelAt bestOpp
        let (n, stp, st) ← matchLevelCounted o bestOpp i (st.book.pool.inUse + 1) st
        if stp then
          some (⟨1, n⟩, .stpFired, st)
        else do
          let b := if st.book.levelIsEmpty s i then st.book.levelEmptied s bestOpp else st.book
          let (work, res) ← matchLoopCounted o fuel { st with book := b }
          some (⟨work.outer + 1, work.inner + n⟩, res)
      else
        some (⟨1, 0⟩, .noLongerCrosses, st)
    else
      some (⟨0, 0⟩, .exhausted, st)

def matchIntoCounted (b : OrderBook) (o : NewOrder) (out : Sinks) (remaining : Int) :
    Option (Work × MatchOutcome × MatchState) :=
  matchLoopCounted o (b.bids.numSlots + 2) ⟨b, out, remaining⟩

variable {b b' b₁ : OrderBook} {ps ps' ps₁ : List Ptr} {o : NewOrder} {rem rem₁ price : Int}
  {i n : Nat} {stp : Bool} {ts ts₀ : List Trade} {vs vs₀ : List StpVictim}

theorem matchLevelCounted_erase (fuel : Nat) (st : MatchState) :
    (matchLevelCounted o price i fuel st).map Prod.snd = matchLevel o price i fuel st := by
  induction fuel generalizing st with
  | zero => rfl
  | succ fuel ih =>
    have hnext : ∀ st, ((matchLevelCounted o price i fuel st).bind fun done =>
        some (done.1 + 1, done.2)).map Prod.snd = matchLevel o price i fuel st := by
      intro st
      rw [← ih]
      cases matchLevelCounted o price i fuel st <;> rfl
    rw [matchLevelCounted, matchLevel]
    by_cases hrem : 0 < st.remaining
    · rw [if_pos hrem, if_pos hrem]
      cases ((st.book.sideOf o.side.opposite).levels i).head with
      | none => rfl
      | some p =>
        by_cases hp : (st.book.heap p).participant = o.participant
        · simp only [if_pos hp]
          cases st.book.cfg.stp with
          | cancelAggressor => rfl
          | cancelPassive =>
            simp only [Option.bind_eq_bind, Option.map_bind]
            exact Option.bind_congr fun st _ => hnext st
          | cancelBoth =>
            simp only [Option.bind_eq_bind, Option.map_bind]
            rfl
        · simp only [if_neg hp, Option.bind_eq_bind, Option.map_bind]
          exact Option.bind_congr fun st _ => hnext st
    · rw [if_neg hrem, if_neg hrem]
      rfl

theorem matchLoopCounted_erase (fuel : Nat) (st : MatchState) :
    (matchLoopCounted o fuel st).map Prod.snd = matchLoop o fuel st := by
  induction fuel generalizing st with
  | zero => rfl
  | succ fuel ih =>
    simp only [matchLoopCounted, matchLoop]
    split
    · split
      · simp only [Option.bind_eq_bind, Option.map_bind, ← matchLevelCounted_erase,
          Option.bind_map, Function.comp_def]
        refine Option.bind_congr fun i _ => Option.bind_congr fun done _ => ?_
        split
        · rfl
        · rw [← ih]
          cases matchLoopCounted o fuel _ <;> rfl
      · rfl
    · rfl

theorem matchIntoCounted_erase (b : OrderBook) (o : NewOrder) (out : Sinks) (rem : Int) :
    (b.matchIntoCounted o out rem).map Prod.snd = b.matchInto o out rem :=
  matchLoopCounted_erase ..

/-! ## The inner loop -/

/-- What the inner loop costs from the book `b` on, and where it leaves the level it looks at. -/
structure LevelWork (o : NewOrder) (b : OrderBook) (ps : List Ptr) (price : Int) (i n : Nat)
    (stp : Bool) (b₁ : OrderBook) (ps₁ : List Ptr) (rem₁ : Int) (ts : List Trade)
    (vs : List StpVictim) : Prop where
  bodies : n ≤ ts.length + vs.length + if stp = true then 1 else 0
  stopped : stp = true → b₁.Repr ps₁ none ∧ (b.view ps).Shrinks (b₁.view ps₁)
  repr : stp = false → (b₁.afterLevel o.side.opposite i price).Repr ps₁ none
  wf : stp = false → ((b₁.afterLevel o.side.opposite i price).view ps₁).Wf
  shrinks : stp = false →
    (b.view ps).Shrinks ((b₁.afterLevel o.side.opposite i price).view ps₁)
  moved : stp = false → 0 < rem₁ →
    ((b₁.afterLevel o.side.opposite i price).view ps₁).queue o.side.opposite i = [] ∧
    ((b₁.afterLevel o.side.opposite i price).view ps₁).Fresh o.side.opposite

/-- One more run of the body, before. -/
theorem LevelWork.cons (h : LevelWork o b' ps' price i n stp b₁ ps₁ rem₁ ts vs)
    (hshrinks : (b.view ps).Shrinks (b'.view ps')) (hone : ts₀.length + vs₀.length = 1) :
    LevelWork o b ps price i (n + 1) stp b₁ ps₁ rem₁ (ts₀ ++ ts) (vs₀ ++ vs) where
  bodies := by
    have := h.bodies
    rw [List.length_append, List.length_append]
    omega
  stopped hstp := ⟨(h.stopped hstp).1, hshrinks.trans (h.stopped hstp).2⟩
  repr := h.repr
  wf := h.wf
  shrinks hstp := hshrinks.trans (h.shrinks hstp)
  moved := h.moved

/-- The level is empty, and its report leads to `q`. -/
theorem LevelWork.of_empty {q : QueueBook}
    (hr : (b₁.afterLevel o.side.opposite i price).Repr ps₁ none)
    (hview : (b₁.afterLevel o.side.opposite i price).view ps₁ = q) (hw : q.Wf)
    (hshrinks : (b.view ps).Shrinks q) (hempty : q.queue o.side.opposite i = [])
    (hfresh : q.Fresh o.side.opposite) (hbodies : n ≤ ts.length + vs.length) :
    LevelWork o b ps price i n false b₁ ps₁ rem₁ ts vs where
  bodies := hbodies
  stopped h := by cases h
  repr _ := hr
  wf _ := hview ▸ hw
  shrinks _ := hview ▸ hshrinks
  moved _ _ := hview ▸ ⟨hempty, hfresh⟩

theorem LevelWork.of_stop (hr : b₁.Repr ps₁ none) (hshrinks : (b.view ps).Shrinks (b₁.view ps₁))
    (hbodies : n ≤ ts.length + vs.length + 1) :
    LevelWork o b ps price i n true b₁ ps₁ rem₁ ts vs where
  bodies := hbodies
  stopped _ := ⟨hr, hshrinks⟩
  repr h := by cases h
  wf h := by cases h
  shrinks h := by cases h
  moved h := by cases h

/-- The level looked at is empty: the body does not run. -/
theorem matchLevelCounted_of_empty {fuel : Nat} {st : MatchState}
    (h : st.book.levelIsEmpty o.side.opposite i = true) :
    matchLevelCounted o price i (fuel + 1) st = some (0, false, st) := by
  rw [levelIsEmpty, PriceLevel.empty, Option.isNone_iff_eq_none] at h
  rw [matchLevelCounted, h]
  split <;> rfl

section Inner

variable {x : RestingOrder} {xs : List RestingOrder} {fuel : Nat}

/-- What the inner loop does from a book on. -/
def Costs (o : NewOrder) (price : Int) (i fuel : Nat) (b : OrderBook) (ps : List Ptr) (rem : Int) :
    Prop :=
  ∃ n stp b₁ ps₁ rem₁ ts vs, (∀ out : Sinks, matchLevelCounted o price i fuel ⟨b, out, rem⟩ =
    some (n, stp, ⟨b₁, out.pushAll ts vs, rem₁⟩)) ∧
    LevelWork o b ps price i n stp b₁ ps₁ rem₁ ts vs

theorem costs_stale (fuel : Nat) (hs : b.LevelState ps o price i)
    (hq : (b.view ps).queue o.side.opposite i = []) : Costs o price i (fuel + 1) b ps rem := by
  have hempty := (levelIsEmpty_iff hs.repr hs.slot_lt).2 hq
  have hq' : (b.view ps).queue o.side.opposite (b.cfg.slot price) = [] := by
    rw [hs.slot]
    exact hq
  obtain ⟨hr, hview⟩ := repr_levelEmptied hs.repr hs.wf (Or.inl rfl) hs.inRange hq'
  refine ⟨0, false, b, ps, rem, [], [], fun out => ?_, ?_⟩
  · rw [matchLevelCounted_of_empty hempty, Sinks.pushAll_nil]
  · refine LevelWork.of_empty (q := (b.view ps).levelEmptied o.side.opposite price) ?_ ?_
      (hs.wf.levelEmptied hq') (QueueBook.shrinks_of_orders (QueueBook.levelEmptied_cfg ..)
        (QueueBook.levelEmptied_orders ..)) ?_ (QueueBook.fresh_levelEmptied hs.best.symm) le_rfl
    · rw [afterLevel, if_pos hempty]
      exact hr
    · rw [afterLevel, if_pos hempty]
      exact hview
    · rw [QueueBook.queue_congr (QueueBook.levelEmptied_cfg ..) (QueueBook.levelEmptied_orders ..)]
      exact hq

/-- The loop after self-trade prevention has removed the head. -/
theorem costs_victim (rem : Int) (hs : b.LevelState ps o price i)
    (hr : b'.Repr ps' none) (hview : b'.view ps' = (b.view ps).afterVictim o x) (hfuel : 0 < fuel)
    (ih : b'.LevelState ps' o price i → (b'.view ps').queue o.side.opposite i ≠ [] →
      Costs o price i fuel b' ps' rem) :
    ∃ n stp b₁ ps₁ rem₁ ts vs,
      (∀ out : Sinks, matchLevelCounted o price i fuel ⟨b', out.pushVictim x, rem⟩ =
        some (n, stp, ⟨b₁, out.pushAll ts vs, rem₁⟩)) ∧
      LevelWork o b ps price i (n + 1) stp b₁ ps₁ rem₁ ts vs := by
  have hshrinks : (b.view ps).Shrinks (b'.view ps') := by
    rw [hview]
    exact QueueBook.shrinks_afterVictim _ _ _
  have hw' : (b'.view ps').Wf := by
    rw [hview]
    exact hs.wf.afterVictim
  have hcfg' : (b'.view ps').cfg = b.cfg := by
    rw [hview]
    exact QueueBook.afterVictim_cfg
  have hslot' : b'.cfg.slot price = i := by
    rw [show b'.cfg = b.cfg from hcfg']
    exact hs.slot
  have hrange' : b'.cfg.inRange price = true := by
    rw [show b'.cfg = b.cfg from hcfg']
    exact hs.inRange
  have hbest : ((b.view ps).remove x.id).best o.side.opposite = price := hs.best
  have hqueue' : (b'.view ps').queue o.side.opposite i =
      ((b.view ps).remove x.id).queue o.side.opposite i := by
    rw [hview, QueueBook.afterVictim_queue]
  have hsettle : b'.view ps' = ((b.view ps).remove x.id).settle o.side.opposite price := by
    rw [hview, QueueBook.afterVictim, hs.best]
  have hslotq : ((b.view ps).remove x.id).cfg.slot price = i := hs.slot
  by_cases hnil : (b'.view ps').queue o.side.opposite i = []
  · -- the removal has reported the level, and the loop reports it again
    obtain ⟨k, rfl⟩ : ∃ k, fuel = k + 1 := ⟨fuel - 1, by omega⟩
    have hempty := (levelIsEmpty_iff hr (by rw [← hslot']; exact BookConfig.slot_lt hrange')).2 hnil
    have hview' : b'.view ps' = ((b.view ps).remove x.id).levelEmptied o.side.opposite price := by
      rw [hsettle, QueueBook.settle, hslotq, if_pos (hqueue' ▸ hnil)]
    obtain ⟨hr₂, hview₂⟩ :=
      repr_levelEmptied hr hw' (Or.inl rfl) hrange' (by rw [hslot']; exact hnil)
    refine ⟨0, false, b', ps', rem, [], [x], fun out => ?_, ?_⟩
    · rw [matchLevelCounted_of_empty hempty]
      rfl
    · refine LevelWork.of_empty (q := b'.view ps') ?_ ?_ hw' hshrinks hnil ?_ le_rfl
      · rw [afterLevel, if_pos hempty]
        exact hr₂
      · rw [afterLevel, if_pos hempty, hview₂, hview',
          QueueBook.levelEmptied_levelEmptied _ hs.hasBest]
      · rw [hview']
        exact QueueBook.fresh_levelEmptied hbest.symm
  · have hview' : b'.view ps' = (b.view ps).remove x.id := by
      rw [hsettle, QueueBook.settle, hslotq, if_neg (hqueue' ▸ hnil)]
    obtain ⟨n, stp, b₁, ps₁, rem₁, ts, vs, hcode, hwork⟩ :=
      ih (hs.next hr hw' hcfg' (by rw [hview']; rfl)) hnil
    refine ⟨n, stp, b₁, ps₁, rem₁, [] ++ ts, [x] ++ vs, fun out => ?_, hwork.cons hshrinks rfl⟩
    rw [hcode, Sinks.pushVictim_pushAll]
    rfl

/-- The loop after a trade with the head. -/
theorem costs_trade (hs : b.LevelState ps o price i) (hrem : 0 < rem)
    (hq : (b.view ps).queue o.side.opposite i = x :: xs)
    (hr : b'.Repr ps' (dirtyIfEmpty (b'.view ps') o.side.opposite i))
    (hview : b'.view ps' = (b.view ps).bumpTradeId.fill x (min rem x.remaining)) (hfuel : 0 < fuel)
    (ih : b'.LevelState ps' o price i → (b'.view ps').queue o.side.opposite i ≠ [] →
      Costs o price i fuel b' ps' (rem - min rem x.remaining)) (t : Trade) :
    ∃ n stp b₁ ps₁ rem₁ ts vs,
      (∀ out : Sinks, matchLevelCounted o price i fuel
          ⟨b', out.pushTrade t, rem - min rem x.remaining⟩ =
        some (n, stp, ⟨b₁, out.pushAll ts vs, rem₁⟩)) ∧
      LevelWork o b ps price i (n + 1) stp b₁ ps₁ rem₁ ts vs := by
  have hx := (QueueBook.mem_of_front (hs.front_eq.trans hq)).1
  have hpos := hs.wf.positive x hx
  have hshrinks : (b.view ps).Shrinks (b'.view ps') := by
    rw [hview]
    exact QueueBook.shrinks_fill _ _ _
  have hw' : (b'.view ps').Wf := by
    rw [hview]
    exact hs.wf.bumpTradeId.fill hx (by omega)
  have hcfg' : (b'.view ps').cfg = b.cfg := by
    rw [hview, QueueBook.fill_cfg]
    rfl
  have hbest' : (b'.view ps').best o.side.opposite = (b.view ps).best o.side.opposite := by
    rw [hview, QueueBook.fill_best]
    cases o.side <;> rfl
  have hslot' : b'.cfg.slot price = i := by
    rw [show b'.cfg = b.cfg from hcfg']
    exact hs.slot
  have hrange' : b'.cfg.inRange price = true := by
    rw [show b'.cfg = b.cfg from hcfg']
    exact hs.inRange
  by_cases hnil : (b'.view ps').queue o.side.opposite i = []
  · obtain ⟨k, rfl⟩ : ∃ k, fuel = k + 1 := ⟨fuel - 1, by omega⟩
    have hempty := (levelIsEmpty_iff hr (by rw [← hslot']; exact BookConfig.slot_lt hrange')).2 hnil
    have hnil' : (b'.view ps').queue o.side.opposite ((b'.view ps').cfg.slot price) = [] := by
      rw [show (b'.view ps').cfg.slot price = i from hslot']
      exact hnil
    obtain ⟨hr₂, hview₂⟩ := repr_afterLevel hr hw' hrange' hslot'
    refine ⟨0, false, b', ps', rem - min rem x.remaining, [t], [], fun out => ?_, ?_⟩
    · rw [matchLevelCounted_of_empty hempty, ← Sinks.pushTrade_pushAll, Sinks.pushAll_nil]
    · refine LevelWork.of_empty hr₂ hview₂ (hw'.settle _ _)
        (hshrinks.trans (QueueBook.shrinks_settle _ _ _)) ?_ ?_ le_rfl
      · rw [QueueBook.settle_queue]
        exact hnil
      · rw [QueueBook.settle, if_pos hnil']
        exact QueueBook.fresh_levelEmptied (hbest'.trans hs.best).symm
  · rw [dirtyIfEmpty, if_neg hnil] at hr
    obtain ⟨n, stp, b₁, ps₁, rem₁, ts, vs, hcode, hwork⟩ := ih (hs.next hr hw' hcfg' hbest') hnil
    refine ⟨n, stp, b₁, ps₁, rem₁, [t] ++ ts, [] ++ vs, fun out => ?_, hwork.cons hshrinks rfl⟩
    rw [hcode, Sinks.pushTrade_pushAll]
    rfl

/-- **The inner loop** runs its body once for each trade and each victim, and once more if it ends
the matching without a victim. -/
theorem matchLevelCounted_spec : ∀ (fuel : Nat) {b : OrderBook} {ps : List Ptr} {rem : Int},
    b.LevelState ps o price i →
    (0 < rem ∨ (b.view ps).queue o.side.opposite i ≠ []) →
    ((¬ 0 < rem ∧ 0 < fuel) ∨ ((b.view ps).queue o.side.opposite i).length < fuel) →
    Costs o price i fuel b ps rem := by
  intro fuel
  induction fuel with
  | zero =>
    intro b ps rem _ _ hfuel
    omega
  | succ k ih =>
    intro b ps rem hs hlook hfuel
    by_cases hrem : 0 < rem
    · have hlen : ((b.view ps).queue o.side.opposite i).length < k + 1 :=
        hfuel.resolve_left fun h => h.1 hrem
      cases hq : (b.view ps).queue o.side.opposite i with
      | nil => exact costs_stale k hs hq
      | cons x xs =>
        rw [hq, List.length_cons] at hlen
        have hk : 0 < k := by omega
        obtain ⟨p, hhead, hdata, ha⟩ := atHead_of_queue hs.repr hs.slot_lt hq
        subst hdata
        simp only [Costs, matchLevelCounted, if_pos hrem, hhead]
        by_cases hp : (b.heap p).participant = o.participant
        · simp only [if_pos hp]
          have ha' : b.AtHead ps o (b.cfg.slot price) p := by
            rw [hs.slot]
            exact ha
          obtain ⟨b', ps', hcode, hview, hr'⟩ :=
            removeVictim_spec rem hs.repr hs.wf hs.inRange ha'
          rw [hs.slot] at hcode
          have hafter : b'.view ps' = (b.view ps).afterVictim o (b.heap p).data := by
            rw [hview, QueueBook.afterVictim, hs.best]
            rfl
          cases hstp : b.cfg.stp with
          | cancelAggressor =>
            exact ⟨1, true, b, ps, rem, [], [], fun out => by rw [Sinks.pushAll_nil],
              .of_stop hs.repr (.refl _) le_rfl⟩
          | cancelPassive =>
            simp only [hcode, Option.bind_eq_bind, Option.bind_some]
            obtain ⟨n, stp, b₁, ps₁, rem₁, ts, vs, hrest, hwork⟩ :=
              costs_victim rem hs hr' hafter hk fun hs' hne => by
                refine ih hs' (Or.inr hne) (Or.inr ?_)
                have hle := remove_head_queue hq
                rw [hafter, QueueBook.afterVictim_queue]
                omega
            exact ⟨n + 1, stp, b₁, ps₁, rem₁, ts, vs, fun out => by rw [hrest]; rfl, hwork⟩
          | cancelBoth =>
            refine ⟨1, true, b', ps', rem, [], [(b.heap p).data], fun out => ?_, .of_stop hr' ?_ ?_⟩
            · dsimp only
              rw [hcode, ← Sinks.pushVictim_pushAll, Sinks.pushAll_nil]
              rfl
            · rw [hafter]
              exact QueueBook.shrinks_afterVictim _ _ _
            · exact Nat.le_succ 1
        · obtain ⟨b', ps', hcode, hview, hr'⟩ := trade_spec rem hs.repr hs.wf ha
          simp only [if_neg hp, hcode, Option.bind_eq_bind, Option.bind_some]
          obtain ⟨n, stp, b₁, ps₁, rem₁, ts, vs, hrest, hwork⟩ :=
            costs_trade hs hrem hq hr' hview hk (fun hs' hne => by
              refine ih hs' (Or.inr hne) ?_
              by_cases hrem' : 0 < rem - min rem (b.heap p).remaining
              · right
                have hfull : (b.heap p).data.remaining = min rem (b.heap p).remaining := by
                  change (b.heap p).remaining = _
                  omega
                have hle := remove_head_queue hq
                rw [hview, QueueBook.fill, if_pos hfull]
                exact hle.trans_lt (by omega)
              · exact Or.inl ⟨hrem', hk⟩) ((b.view ps).tradeOf o (b.heap p).data rem)
          exact ⟨n + 1, stp, b₁, ps₁, rem₁, ts, vs, fun out => by
            rw [show (b.heap p).remaining = (b.heap p).data.remaining from rfl, hrest]
            rfl, hwork⟩
    · have hq := hlook.resolve_left hrem
      have hne : ¬ b.levelIsEmpty o.side.opposite i = true :=
        mt (levelIsEmpty_iff hs.repr hs.slot_lt).1 hq
      have hsame : b.afterLevel o.side.opposite i price = b := by rw [afterLevel, if_neg hne]
      refine ⟨0, false, b, ps, rem, [], [], fun out => ?_, Nat.zero_le _, fun h => absurd h Bool.false_ne_true,
        fun _ => ?_, fun _ => ?_, fun _ => ?_, fun _ h => absurd h hrem⟩
      · rw [matchLevelCounted, if_neg hrem, Sinks.pushAll_nil]
      · rw [hsame]
        exact hs.repr
      · rw [hsame]
        exact hs.wf
      · rw [hsame]
        exact .refl _

end Inner

/-! ## The outer loop -/

/-- The levels of side `s` that had orders in `b` and have none in `b'`. -/
def levelsEmptied (b b' : OrderBook) (s : Side) : Finset Nat :=
  (Finset.range b.bids.numSlots).filter fun i =>
    b.levelIsEmpty s i = false ∧ b'.levelIsEmpty s i = true

theorem mem_levelsEmptied (hr : b.Repr ps none) (hr' : b'.Repr ps' none)
    (hcfg : b'.cfg = b.cfg) {s : Side} : i ∈ b.levelsEmptied b' s ↔ i < b.cfg.numSlots ∧
      (b.view ps).queue s i ≠ [] ∧ (b'.view ps').queue s i = [] := by
  have hslots : b.bids.numSlots = b.cfg.numSlots := hr.numSlots .buy
  rw [levelsEmptied, Finset.mem_filter, Finset.mem_range, hslots]
  refine and_congr_right fun hi => and_congr ?_ (levelIsEmpty_iff hr' (by rw [hcfg]; exact hi))
  rw [← Bool.not_eq_true, ne_eq, levelIsEmpty_iff hr hi]

/-- A level that empties on the way from `b` to `b₁` is counted once more. -/
theorem card_levelsEmptied (hr : b.Repr ps none) (hr₁ : b₁.Repr ps₁ none) (hr' : b'.Repr ps' none)
    (h₁ : (b.view ps).Shrinks (b₁.view ps₁)) (h' : (b₁.view ps₁).Shrinks (b'.view ps')) (s : Side) :
    (b₁.levelsEmptied b' s).card ≤ (b.levelsEmptied b' s).card ∧
    ∀ {i}, i < b.cfg.numSlots → (b.view ps).queue s i ≠ [] → (b₁.view ps₁).queue s i = [] →
      (b₁.levelsEmptied b' s).card + 1 ≤ (b.levelsEmptied b' s).card := by
  have hcfg₁ : b₁.cfg = b.cfg := h₁.cfg
  have hcfg' : b'.cfg = b₁.cfg := h'.cfg
  have hsub : b₁.levelsEmptied b' s ⊆ b.levelsEmptied b' s := by
    intro j hj
    obtain ⟨hlt, hne, hnil⟩ := (mem_levelsEmptied hr₁ hr' hcfg').1 hj
    rw [hcfg₁] at hlt
    exact (mem_levelsEmptied hr hr' (hcfg'.trans hcfg₁)).2
      ⟨hlt, fun h => hne (h₁.queue s j h), hnil⟩
  refine ⟨Finset.card_le_card hsub, fun {i} hi hne hnil => ?_⟩
  refine Finset.card_lt_card ⟨hsub, fun hback => ?_⟩
  have hmem : i ∈ b.levelsEmptied b' s :=
    (mem_levelsEmptied hr hr' (hcfg'.trans hcfg₁)).2 ⟨hi, hne, h'.queue s i hnil⟩
  exact ((mem_levelsEmptied hr₁ hr' hcfg').1 (hback hmem)).2.1 hnil

/-- The loop ends before its body. -/
theorem outer_eq_zero {fuel : Nat} {st : MatchState} {work : Work} {res : MatchOutcome × MatchState}
    (h : matchLoopCounted o fuel st = some (work, res))
    (hdone : ¬ (0 < st.remaining ∧ (st.book.sideOf o.side.opposite).hasBest = true)) :
    work = ⟨0, 0⟩ := by
  cases fuel with
  | zero => cases h
  | succ fuel =>
    simp only [matchLoopCounted, if_neg hdone] at h
    cases h
    rfl

/-- What the match loop costs. -/
structure LoopWork (o : NewOrder) (fuel : Nat) (b : OrderBook) (ps : List Ptr) (rem : Int)
    (work : Work) (oc : MatchOutcome) (b' : OrderBook) (ps' : List Ptr) (rem' : Int)
    (ts : List Trade) (vs : List StpVictim) : Prop where
  runs : ∀ out, matchLoopCounted o fuel ⟨b, out, rem⟩ =
    some (work, oc, ⟨b', out.pushAll ts vs, rem'⟩)
  repr : b'.Repr ps' none
  shrinks : (b.view ps).Shrinks (b'.view ps')
  inner : work.inner ≤ ts.length + vs.length + if oc = .stpFired then 1 else 0
  outer : work.outer ≤ (b.levelsEmptied b' o.side.opposite).card + 1 +
    if (b.view ps).front o = [] then 1 else 0

/-- A body of the outer loop that does not end the matching: it empties its level, or that level was
empty before and the next one is not, or it is the last body. -/
theorem LoopWork.outer_succ {fuel : Nat} {out : Sinks}
    (hs : b.LevelState ps o price i) (hwork : LevelWork o b ps price i n false b₁ ps₁ rem₁ ts vs)
    (hrest : matchLoopCounted o fuel ⟨b₁.afterLevel o.side.opposite i price, out, rem₁⟩ =
      some (work, oc, st))
    (hloop : LoopWork o fuel (b₁.afterLevel o.side.opposite i price) ps₁ rem₁ work oc b' ps' rem'
      ts' vs') :
    work.outer + 1 ≤ (b.levelsEmptied b' o.side.opposite).card + 1 +
      if (b.view ps).front o = [] then 1 else 0 := by
  obtain ⟨hcard, hmore⟩ := card_levelsEmptied hs.repr (hwork.repr rfl) hloop.repr
    (hwork.shrinks rfl) hloop.shrinks o.side.opposite
  have houter := hloop.outer
  by_cases hgo : 0 < rem₁ ∧
      ((b₁.afterLevel o.side.opposite i price).sideOf o.side.opposite).hasBest = true
  · obtain ⟨hempty, hfresh⟩ := hwork.moved rfl hgo.1
    have hfront := hfresh.resolve_left ((hasBest_iff (hwork.repr rfl) _).1 hgo.2)
    rw [if_neg (show ¬ QueueBook.front _ o = [] from hfront)] at houter
    split
    · omega
    · next hocc =>
      have := hmore hs.slot_lt (hs.front_eq ▸ hocc) hempty
      omega
  · rw [outer_eq_zero hrest hgo]
    dsimp only
    omega

theorem matchLoopCounted_spec : ∀ (fuel : Nat) {b : OrderBook} {ps : List Ptr} {rem : Int}
    {out : Sinks} {work : Work} {oc : MatchOutcome} {st : MatchState}, b.Repr ps none →
    (b.view ps).Wf → matchLoopCounted o fuel ⟨b, out, rem⟩ = some (work, oc, st) →
    ∃ ps' ts vs, LoopWork o fuel b ps rem work oc st.book ps' st.remaining ts vs := by
  intro fuel
  induction fuel with
  | zero =>
    intro b ps rem out work oc st _ _ h
    cases h
  | succ k ih =>
    intro b ps rem out work oc st hr hw h
    have hbest := hasBest_iff hr o.side.opposite
    by_cases hgo : 0 < rem ∧ (b.sideOf o.side.opposite).hasBest = true
    · have hne := hbest.1 hgo.2
      have hrange : b.cfg.inRange ((b.view ps).best o.side.opposite) = true :=
        (hw.best o.side.opposite).resolve_left hne
      by_cases hc : crosses o.type o.side o.price (b.sideOf o.side.opposite).best = true
      · have hs : b.LevelState ps o ((b.view ps).best o.side.opposite)
            (b.cfg.slot ((b.view ps).best o.side.opposite)) :=
          ⟨hr, hw, rfl, hne, by rw [view_best]; exact hc, rfl⟩
        obtain ⟨n, stp, b₁, ps₁, rem₁, ts, vs, hcode, hwork⟩ :=
          matchLevelCounted_spec (b.pool.inUse + 1) hs (Or.inl hgo.1)
            (Or.inr (queue_length_le hr _ _))
        have hbody : ∀ out, matchLoopCounted o (k + 1) ⟨b, out, rem⟩ =
            if stp = true then some (⟨1, n⟩, .stpFired, ⟨b₁, out.pushAll ts vs, rem₁⟩)
            else (matchLoopCounted o k ⟨b₁.afterLevel o.side.opposite
                (b.cfg.slot ((b.view ps).best o.side.opposite)) ((b.view ps).best o.side.opposite),
                out.pushAll ts vs, rem₁⟩).bind
              fun done => some (⟨done.1.outer + 1, done.1.inner + n⟩, done.2) := by
          intro out
          simp only [matchLoopCounted, if_pos hgo, if_pos hc]
          rw [← view_best b ps, hr.levelAt_eq _ hrange]
          simp only [Option.bind_eq_bind, Option.bind_some, hcode]
          rfl
        rw [hbody] at h
        cases stp with
        | true =>
          cases h
          obtain ⟨hr₁, hshrinks⟩ := hwork.stopped rfl
          refine ⟨ps₁, ts, vs, hbody, hr₁, hshrinks, hwork.bodies, ?_⟩
          dsimp only
          omega
        | false =>
          obtain ⟨⟨w, oc', st'⟩, hrest, heq⟩ := Option.bind_eq_some_iff.1 h
          cases heq
          obtain ⟨ps', ts', vs', hloop⟩ := ih (hwork.repr rfl) (hwork.wf rfl) hrest
          have hshrinks := hwork.shrinks rfl
          refine ⟨ps', ts ++ ts', vs ++ vs', fun out => ?_, hloop.repr,
            hshrinks.trans hloop.shrinks, ?_, ?_⟩
          · rw [hbody, hloop.runs, Sinks.pushAll_pushAll]
            rfl
          · have hbodies : n ≤ ts.length + vs.length := hwork.bodies
            have hinner := hloop.inner
            rw [List.length_append, List.length_append]
            dsimp only
            omega
          · exact LoopWork.outer_succ hs hwork hrest hloop
      · simp only [matchLoopCounted, if_pos hgo, if_neg hc] at h
        cases h
        refine ⟨ps, [], [], fun out => ?_, hr, .refl _, Nat.zero_le _, ?_⟩
        · simp only [matchLoopCounted, if_pos hgo, if_neg hc, Sinks.pushAll_nil]
        · dsimp only
          omega
    · simp only [matchLoopCounted, if_neg hgo] at h
      cases h
      refine ⟨ps, [], [], fun out => ?_, hr, .refl _, Nat.zero_le _, Nat.zero_le _⟩
      simp only [matchLoopCounted, if_neg hgo, Sinks.pushAll_nil]

/-- **The work of a match.** It ends; the inner body runs at most once more than there are trades
and victims, the outer body at most twice more than there are levels emptied. -/
theorem matchInto_work (hb : b.Reached) (o : NewOrder) (rem : Int) :
    ∃ work oc b' rem' ts vs,
      (∀ out, b.matchIntoCounted o out rem = some (work, oc, ⟨b', out.pushAll ts vs, rem'⟩)) ∧
      (∀ out, b.matchInto o out rem = some (oc, ⟨b', out.pushAll ts vs, rem'⟩)) ∧
      work.inner ≤ ts.length + vs.length + 1 ∧
      work.outer ≤ (b.levelsEmptied b' o.side.opposite).card + 2 := by
  obtain ⟨ps, hr, hw⟩ := hb.repr
  obtain ⟨oc, b', ps₁, rem', ts₁, vs₁, hmatch, -⟩ := matchInto_spec (o := o) rem hr hw
  have hsome := matchIntoCounted_erase b o (.empty 0) rem
  rw [hmatch, Option.map_eq_some_iff] at hsome
  obtain ⟨⟨work, oc', st⟩, hcounted, -⟩ := hsome
  obtain ⟨ps', ts, vs, hloop⟩ := matchLoopCounted_spec _ hr hw hcounted
  refine ⟨work, oc', st.book, st.remaining, ts, vs, hloop.runs, fun out => ?_, ?_, ?_⟩
  · rw [← matchIntoCounted_erase, matchIntoCounted, hloop.runs]
    rfl
  · have hinner := hloop.inner
    split at hinner <;> omega
  · have houter := hloop.outer
    split at houter <;> omega

theorem matchInto_work_offering : ∃ work oc b' rem' ts vs,
    (∀ out, offering.2.matchIntoCounted ⟨2, 110, 7, 2, .buy, .limit⟩ out 7 =
      some (work, oc, ⟨b', out.pushAll ts vs, rem'⟩)) ∧
    (∀ out, offering.2.matchInto ⟨2, 110, 7, 2, .buy, .limit⟩ out 7 =
      some (oc, ⟨b', out.pushAll ts vs, rem'⟩)) ∧
    work.inner ≤ ts.length + vs.length + 1 ∧
    work.outer ≤ (offering.2.levelsEmptied b' .sell).card + 2 :=
  matchInto_work offering_reached ⟨2, 110, 7, 2, .buy, .limit⟩ 7

end OrderBook

end Velox
