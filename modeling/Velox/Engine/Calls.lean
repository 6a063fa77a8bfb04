import Velox.Engine.Matching

/-!
# The calls refine the queues

Each call of the book is defined on every represented state, keeps the representation invariant
and does to the view what `QueueBook.Step` says.

* `availableAgainst_spec` — the fill-or-kill pre-scan is one `QueueBook.Scan`.
* `submitEx_spec`, `cancel_spec`, `replace_spec` — the three calls.
* `call_spec`, `run_spec` — every run from a fresh book is a run of the queues, and every state
  it reaches is represented.
-/

namespace Velox

namespace OrderBook

variable {b b' : OrderBook} {ps ps' : List Ptr} {p : Ptr} {o : NewOrder}

/-! ## The pre-scan

The walk does not depend on how it adds up quantities. With `+` it is the pre-scan over exact
integers, with `QueueBook.add64` the one of the source (`availableWith_add64`). -/

def scanLevelWith (add : Int → Int → Int) (b : OrderBook) (o : NewOrder) :
    Nat → Option Ptr → Int → Option (Bool × Int)
  | _, none, sum => some (false, sum)
  | 0, some _, _ => none
  | fuel + 1, some p, sum =>
    let resting := b.heap p
    if resting.participant = o.participant then
      if b.cfg.stp = .cancelPassive then b.scanLevelWith add o fuel resting.next sum
      else some (true, sum)
    else
      let sum := add sum resting.remaining
      if o.quantity ≤ sum then some (true, sum) else b.scanLevelWith add o fuel resting.next sum

def scanLoopWith (add : Int → Int → Int) (b : OrderBook) (o : NewOrder) :
    Nat → Int → Int → Option Int
  | 0, _, _ => none
  | fuel + 1, p, sum =>
    let opposite := b.sideOf o.side.opposite
    if p ≠ emptySentinel o.side.opposite then
      if crosses o.type o.side o.price p then do
        let i ← opposite.levelAt p
        let (returned, sum) ← b.scanLevelWith add o (b.pool.inUse + 1) (opposite.levels i).head sum
        if returned then some sum else b.scanLoopWith add o fuel (opposite.nextOccupied p) sum
      else
        some sum
    else
      some sum

def availableWith (add : Int → Int → Int) (b : OrderBook) (o : NewOrder) : Option Int :=
  b.scanLoopWith add o (b.bids.numSlots + 2) (b.sideOf o.side.opposite).best 0

theorem scanLevelWith_add64 (fuel : Nat) (cur : Option Ptr) (sum : Int) :
    b.scanLevelWith QueueBook.add64 o fuel cur sum = b.scanLevel o fuel cur sum := by
  induction fuel generalizing cur sum with
  | zero => cases cur <;> rfl
  | succ fuel ih =>
    cases cur with
    | none => rfl
    | some p =>
      simp only [scanLevelWith, scanLevel, ih]
      rfl

theorem scanLoopWith_add64 (fuel : Nat) (price sum : Int) :
    b.scanLoopWith QueueBook.add64 o fuel price sum = b.scanLoop o fuel price sum := by
  induction fuel generalizing price sum with
  | zero => rfl
  | succ fuel ih => simp only [scanLoopWith, scanLoop, scanLevelWith_add64, ih]

theorem availableWith_add64 (b : OrderBook) (o : NewOrder) :
    b.availableWith QueueBook.add64 o = b.availableAgainst o :=
  scanLoopWith_add64 ..

section Scan

variable (add : Int → Int → Int)

/-- The walk along a level is the walk along its queue. -/
theorem scanLevelWith_spec {c : List Ptr} {before : Option Ptr}
    (hseg : Chain.Seg (fun p => (b.heap p).next) (fun p => (b.heap p).prev) before c none)
    (fuel : Nat) (hfuel : c.length ≤ fuel) (sum : Int) :
    b.scanLevelWith add o fuel c.head? sum =
      some (QueueBook.scanQueue b.cfg.stp o add (c.map fun p => (b.heap p).data) sum) := by
  induction c generalizing before fuel sum with
  | nil => cases fuel <;> rfl
  | cons p c ih =>
    obtain ⟨-, hlink, hrest⟩ := hseg
    have hnext : (b.heap p).next = c.head? := hlink.trans (Option.or_none ..)
    cases fuel with
    | zero => exact absurd hfuel (Nat.not_succ_le_zero _)
    | succ fuel =>
      have hfuel' : c.length ≤ fuel := Nat.le_of_succ_le_succ hfuel
      rw [List.head?_cons, List.map_cons, scanLevelWith, QueueBook.scanQueue]
      dsimp only
      rw [hnext]
      change (if (b.heap p).participant = o.participant then _ else _) =
        some (if (b.heap p).participant = o.participant then _ else _)
      split
      · split
        · exact ih hrest fuel hfuel' sum
        · rfl
      · change (if o.quantity ≤ add sum (b.heap p).remaining then _ else _) =
          some (if o.quantity ≤ add sum (b.heap p).remaining then _ else _)
        split
        · rfl
        · exact ih hrest fuel hfuel' _

/-- The walk along the level of an occupied or empty slot. -/
theorem scanLevelWith_queue (hr : b.Repr ps none) {i : Nat} (hi : i < b.cfg.numSlots) (sum : Int)
    (s : Side) : b.scanLevelWith add o (b.pool.inUse + 1) ((b.sideOf s).levels i).head sum =
      some (QueueBook.scanQueue b.cfg.stp o add ((b.view ps).queue s i) sum) := by
  have hlist := ((hr.side s).levels i (by rw [hr.numSlots]; exact hi)).list
  have hlen : ((b.sideOf s).chain b.heap ps i).length ≤ b.pool.inUse + 1 := by
    have := queue_length_le hr s i
    rw [hr.queue_eq, List.length_map] at this
    exact this.le
  rw [hlist.head, hr.queue_eq]
  exact scanLevelWith_spec add hlist.links _ hlen sum

/-- **The pre-scan** ends within its bound, and is one `Scan`. -/
theorem scanLoopWith_spec (hr : b.Repr ps none) (hw : (b.view ps).Wf) (fuel : Nat) {price : Int}
    (sum : Int) (hprice : price = emptySentinel o.side.opposite ∨ b.cfg.inRange price = true)
    (hfuel : (b.view ps).distanceFrom o.side.opposite price < fuel) :
    ∃ n, b.scanLoopWith add o fuel price sum = some n ∧ (b.view ps).Scan o add price sum n := by
  induction fuel generalizing price sum with
  | zero => exact absurd hfuel (Nat.not_lt_zero _)
  | succ fuel ih =>
    rw [scanLoopWith]
    dsimp only
    by_cases hne : price = emptySentinel o.side.opposite
    · rw [if_neg (not_not.2 hne)]
      exact ⟨sum, rfl, .done (Or.inl hne)⟩
    · rw [if_pos hne]
      by_cases hc : crosses o.type o.side o.price price = true
      · have hin : b.cfg.inRange price = true := hprice.resolve_left hne
        have hlevel := scanLevelWith_queue (o := o) add hr (BookConfig.slot_lt hin) sum
          o.side.opposite
        rw [if_pos hc, hr.levelAt_eq _ hin]
        simp only [Option.bind_eq_bind, Option.bind_some, hlevel]
        generalize hscan : QueueBook.scanQueue b.cfg.stp o add
          ((b.view ps).queue o.side.opposite (b.cfg.slot price)) sum = found
        obtain ⟨returned, sum'⟩ := found
        cases returned with
        | true => exact ⟨sum', rfl, .returned hne hc hscan⟩
        | false =>
          have hnext := hr.nextOccupied_eq hw ⟨rfl, rfl, rfl, rfl, rfl⟩
            (hr.side o.side.opposite) (Or.inl rfl) hin
          have hcloser := QueueBook.distanceFrom_nextOccupied hw hin hne
          obtain ⟨n, hrun, hn⟩ := ih sum'
            (QueueBook.nextOccupied_inRange hw o.side.opposite price) (by omega)
          refine ⟨n, ?_, .next hne hc hscan hn⟩
          rw [hnext]
          exact hrun
      · rw [if_neg hc]
        exact ⟨sum, rfl, .done (Or.inr (Bool.eq_false_iff.2 hc))⟩

theorem availableWith_spec (hr : b.Repr ps none) (hw : (b.view ps).Wf) :
    ∃ n, b.availableWith add o = some n ∧
      (b.view ps).Scan o add ((b.view ps).best o.side.opposite) 0 n := by
  have hle : (b.view ps).distance o.side.opposite ≤ b.cfg.numSlots := QueueBook.distance_le hw _
  have hn : b.bids.numSlots = b.cfg.numSlots := hr.numSlots .buy
  rw [availableWith, ← view_best b ps]
  exact scanLoopWith_spec add hr hw _ 0 (hw.best _) (by rw [← QueueBook.distance]; omega)

end Scan

theorem availableAgainst_spec (hr : b.Repr ps none) (hw : (b.view ps).Wf) :
    ∃ n, b.availableAgainst o = some n ∧
      (b.view ps).Scan o QueueBook.add64 ((b.view ps).best o.side.opposite) 0 n := by
  rw [← availableWith_add64]
  exact availableWith_spec _ hr hw

/-! ## Submitting -/

theorem Repr.arrive (hr : b.Repr ps none) : ({ b with seq := b.seq + 1 } : OrderBook).Repr ps none :=
  ⟨hr.live, hr.capacity, hr.isSide, hr.side, hr.idInv, hr.idRoom, hr.idSize, hr.idMem⟩

/-- What matching left of the order is disposed of by the order's type. -/
theorem disposeResidual_spec {q : QueueBook} {oc : MatchOutcome} {ts : List Trade}
    {vs : List StpVictim} {rem : Int} (hr : b.Repr ps none) (ha : q.Admits o)
    (hm : q.arrive.Match o o.quantity oc ts vs (b.view ps) rem) (hoc : oc ≠ .stpFired) :
    ∃ r b' ps', b.disposeResidual o (q.seq + 1) rem (q.arrived o rem) = some (r, b') ∧
      b'.Repr ps' none ∧ q.Submits o r ts vs (b'.view ps') := by
  have hcfg : b.cfg = q.cfg := hm.cfg_eq
  obtain ⟨-, hrange, hid, -⟩ := QueueBook.check_eq_none ha.check
  rw [disposeResidual]
  by_cases hrem : 0 < rem
  · cases ht : o.type with
    | limit =>
      by_cases hroom : (b.view ps).orders.length < b.cfg.maxOrders
      · have hfresh : ∀ y ∈ (b.view ps).orders, y.id ≠ o.id := by
          intro y hy
          obtain ⟨y', hy', heq⟩ := hm.mem_orders hy
          rw [heq]
          exact hid y' hy'
        obtain ⟨b', p, hrest, hr', hview⟩ := repr_restResidual hr (q.seq + 1) rem
          (by rw [hcfg]; exact hrange (by rw [ht]; decide)) hfresh hroom
        refine ⟨{ q.arrived o rem with status := .ok, rested := true }, b', ps ++ [p], ?_, hr', ?_⟩
        · simp only [if_pos hrem, hrest]
          rfl
        · rw [hview]
          exact .rested ha hm hoc ht hrem (by rw [← hcfg]; exact hroom)
      · rw [not_lt] at hroom
        have hrest := restResidual_exhausted hr o (q.seq + 1) rem hroom
        refine ⟨{ q.arrived o rem with status := .rejectedPoolExhausted }, b, ps, ?_, hr,
          .exhausted ha hm hoc ht hrem (by rw [← hcfg]; exact hroom)⟩
        simp only [if_pos hrem, hrest]
        rfl
    | market =>
      refine ⟨{ q.arrived o rem with status := .cancelledResidual }, b, ps, ?_, hr,
        .residual ha hm hoc (Or.inl ht) hrem⟩
      simp only [if_pos hrem]
    | ioc =>
      refine ⟨{ q.arrived o rem with status := .cancelledResidual }, b, ps, ?_, hr,
        .residual ha hm hoc (Or.inr ht) hrem⟩
      simp only [if_pos hrem]
    | fok =>
      refine ⟨{ q.arrived o rem with status := .rejectedFokUnfillable }, b, ps, ?_, hr,
        .fokResidual ha hm hoc ht hrem⟩
      simp only [if_pos hrem]
  · refine ⟨{ q.arrived o rem with status := .ok }, b, ps, ?_, hr, .filled ha hm hoc hrem⟩
    cases o.type <;> simp only [if_neg hrem]

theorem accept_spec (hr : b.Repr ps none) (hw : (b.view ps).Wf)
    (ha : (b.view ps).Admits o) :
    ∃ r b' ps' ts vs, (∀ out, b.accept o out o.result = some (r, out.pushAll ts vs, b')) ∧
      b'.Repr ps' none ∧ (b.view ps).Submits o r ts vs (b'.view ps') := by
  obtain ⟨oc, b₁, ps₁, rem, ts, vs, hrun, hr₁, hm⟩ :=
    matchInto_spec (o := o) o.quantity hr.arrive hw.arrive
  have hm' : (b.view ps).arrive.Match o o.quantity oc ts vs (b₁.view ps₁) rem := hm
  simp only [accept, hrun, Option.bind_eq_bind, Option.bind_some]
  by_cases hoc : oc = .stpFired
  · subst hoc
    exact ⟨_, b₁, ps₁, ts, vs, fun out => if_pos rfl, hr₁, .stp ha hm'⟩
  · obtain ⟨r, b', ps', hdispose, hr', hsub⟩ := disposeResidual_spec hr₁ ha hm' hoc
    refine ⟨r, b', ps', ts, vs, fun out => ?_, hr', hsub⟩
    rw [if_neg hoc]
    change (b₁.disposeResidual o ((b.view ps).seq + 1) rem ((b.view ps).arrived o rem)).bind _ = _
    rw [hdispose]
    rfl

/-- The three ways through `submitEx`: a check fails, the pre-scan does not find enough, or the
order is matched. The first two leave the book as it is. -/
theorem submitEx_eq (o : NewOrder) (hr : b.Repr ps none) (hw : (b.view ps).Wf) :
    (∃ status, (b.view ps).check o = some status ∧
      ∀ out, b.submitEx o out = some ({ o.result with status := status }, out, b)) ∨
    (∃ n, (b.view ps).check o = none ∧ o.type = .fok ∧ b.availableAgainst o = some n ∧
      (b.view ps).Scan o QueueBook.add64 ((b.view ps).best o.side.opposite) 0 n ∧ n < o.quantity ∧
      ∀ out, b.submitEx o out =
        some ({ o.result with status := .rejectedFokUnfillable }, out, b)) ∨
    ((b.view ps).Admits o ∧ ∀ out, b.submitEx o out = b.accept o out o.result) := by
  have hrange : b.bids.inRange o.price = b.cfg.inRange o.price := (hr.isSide .buy).inRange _
  have hbest : (b.sideOf o.side.opposite).hasBest = false ↔
      (b.view ps).best o.side.opposite = emptySentinel o.side.opposite := by
    rw [← Bool.not_eq_true, hasBest_iff hr, not_not]
  have hcheck : (b.view ps).check o =
      if o.quantity ≤ 0 then some .rejectedInvalidQuantity
      else if o.type ≠ .market ∧ b.bids.inRange o.price = false then
        some .rejectedPriceOutOfRange
      else if (b.idMap.find idHash o.id).isSome then some .rejectedDuplicateId
      else if o.type = .market ∧ (b.sideOf o.side.opposite).hasBest = false then
        some .rejectedMarketIntoEmptyBook
      else none := by
    rw [QueueBook.check, hrange, hr.find_isSome]
    simp only [hbest]
    rfl
  simp only [submitEx]
  by_cases h₁ : o.quantity ≤ 0
  · simp only [if_pos h₁] at hcheck ⊢
    exact .inl ⟨_, hcheck, fun _ => rfl⟩
  simp only [if_neg h₁] at hcheck ⊢
  by_cases h₂ : o.type ≠ .market ∧ b.bids.inRange o.price = false
  · simp only [if_pos h₂] at hcheck ⊢
    exact .inl ⟨_, hcheck, fun _ => rfl⟩
  simp only [if_neg h₂] at hcheck ⊢
  by_cases h₃ : (b.idMap.find idHash o.id).isSome = true
  · simp only [if_pos h₃] at hcheck ⊢
    exact .inl ⟨_, hcheck, fun _ => rfl⟩
  simp only [if_neg h₃] at hcheck ⊢
  by_cases h₄ : o.type = .market ∧ (b.sideOf o.side.opposite).hasBest = false
  · simp only [if_pos h₄] at hcheck ⊢
    exact .inl ⟨_, hcheck, fun _ => rfl⟩
  simp only [if_neg h₄] at hcheck ⊢
  refine .inr ?_
  by_cases ht : o.type = .fok
  · obtain ⟨n, hscan, hn⟩ := availableAgainst_spec (o := o) hr hw
    simp only [if_pos ht, hscan, Option.bind_eq_bind, Option.bind_some]
    by_cases hlt : n < o.quantity
    · simp only [if_pos hlt]
      exact .inl ⟨n, hcheck, ht, rfl, hn, hlt, fun _ => rfl⟩
    · simp only [if_neg hlt]
      exact .inr ⟨⟨hcheck, fun _ => ⟨n, hn, by omega⟩⟩, fun _ => rfl⟩
  · simp only [if_neg ht]
    exact .inr ⟨⟨hcheck, fun h => absurd h ht⟩, fun _ => rfl⟩

/-- **`submitEx`** on a represented book. -/
theorem submitEx_spec (o : NewOrder) (hr : b.Repr ps none) (hw : (b.view ps).Wf) :
    ∃ r b' ps' ts vs, (∀ out, b.submitEx o out = some (r, out.pushAll ts vs, b')) ∧
      b'.Repr ps' none ∧ (b.view ps).Submits o r ts vs (b'.view ps') := by
  rcases submitEx_eq o hr hw with ⟨status, hcheck, hrun⟩ |
    ⟨n, hcheck, ht, -, hs, hn, hrun⟩ | ⟨ha, hrun⟩
  · exact ⟨_, b, ps, [], [], fun out => by rw [hrun, Sinks.pushAll_nil], hr, .rejected hcheck⟩
  · exact ⟨_, b, ps, [], [], fun out => by rw [hrun, Sinks.pushAll_nil], hr,
      .unfillable hcheck ht hs hn⟩
  · obtain ⟨r, b', ps', ts, vs, haccept, hr', hsub⟩ := accept_spec hr hw ha
    exact ⟨r, b', ps', ts, vs, fun out => by rw [hrun, haccept], hr', hsub⟩

/-! ## Cancelling and replacing -/

/-- The level a resting order is linked from. -/
theorem Repr.level_eq (hr : b.Repr ps none) (hp : p ∈ ps)
    (hrange : b.cfg.inRange (b.heap p).price = true) :
    (b.heap p).level = some ⟨(b.heap p).side, b.cfg.slot (b.heap p).price⟩ := by
  have hlt : b.cfg.slot (b.heap p).price < (b.sideOf (b.heap p).side).numSlots := by
    rw [hr.numSlots]
    exact BookConfig.slot_lt hrange
  have hlevel := ((hr.side (b.heap p).side).levels _ hlt).level p (hr.mem_chain hp)
  rwa [(hr.isSide _).side] at hlevel

/-- The report of a level and the erasure of an id do not see each other. -/
theorem afterLevel_eraseId (s : Side) (i : Nat) (price id : Int) :
    (b.afterLevel s i price).eraseId id = (b.eraseId id).map (·.afterLevel s i price) := by
  have hid : (b.afterLevel s i price).idMap = b.idMap := by
    rw [afterLevel, levelEmptied]
    split
    · exact setSide_idMap _
    · rfl
  have hset : ∀ t : OrderIdMap, ({ b with idMap := t } : OrderBook).afterLevel s i price =
      { b.afterLevel s i price with idMap := t } := by
    intro t
    have hempty : ({ b with idMap := t } : OrderBook).levelIsEmpty s i = b.levelIsEmpty s i := by
      cases s <;> rfl
    rw [afterLevel, afterLevel, hempty]
    split
    · cases s <;> rfl
    · rfl
  rw [eraseId, eraseId, hid]
  cases b.idMap.erase idHash id with
  | none => rfl
  | some found => exact congrArg some (hset found.2).symm

theorem afterLevel_release (s : Side) (i : Nat) (price : Int) (p : Ptr) :
    (b.afterLevel s i price).release p = (b.release p).afterLevel s i price := by
  have hempty : (b.release p).levelIsEmpty s i = b.levelIsEmpty s i := by cases s <;> rfl
  rw [afterLevel, afterLevel, hempty]
  split
  · cases s <;> rfl
  · rfl

/-- **`cancel`** on a represented book. -/
theorem cancel_spec (id : Int) (hr : b.Repr ps none) (hw : (b.view ps).Wf) :
    ∃ r b' ps', b.cancel id = some (r, b') ∧ b'.Repr ps' none ∧
      (b.view ps).Cancels id r (b'.view ps') := by
  rw [cancel]
  cases hfind : b.idMap.find idHash id with
  | none => exact ⟨_, b, ps, rfl, hr, .unknown (hr.find_eq_none.1 hfind)⟩
  | some p =>
    obtain ⟨hp, hid⟩ := hr.find_eq_some.1 hfind
    have hmem : (b.heap p).data ∈ (b.view ps).orders := List.mem_map.2 ⟨p, hp, rfl⟩
    have hrange : b.cfg.inRange (b.heap p).price = true := hw.inRange _ hmem
    obtain ⟨b₁, herase, hr₁, hview₁⟩ := repr_remove hr hp hrange
    have hcfg : (b₁.release p).cfg = b.cfg := congrArg QueueBook.cfg hview₁
    rw [← hview₁] at hr₁
    obtain ⟨hr₂, hview₂⟩ := repr_afterLevel hr₁ (by rw [hview₁]; exact hw.remove _)
      (by rw [hcfg]; exact hrange) (by rw [hcfg])
    rw [hview₁, hid] at hview₂
    refine ⟨(b.heap p).data.cancelled, _, ps.filter (· ≠ p), ?_, hr₂, ?_⟩
    · simp only [hr.level_eq hp hrange, Option.bind_eq_bind, Option.bind_some]
      change (((b.unlinkOrder (b.heap p).side (b.cfg.slot (b.heap p).price) p).afterLevel _ _
        (b.heap p).price).eraseId id).bind _ = _
      rw [afterLevel_eraseId, ← hid, herase, Option.map_some, Option.bind_some, afterLevel_release]
      rfl
    · rw [hview₂]
      exact .found hmem hid

/-- The two ways through `replace`: a check fails and the book stays as it is, or the old order is
cancelled and the fresh one submitted. -/
theorem replace_eq (oldId : Int) (fresh : NewOrder) (hr : b.Repr ps none) (hw : (b.view ps).Wf) :
    (∃ status, (b.view ps).checkReplace oldId fresh = some status ∧
      ∀ out, b.replace oldId fresh out = some ({ status := status }, none, out, b)) ∨
    ((b.view ps).checkReplace oldId fresh = none ∧ ∃ old b₁ ps₁, b.cancel oldId = some (old, b₁) ∧
      b₁.Repr ps₁ none ∧ (b.view ps).Cancels oldId old (b₁.view ps₁) ∧
      ∀ out, b.replace oldId fresh out =
        (b₁.submitEx fresh out).bind fun done => some (done.1, some old, done.2)) := by
  have hrange : b.bids.inRange fresh.price = b.cfg.inRange fresh.price :=
    (hr.isSide .buy).inRange _
  have hcheck : (b.view ps).checkReplace oldId fresh =
      if (b.idMap.find idHash oldId).isNone then some .rejectedUnknownOrder
      else if fresh.quantity ≤ 0 then some .rejectedInvalidQuantity
      else if fresh.type ≠ .market ∧ b.bids.inRange fresh.price = false then
        some .rejectedPriceOutOfRange
      else if fresh.id ≠ oldId ∧ (b.idMap.find idHash fresh.id).isSome then
        some .rejectedDuplicateId
      else none := by
    have hold : (b.idMap.find idHash oldId).isSome =
        (b.view ps).orders.any fun x => decide (x.id = oldId) := hr.find_isSome
    rw [QueueBook.checkReplace, hrange, hr.find_isSome, ← hold]
    simp only [Option.isSome_eq_false_iff]
    rfl
  simp only [replace]
  by_cases h₁ : (b.idMap.find idHash oldId).isNone = true
  · simp only [if_pos h₁] at hcheck ⊢
    exact .inl ⟨_, hcheck, fun _ => rfl⟩
  simp only [if_neg h₁] at hcheck ⊢
  by_cases h₂ : fresh.quantity ≤ 0
  · simp only [if_pos h₂] at hcheck ⊢
    exact .inl ⟨_, hcheck, fun _ => rfl⟩
  simp only [if_neg h₂] at hcheck ⊢
  by_cases h₃ : fresh.type ≠ .market ∧ b.bids.inRange fresh.price = false
  · simp only [if_pos h₃] at hcheck ⊢
    exact .inl ⟨_, hcheck, fun _ => rfl⟩
  simp only [if_neg h₃] at hcheck ⊢
  by_cases h₄ : fresh.id ≠ oldId ∧ (b.idMap.find idHash fresh.id).isSome = true
  · simp only [if_pos h₄] at hcheck ⊢
    exact .inl ⟨_, hcheck, fun _ => rfl⟩
  simp only [if_neg h₄] at hcheck ⊢
  obtain ⟨old, b₁, ps₁, hcancel, hr₁, hc⟩ := cancel_spec oldId hr hw
  refine .inr ⟨hcheck, old, b₁, ps₁, hcancel, hr₁, hc, fun out => ?_⟩
  simp only [hcancel, Option.bind_eq_bind, Option.bind_some]

/-- **`replace`** on a represented book. -/
theorem replace_spec (oldId : Int) (fresh : NewOrder) (hr : b.Repr ps none)
    (hw : (b.view ps).Wf) :
    ∃ e b' ps', (∀ out, b.replace oldId fresh out =
        some (e.result, e.oldResult, out.pushAll e.trades e.victims, b')) ∧
      b'.Repr ps' none ∧ (b.view ps).Step (.replace oldId fresh) e (b'.view ps') := by
  rcases replace_eq oldId fresh hr hw with ⟨status, hcheck, hrun⟩ |
    ⟨hcheck, old, b₁, ps₁, -, hr₁, hc, hrun⟩
  · exact ⟨⟨{ status := status }, none, [], []⟩, b, ps,
      fun out => by rw [hrun, Sinks.pushAll_nil], hr, .replaceRejected hcheck⟩
  · obtain ⟨r, b', ps', ts, vs, hsubmit, hr', hs⟩ := submitEx_spec fresh hr₁ (hc.wf hw)
    refine ⟨⟨r, some old, ts, vs⟩, b', ps', fun out => ?_, hr', .replaced hcheck hc hs⟩
    rw [hrun, hsubmit, Option.bind_some]

/-! ## Whole runs -/

/-- **Every call** on a represented book is defined, is a step of the queues and leaves a
represented book, whatever buffers it is given. -/
theorem call_spec (c : Call) (hr : b.Repr ps none) (hw : (b.view ps).Wf) :
    ∃ e b' ps', (∀ out, b.call c out = some (QueueBook.Effect.reply e out, b')) ∧
      b'.Repr ps' none ∧ (b.view ps).Step c e (b'.view ps') := by
  cases c with
  | submit o =>
    obtain ⟨r, b', ps', ts, vs, hrun, hr', hs⟩ := submitEx_spec o hr hw
    refine ⟨⟨r, none, ts, vs⟩, b', ps', fun out => ?_, hr', .submit hs⟩
    rw [call, hrun]
    rfl
  | cancel id =>
    obtain ⟨r, b', ps', hrun, hr', hc⟩ := cancel_spec id hr hw
    refine ⟨⟨r, none, [], []⟩, b', ps', fun out => ?_, hr', .cancel hc⟩
    rw [call, hrun, QueueBook.Effect.reply, Sinks.pushAll_nil]
    rfl
  | replace oldId fresh =>
    obtain ⟨e, b', ps', hrun, hr', hs⟩ := replace_spec oldId fresh hr hw
    refine ⟨e, b', ps', fun out => ?_, hr', hs⟩
    rw [call, hrun]
    rfl

/-- **Every run** is a run of the queues. -/
theorem run_spec (cs : List Call) (hr : b.Repr ps none) (hw : (b.view ps).Wf) :
    ∃ es b' ps', (∀ outs : List Sinks, outs.length = cs.length →
        b.run (cs.zip outs) = some (List.zipWith QueueBook.Effect.reply es outs, b')) ∧
      b'.Repr ps' none ∧ QueueBook.Steps (b.view ps) cs es (b'.view ps') := by
  induction cs generalizing b ps with
  | nil => exact ⟨[], b, ps, fun outs _ => rfl, hr, .nil⟩
  | cons c cs ih =>
    obtain ⟨e, b₁, ps₁, hcall, hr₁, hstep⟩ := call_spec c hr hw
    obtain ⟨es, b', ps', hrun, hr', hsteps⟩ := ih hr₁ (hstep.wf hw)
    refine ⟨e :: es, b', ps', fun outs hlen => ?_, hr', .cons hstep hsteps⟩
    cases outs with
    | nil => cases hlen
    | cons out outs =>
      rw [List.zip_cons_cons, run, hcall]
      change (b₁.run (cs.zip outs)).bind _ = _
      rw [hrun outs (Nat.succ.inj hlen)]
      rfl

/-! ## What rests -/

/-- The id map lists what rests. -/
theorem Repr.mem_resting (hr : b.Repr ps none) {x : RestingOrder} :
    x ∈ b.resting ↔ x ∈ (b.view ps).orders := by
  have hmem : ∀ id p, (∃ i < b.idMap.capacity, b.idMap.slots i = some (id, p)) ↔
      p ∈ ps ∧ (b.heap p).id = id := hr.idMem
  rw [resting, List.mem_filterMap, view, List.mem_map]
  constructor
  · rintro ⟨i, hi, hx⟩
    rw [Option.map_eq_some_iff] at hx
    obtain ⟨⟨id, p⟩, hslot, rfl⟩ := hx
    exact ⟨p, ((hmem id p).1 ⟨i, List.mem_range.1 hi, hslot⟩).1, rfl⟩
  · rintro ⟨p, hp, rfl⟩
    obtain ⟨i, hi, hslot⟩ := (hmem _ p).2 ⟨hp, rfl⟩
    exact ⟨i, List.mem_range.2 hi, by rw [hslot]; rfl⟩

/-- It lists each order once. -/
theorem Repr.resting_perm (hr : b.Repr ps none) (hw : (b.view ps).Wf) :
    b.resting.Perm (b.view ps).orders := by
  refine (List.perm_ext_iff_of_nodup ?_ (List.Nodup.of_map _ hw.ids)).2 fun x => hr.mem_resting
  rw [resting, List.Nodup, List.pairwise_filterMap]
  refine List.nodup_range.imp_of_mem fun {i j} hi hj hne x hx y hy hxy => hne ?_
  rw [Option.map_eq_some_iff] at hx hy
  obtain ⟨⟨id, p⟩, hi', rfl⟩ := hx
  obtain ⟨⟨id', p'⟩, hj', hyx⟩ := hy
  rw [List.mem_range] at hi hj
  have hid : (b.heap p).id = id := ((hr.idMem id p).1 ⟨i, hi, hi'⟩).2
  have hid' : (b.heap p').id = id' := ((hr.idMem id' p').1 ⟨j, hj, hj'⟩).2
  have hsame : id' = id := by
    rw [← hid, ← hid']
    exact congrArg RestingOrder.id (hyx.trans hxy.symm)
  rw [hsame] at hj'
  exact hr.idInv.uniq i hi j hj id p p' hi' hj'

/-! ## Conditions along a run -/

theorem Along.head {P : OrderBook → Call → Prop} {c : Call} {out : Sinks}
    {cs : List (Call × Sinks)} (h : b.Along P ((c, out) :: cs)) : P b c := h.1

theorem Along.tail {P : OrderBook → Call → Prop} {c : Call} {out : Sinks} {r : Reply}
    {cs : List (Call × Sinks)} (h : b.Along P ((c, out) :: cs)) (hcall : b.call c out = some (r, b')) :
    b'.Along P cs :=
  h.2 (r, b') hcall

theorem along_of_forall {P : Call → Prop} {calls : List (Call × Sinks)}
    (h : ∀ c ∈ calls, P c.1) : b.Along (fun _ => P) calls := by
  induction calls generalizing b with
  | nil => trivial
  | cons call calls ih =>
    exact ⟨h _ List.mem_cons_self, fun after _ => ih fun c hc => h c (List.mem_cons_of_mem _ hc)⟩

/-- **The run rule.** What a step keeps, under the condition that holds along the run, holds at
the end of the run. -/
theorem run_induct {I : QueueBook → Prop} {P : OrderBook → Call → Prop} (hwf : ∀ q, I q → q.Wf)
    (hstep : ∀ {b ps c e q'}, b.Repr ps none → I (b.view ps) → P b c →
      QueueBook.Step (b.view ps) c e q' → I q')
    (calls : List (Call × Sinks)) (hr : b.Repr ps none) (hi : I (b.view ps))
    (hok : b.Along P calls) :
    ∃ es b' ps', b.run calls =
        some (List.zipWith QueueBook.Effect.reply es (calls.map Prod.snd), b') ∧
      b'.Repr ps' none ∧ QueueBook.Steps (b.view ps) (calls.map Prod.fst) es (b'.view ps') ∧
      I (b'.view ps') := by
  induction calls generalizing b ps with
  | nil => exact ⟨[], b, ps, rfl, hr, .nil, hi⟩
  | cons call calls ih =>
    obtain ⟨c, out⟩ := call
    obtain ⟨e, b₁, ps₁, hcall, hr₁, hs⟩ := call_spec c hr (hwf _ hi)
    obtain ⟨es, b', ps', hrun, hr', hsteps, hi'⟩ :=
      ih hr₁ (hstep hr hi hok.head hs) (hok.tail (hcall out))
    refine ⟨e :: es, b', ps', ?_, hr', .cons hs hsteps, hi'⟩
    rw [run, hcall]
    change (b₁.run calls).bind _ = _
    rw [hrun]
    rfl

/-- **A run from a fresh book.** -/
theorem run_create_spec {cfg : BookConfig} (h : create cfg = some b) (cs : List Call) :
    ∃ es b' ps', (∀ outs : List Sinks, outs.length = cs.length →
        b.run (cs.zip outs) = some (List.zipWith QueueBook.Effect.reply es outs, b')) ∧
      b'.Repr ps' none ∧ QueueBook.Steps (emptyView cfg) cs es (b'.view ps') := by
  obtain ⟨hr, hview⟩ := repr_create h
  rw [← hview]
  exact run_spec cs hr (by rw [hview]; exact emptyView_wf cfg)

/-- A book that calls have made out of an empty one. -/
def Reached (b : OrderBook) : Prop :=
  ∃ cfg b₀ calls replies, create cfg = some b₀ ∧ b₀.run calls = some (replies, b)

theorem Reached.repr (h : b.Reached) : ∃ ps, b.Repr ps none ∧ (b.view ps).Wf := by
  obtain ⟨cfg, b₀, calls, replies, hcreate, hrun⟩ := h
  obtain ⟨es, b', ps', hrun', hr', hsteps⟩ := run_create_spec hcreate (calls.map Prod.fst)
  have hlen : (calls.map Prod.snd).length = (calls.map Prod.fst).length := by
    rw [List.length_map, List.length_map]
  have hzip : (calls.map Prod.fst).zip (calls.map Prod.snd) = calls := by
    rw [List.zip_map', List.map_id'']
    exact fun _ => rfl
  have hsame := hrun' _ hlen
  rw [hzip, hrun] at hsame
  cases hsame
  exact ⟨ps', hr', hsteps.wf (emptyView_wf cfg)⟩

end OrderBook

end Velox
