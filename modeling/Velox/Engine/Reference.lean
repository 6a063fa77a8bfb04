import Mathlib.Data.Prod.Lex
import Velox.Engine.Sharp

/-!
# A naive price-time-priority book

`Reference` is what the book is for, without its machinery: a plain list of resting orders. While
the aggressor has quantity left, it takes the crossing opposite order with the best price and
then the smallest arrival number; self-trade prevention applies at that order, and otherwise the
two trade at the resting price. What is left of a limit order rests, if there is room.

A fill-or-kill order is admitted when matching it would fill it: the reference simply tries.

On sharp books the match loop is the reference's sweep (`Match.sweep_eq`), and whole calls agree
(`Step.reference`).
-/

namespace Velox

/-- Price first, then arrival. -/
def RestingOrder.key (x : RestingOrder) : ℤ ×ₗ ℤ := toLex (x.side.rank x.price, x.seq)

structure Reference where
  cfg : BookConfig
  orders : List RestingOrder
  seq : Int
  nextTradeId : Int

namespace Reference

def empty (cfg : BookConfig) : Reference := ⟨cfg, [], 0, 0⟩

/-- The opposite orders that `o` crosses. -/
def candidates (r : Reference) (o : NewOrder) : List RestingOrder :=
  r.orders.filter fun x =>
    decide (x.side = o.side.opposite ∧ crosses o.type o.side o.price x.price = true)

/-- The one that comes first. -/
def pick (r : Reference) (o : NewOrder) : Option RestingOrder :=
  (r.candidates o).minOn? RestingOrder.key

def remove (r : Reference) (id : Int) : Reference :=
  { r with orders := r.orders.filter fun x => decide (x.id ≠ id) }

/-- A trade of `qty` with `x`. -/
def trade (r : Reference) (x : RestingOrder) (qty : Int) : Reference :=
  let orders := if x.remaining = qty then (r.remove x.id).orders else r.orders.map fun y =>
    if y.id = x.id then { y with remaining := y.remaining - qty } else y
  { r with orders := orders, nextTradeId := r.nextTradeId + 1 }

/-- What matching an order comes to. -/
structure Sweep where
  book : Reference
  rem : Int
  trades : List Trade
  victims : List StpVictim
  stpFired : Bool

/-- Match `rem` of `o`. Each round ends the matching or takes an order off the list, so as many
rounds as there are orders are enough. -/
def sweep (o : NewOrder) : Nat → Reference → Int → Sweep
  | 0, r, rem => ⟨r, rem, [], [], false⟩
  | rounds + 1, r, rem =>
    if 0 < rem then
      match r.pick o with
      | none => ⟨r, rem, [], [], false⟩
      | some x =>
        if x.participant = o.participant then
          match r.cfg.stp with
          | .cancelAggressor => ⟨r, rem, [], [], true⟩
          | .cancelPassive =>
            let s := sweep o rounds (r.remove x.id) rem
            { s with victims := x :: s.victims }
          | .cancelBoth => ⟨r.remove x.id, rem, [], [x], true⟩
        else
          let qty := min rem x.remaining
          let t : Trade := ⟨r.nextTradeId, o.id, x.id, x.price, qty, o.side⟩
          let s := sweep o rounds (r.trade x qty) (rem - qty)
          { s with trades := t :: s.trades }
    else
      ⟨r, rem, [], [], false⟩

def sweepAll (r : Reference) (o : NewOrder) : Sweep :=
  sweep o (r.orders.length + 1) r o.quantity

/-- Why an order is refused, if it is. -/
def check (r : Reference) (o : NewOrder) : Option SubmitStatus :=
  if o.quantity ≤ 0 then some .rejectedInvalidQuantity
  else if o.type ≠ .market ∧ r.cfg.inRange o.price = false then some .rejectedPriceOutOfRange
  else if r.orders.any (fun x => decide (x.id = o.id)) then some .rejectedDuplicateId
  else if o.type = .market ∧ r.orders.any (fun x => decide (x.side = o.side.opposite)) = false then
    some .rejectedMarketIntoEmptyBook
  else if o.type = .fok ∧ 0 < (r.sweepAll o).rem then some .rejectedFokUnfillable
  else none

/-- What becomes of an order that was matched. -/
def dispose (r : Reference) (o : NewOrder) (seq rem : Int) : SubmitStatus × Bool × Reference :=
  if 0 < rem then
    match o.type with
    | .limit =>
      if r.orders.length < r.cfg.maxOrders then
        (.ok, true, { r with orders := r.orders ++ [o.resting seq rem] })
      else (.rejectedPoolExhausted, false, r)
    | .market | .ioc => (.cancelledResidual, false, r)
    | .fok => (.rejectedFokUnfillable, false, r)
  else (.ok, false, r)

def submit (r : Reference) (o : NewOrder) : QueueBook.Effect × Reference :=
  match r.check o with
  | some status => (⟨{ o.result with status := status }, none, [], []⟩, r)
  | none =>
    let s := { r with seq := r.seq + 1 }.sweepAll o
    let (status, rested, r') := if s.stpFired then (.cancelledBySelfTradePrevention, false, s.book)
      else s.book.dispose o (r.seq + 1) s.rem
    let result := { o.result with
      status := status, filled := o.quantity - s.rem, remaining := s.rem, rested := rested,
      seq := r.seq + 1 }
    (⟨result, none, s.trades, s.victims⟩, r')

def cancel (r : Reference) (id : Int) : OrderResult × Reference :=
  match r.orders.find? fun x => decide (x.id = id) with
  | none => ({ status := .rejectedUnknownOrder }, r)
  | some x => (x.cancelled, r.remove id)

/-- Why a replace is refused, if it is. -/
def checkReplace (r : Reference) (oldId : Int) (fresh : NewOrder) : Option SubmitStatus :=
  if r.orders.any (fun x => decide (x.id = oldId)) = false then some .rejectedUnknownOrder
  else if fresh.quantity ≤ 0 then some .rejectedInvalidQuantity
  else if fresh.type ≠ .market ∧ r.cfg.inRange fresh.price = false then
    some .rejectedPriceOutOfRange
  else if fresh.id ≠ oldId ∧ r.orders.any (fun x => decide (x.id = fresh.id)) = true then
    some .rejectedDuplicateId
  else none

def replace (r : Reference) (oldId : Int) (fresh : NewOrder) : QueueBook.Effect × Reference :=
  match r.checkReplace oldId fresh with
  | some status => (⟨{ status := status }, none, [], []⟩, r)
  | none =>
    let (old, r) := r.cancel oldId
    let (e, r) := r.submit fresh
    ({ e with oldResult := some old }, r)

def call (r : Reference) : Call → QueueBook.Effect × Reference
  | .submit o => r.submit o
  | .cancel id =>
    let (result, r) := r.cancel id
    (⟨result, none, [], []⟩, r)
  | .replace oldId fresh => r.replace oldId fresh

def run (r : Reference) : List Call → List QueueBook.Effect × Reference
  | [] => ([], r)
  | c :: cs =>
    let (e, r) := r.call c
    let (es, r) := r.run cs
    (e :: es, r)

/-! ## Picking -/

/-- What comes strictly before everything else is picked. -/
theorem pick_eq_some {r : Reference} {o : NewOrder} {x : RestingOrder} (hx : x ∈ r.candidates o)
    (hlt : ∀ y ∈ r.candidates o, y ≠ x → x.key < y.key) : r.pick o = some x := by
  have hne : r.candidates o ≠ [] := List.ne_nil_of_mem hx
  rw [pick, List.minOn?_eq_some_minOn hne]
  by_contra hno
  have hother : List.minOn RestingOrder.key (r.candidates o) hne ≠ x := fun h => hno (by rw [h])
  have hle := List.apply_minOn_le_of_mem (f := RestingOrder.key) hx
  exact absurd (hlt _ List.minOn_mem hother) (not_lt.2 hle)

theorem pick_eq_none {r : Reference} {o : NewOrder} (h : r.candidates o = []) :
    r.pick o = none := by
  rw [pick, h]
  rfl

theorem mem_candidates {r : Reference} {o : NewOrder} {x : RestingOrder} :
    x ∈ r.candidates o ↔ x ∈ r.orders ∧ x.side = o.side.opposite ∧
      crosses o.type o.side o.price x.price = true := by
  rw [candidates, List.mem_filter, decide_eq_true_eq]

/-- Nothing is left to match. -/
theorem sweep_of_filled {o : NewOrder} {r : Reference} {rem : Int} (h : ¬ 0 < rem) (rounds : Nat) :
    sweep o rounds r rem = ⟨r, rem, [], [], false⟩ := by
  cases rounds with
  | zero => rfl
  | succ rounds => rw [sweep, if_neg h]

end Reference

/-! ## The match loop is the sweep -/

namespace QueueBook

/-- The plain list. -/
def ref (q : QueueBook) : Reference := ⟨q.cfg, q.orders, q.seq, q.nextTradeId⟩

variable {q q' : QueueBook} {o : NewOrder} {x : RestingOrder} {xs : List RestingOrder}
  {rem rem' : Int} {oc : MatchOutcome} {ts : List Trade} {vs : List StpVictim}

/-- The head of the front comes before every other crossing order. -/
theorem Sharp.pick_front (hs : q.Sharp) (hl : q.Looks o rem) (hf : q.front o = x :: xs) :
    q.ref.pick o = some x := by
  have hxf : x ∈ q.front o := by
    rw [hf]
    exact List.mem_cons_self
  have hprice := hs.front_price hl.hasBest hxf
  obtain ⟨hx, hside, hslot⟩ := mem_of_front hf
  refine Reference.pick_eq_some (Reference.mem_candidates.2 ⟨hx, hside, ?_⟩) fun y hy hne => ?_
  · rw [hprice]
    exact hl.crosses
  · obtain ⟨hy, hyside, -⟩ := Reference.mem_candidates.1 hy
    have hle := (hs.best_le hy).2
    rw [hyside, ← hprice] at hle
    rw [RestingOrder.key, RestingOrder.key, Prod.Lex.toLex_lt_toLex, hside, hyside]
    rcases hle.lt_or_eq with hlt | heq
    · exact Or.inl hlt
    · -- At the same price it stands further back in the same queue.
      refine Or.inr ⟨heq, ?_⟩
      have hyf : y ∈ q.front o := by
        refine mem_queue.2 ⟨hy, hyside, ?_⟩
        rw [← Side.rank_inj heq, hslot]
      have hsorted := hs.wf.seqs o.side.opposite (q.cfg.slot (q.best o.side.opposite))
      rw [← front, hf, List.pairwise_cons] at hsorted
      rw [hf, List.mem_cons] at hyf
      exact hsorted.1 y (hyf.resolve_left hne)

/-- Nothing crosses unless the best price does. -/
theorem Sharp.pick_none (hs : q.Sharp)
    (h : q.best o.side.opposite ≠ emptySentinel o.side.opposite →
      crosses o.type o.side o.price (q.best o.side.opposite) = false) : q.ref.pick o = none := by
  refine Reference.pick_eq_none (List.eq_nil_iff_forall_not_mem.2 fun x hx => ?_)
  obtain ⟨hx, hside, hc⟩ := Reference.mem_candidates.1 hx
  obtain ⟨hne, hle⟩ := hs.best_le hx
  rw [hside] at hne hle
  rw [crosses_mono hle hc] at h
  exact absurd (h hne) (by decide)

theorem ref_remove (q : QueueBook) (id : Int) : (q.remove id).ref = q.ref.remove id := rfl

theorem ref_settle (q : QueueBook) (s : Side) (p : Int) : (q.settle s p).ref = q.ref := by
  rw [ref, settle_cfg, settle_orders, settle_seq, settle_nextTradeId]
  rfl

theorem ref_afterVictim (q : QueueBook) (o : NewOrder) (x : RestingOrder) :
    (q.afterVictim o x).ref = q.ref.remove x.id := by
  rw [afterVictim, ref_settle, ref_remove]

theorem ref_afterTrade (q : QueueBook) (o : NewOrder) (x : RestingOrder) (rem : Int) :
    (q.afterTrade o x rem).ref = q.ref.trade x (min rem x.remaining) := by
  rw [afterTrade, ref_settle, fill, Reference.trade]
  split <;> rfl

theorem remove_length_lt (hx : x ∈ q.orders) : (q.remove x.id).orders.length < q.orders.length :=
  List.length_filter_lt_length_iff_exists.2 ⟨x, hx, by simp⟩

/-- A trade that leaves something to match has taken an order off the list. -/
theorem afterTrade_length_lt (hx : x ∈ q.orders) (h : 0 < rem - min rem x.remaining) :
    (q.afterTrade o x rem).orders.length < q.orders.length := by
  have hfull : x.remaining = min rem x.remaining := by omega
  rw [afterTrade_orders, fill, if_pos hfull]
  exact remove_length_lt hx

/-- **The match loop does what the sweep does.** -/
theorem Match.sweep_eq (hm : Match o q rem oc ts vs q' rem') :
    ∀ {rounds : Nat}, q.Sharp → q.orders.length < rounds →
      Reference.sweep o rounds q.ref rem = ⟨q'.ref, rem', ts, vs, decide (oc = .stpFired)⟩ := by
  induction hm with
  | @exhausted q rem h =>
    intro rounds hs hlen
    by_cases hpos : 0 < rem
    · obtain ⟨n, rfl⟩ : ∃ n, rounds = n + 1 := ⟨rounds - 1, by omega⟩
      rw [Reference.sweep, if_pos hpos, hs.pick_none fun hne => absurd ⟨hpos, hne⟩ h]
      rfl
    · exact Reference.sweep_of_filled hpos rounds
  | @noLongerCrosses q rem hpos _ hc =>
    intro rounds hs hlen
    obtain ⟨n, rfl⟩ : ∃ n, rounds = n + 1 := ⟨rounds - 1, by omega⟩
    rw [Reference.sweep, if_pos hpos, hs.pick_none fun _ => hc]
    rfl
  | stale hl hf =>
    intro rounds hs _
    exact absurd hf (hs.front_ne_nil hl.hasBest)
  | @trade q rem oc ts vs q' rem' x xs hl hf hp rest ih =>
    intro rounds hs hlen
    obtain ⟨n, rfl⟩ : ∃ n, rounds = n + 1 := ⟨rounds - 1, by omega⟩
    have hx := (mem_of_front hf).1
    have hrest : Reference.sweep o n (q.afterTrade o x rem).ref (rem - min rem x.remaining) =
        ⟨q'.ref, rem', ts, vs, decide (oc = .stpFired)⟩ := by
      by_cases hleft : 0 < rem - min rem x.remaining
      · exact ih (hs.afterTrade hl hf) (by
          have := afterTrade_length_lt (o := o) hx hleft
          omega)
      · rw [Reference.sweep_of_filled hleft]
        cases rest with
        | exhausted => rfl
        | noLongerCrosses hpos => exact absurd hpos hleft
        | stale hl' | trade hl' | stpAggressor hl' | stpPassive hl' | stpBoth hl' =>
          exact absurd hl'.rem_pos hleft
    rw [Reference.sweep, if_pos hl.rem_pos, hs.pick_front hl hf]
    simp only [if_neg hp]
    rw [← ref_afterTrade q o, hrest]
    rfl
  | @stpAggressor q rem x xs hl hf hp hstp =>
    intro rounds hs hlen
    obtain ⟨n, rfl⟩ : ∃ n, rounds = n + 1 := ⟨rounds - 1, by omega⟩
    rw [Reference.sweep, if_pos hl.rem_pos, hs.pick_front hl hf]
    simp only [if_pos hp, show q.ref.cfg.stp = .cancelAggressor from hstp]
    rfl
  | @stpPassive q rem oc ts vs q' rem' x xs hl hf hp hstp _ ih =>
    intro rounds hs hlen
    obtain ⟨n, rfl⟩ : ∃ n, rounds = n + 1 := ⟨rounds - 1, by omega⟩
    have hlt := remove_length_lt (mem_of_front hf).1
    have hrest : Reference.sweep o n (q.afterVictim o x).ref rem = _ :=
      ih (hs.afterVictim hl hf) (by rw [afterVictim_orders]; omega)
    rw [ref_afterVictim] at hrest
    rw [Reference.sweep, if_pos hl.rem_pos, hs.pick_front hl hf]
    simp only [if_pos hp, show q.ref.cfg.stp = .cancelPassive from hstp, hrest]
  | @stpBoth q rem x xs hl hf hp hstp =>
    intro rounds hs hlen
    obtain ⟨n, rfl⟩ : ∃ n, rounds = n + 1 := ⟨rounds - 1, by omega⟩
    rw [Reference.sweep, if_pos hl.rem_pos, hs.pick_front hl hf]
    simp only [if_pos hp, show q.ref.cfg.stp = .cancelBoth from hstp, ref_afterVictim]
    rfl

/-- On a sharp book matching always comes to an end. -/
theorem Sharp.exists_match (o : NewOrder) : ∀ (k : Nat) {q : QueueBook} (rem : Int), q.Sharp →
    q.orders.length < k → ∃ oc ts vs q' rem', Match o q rem oc ts vs q' rem' := by
  intro k
  induction k with
  | zero =>
    intro q rem _ hlen
    exact absurd hlen (Nat.not_lt_zero _)
  | succ k ih =>
    intro q rem hs hlen
    by_cases hgo : 0 < rem ∧ q.best o.side.opposite ≠ emptySentinel o.side.opposite
    swap
    · exact ⟨_, _, _, _, _, .exhausted hgo⟩
    cases hc : crosses o.type o.side o.price (q.best o.side.opposite) with
    | false => exact ⟨_, _, _, _, _, .noLongerCrosses hgo.1 hgo.2 hc⟩
    | true =>
      have hl : q.Looks o rem := ⟨hgo.1, hgo.2, hc⟩
      obtain ⟨x, xs, hf⟩ := List.exists_cons_of_ne_nil (hs.front_ne_nil hgo.2)
      have hx := (mem_of_front hf).1
      by_cases hp : x.participant = o.participant
      · cases hstp : q.cfg.stp with
        | cancelAggressor => exact ⟨_, _, _, _, _, .stpAggressor hl hf hp hstp⟩
        | cancelPassive =>
          have hlt := remove_length_lt hx
          obtain ⟨oc, ts, vs, q', rem', hm⟩ := ih rem (hs.afterVictim hl hf)
            (by rw [afterVictim_orders]; omega)
          exact ⟨_, _, _, _, _, .stpPassive hl hf hp hstp hm⟩
        | cancelBoth => exact ⟨_, _, _, _, _, .stpBoth hl hf hp hstp⟩
      · by_cases hleft : 0 < rem - min rem x.remaining
        · have hlt := afterTrade_length_lt (o := o) hx hleft
          obtain ⟨oc, ts, vs, q', rem', hm⟩ := ih _ (hs.afterTrade hl hf) (by omega)
          exact ⟨_, _, _, _, _, .trade hl hf hp hm⟩
        · exact ⟨_, _, _, _, _, .trade hl hf hp (.exhausted fun h => hleft h.1)⟩

/-! ## Whole calls -/

/-- A side has orders exactly when it has a best price. -/
theorem Sharp.any_opposite (hs : q.Sharp) :
    q.orders.any (fun x => decide (x.side = o.side.opposite)) = false ↔
      q.best o.side.opposite = emptySentinel o.side.opposite := by
  rw [hs.best_eq_sentinel, List.any_eq_false]
  simp only [decide_eq_true_eq]

/-- The two books make the same checks; the reference's last one is the fill-or-kill trial. -/
theorem Sharp.check_ref (hs : q.Sharp) : q.ref.check o = match q.check o with
    | some status => some status
    | none => if o.type = .fok ∧ 0 < (q.ref.sweepAll o).rem then some .rejectedFokUnfillable
      else none := by
  rw [Reference.check, check]
  simp only [show q.ref.cfg = q.cfg from rfl, show q.ref.orders = q.orders from rfl,
    hs.any_opposite]
  split
  · rfl
  · split
    · rfl
    · split
      · rfl
      · split <;> rfl

/-- The sweep that the reference makes for `o`, in either of its two states. -/
theorem Match.sweepAll_eq (hm : Match o q.arrive o.quantity oc ts vs q' rem') (hs : q.Sharp) :
    q.arrive.ref.sweepAll o = ⟨q'.ref, rem', ts, vs, decide (oc = .stpFired)⟩ :=
  hm.sweep_eq hs.arrive (Nat.lt_succ_self _)

/-- The arrival counter does not matter for what remains. -/
theorem sweep_seq (o : NewOrder) (n : Nat) (r : Reference) (seq rem : Int) :
    (Reference.sweep o n { r with seq := seq } rem).rem = (Reference.sweep o n r rem).rem := by
  induction n generalizing r rem with
  | zero => rfl
  | succ n ih =>
    have hpick : ({ r with seq := seq } : Reference).pick o = r.pick o := rfl
    rw [Reference.sweep, Reference.sweep, hpick]
    split
    · cases r.pick o with
      | none => rfl
      | some x =>
        dsimp only
        split
        · cases r.cfg.stp with
          | cancelAggressor => rfl
          | cancelPassive => exact ih (r.remove x.id) rem
          | cancelBoth => rfl
        · exact ih (r.trade x (min rem x.remaining)) _
    · rfl

theorem Match.trial_rem (hm : Match o q.arrive o.quantity oc ts vs q' rem') (hs : q.Sharp) :
    (q.ref.sweepAll o).rem = rem' := by
  have h : (q.arrive.ref.sweepAll o).rem = rem' := by rw [hm.sweepAll_eq hs]
  rw [← h]
  exact (sweep_seq o _ q.ref (q.seq + 1) o.quantity).symm

/-- What the reference does with an order it admits. -/
theorem Match.submit_ref (hm : Match o q.arrive o.quantity oc ts vs q' rem') (hs : q.Sharp)
    (hcheck : q.ref.check o = none) {status : SubmitStatus} {rested : Bool} {r' : Reference}
    (h : (if oc = .stpFired then (SubmitStatus.cancelledBySelfTradePrevention, false, q'.ref)
      else q'.ref.dispose o (q.seq + 1) rem') = (status, rested, r')) :
    q.ref.submit o = (⟨{ q.arrived o rem' with status := status, rested := rested }, none, ts, vs⟩,
      r') := by
  have hsweep : ({ q.ref with seq := q.ref.seq + 1 } : Reference).sweepAll o =
      ⟨q'.ref, rem', ts, vs, decide (oc = .stpFired)⟩ := hm.sweepAll_eq hs
  have hdispose : (if oc = .stpFired then (SubmitStatus.cancelledBySelfTradePrevention, false, q'.ref)
      else q'.ref.dispose o (q.ref.seq + 1) rem') = (status, rested, r') := h
  rw [Reference.submit, hcheck]
  simp only [hsweep, decide_eq_true_eq, hdispose]
  rfl

/-- **A submission** is the reference's. -/
theorem Submits.reference {r : OrderResult} (h : q.Submits o r ts vs q') (hs : q.Sharp)
    (hfits : q.FokFits o) : q.ref.submit o = (⟨r, none, ts, vs⟩, q'.ref) := by
  have hcheck := hs.check_ref (o := o)
  -- An order that the book admits passes the trial as well.
  have hpasses : ∀ {oc ts vs q' rem}, q.Admits o → Match o q.arrive o.quantity oc ts vs q' rem →
      q.ref.check o = none := by
    intro oc ts vs q' rem ha hm
    rw [hcheck, ha.check]
    refine if_neg ?_
    rintro ⟨ht, hpos⟩
    rw [hm.trial_rem hs] at hpos
    exact ha.fills ht hs.wf hm hpos
  cases h with
  | @rejected status h =>
    rw [h] at hcheck
    rw [Reference.submit, hcheck]
  | @unfillable n h ht hscan hn =>
    obtain ⟨oc, ts, vs, q₁, rem, hm⟩ :=
      Sharp.exists_match o _ o.quantity hs.arrive (Nat.lt_succ_self _)
    have hpos : 0 < rem := by
      by_contra hno
      have hle := (scan_exact (check_eq_none h).1 ht hfits hs.wf hscan hm).2 hno
      omega
    have hno : o.type = .fok ∧ 0 < (q.ref.sweepAll o).rem := ⟨ht, by rwa [hm.trial_rem hs]⟩
    rw [h] at hcheck
    rw [Reference.submit, hcheck.trans (if_pos hno)]
  | stp ha hm => exact hm.submit_ref hs (hpasses ha hm) (if_pos rfl)
  | @rested oc _ _ q₁ rem ha hm hout ht hrem hroom =>
    have hroom' : q₁.ref.orders.length < q₁.ref.cfg.maxOrders := by
      rw [show q₁.ref.cfg = q.cfg from hm.cfg_eq]
      exact hroom
    refine hm.submit_ref hs (hpasses ha hm) ?_
    rw [if_neg hout, Reference.dispose, if_pos hrem, ht]
    simp only [if_pos hroom']
    rw [ref, ref, add_cfg, add_orders, add_seq, add_nextTradeId]
  | exhausted ha hm hout ht hrem hroom =>
    have hroom' : ¬ q'.ref.orders.length < q'.ref.cfg.maxOrders := by
      rw [show q'.ref.cfg = q.cfg from hm.cfg_eq, not_lt]
      exact hroom
    refine hm.submit_ref hs (hpasses ha hm) ?_
    rw [if_neg hout, Reference.dispose, if_pos hrem, ht]
    simp only [if_neg hroom']
    rfl
  | filled ha hm hout hrem =>
    refine hm.submit_ref hs (hpasses ha hm) ?_
    rw [if_neg hout, Reference.dispose, if_neg hrem]
    rfl
  | residual ha hm hout ht hrem =>
    refine hm.submit_ref hs (hpasses ha hm) ?_
    rw [if_neg hout, Reference.dispose, if_pos hrem]
    rcases ht with ht | ht <;> rw [ht] <;> rfl
  | fokResidual ha hm _ ht hrem => exact absurd hrem (ha.fills ht hs.wf hm)

theorem Cancels.reference {id : Int} {r : OrderResult} (h : q.Cancels id r q') (hs : q.Sharp) :
    q.ref.cancel id = (r, q'.ref) := by
  cases h with
  | unknown h =>
    have hnone : q.orders.find? (fun x => decide (x.id = id)) = none := by
      rw [List.find?_eq_none]
      intro x hx
      rw [decide_eq_true_eq]
      exact h x hx
    rw [Reference.cancel, show q.ref.orders = q.orders from rfl, hnone]
  | @found x hx hid =>
    cases hfind : q.orders.find? (fun x => decide (x.id = id)) with
    | none =>
      have hno := List.find?_eq_none.1 hfind x hx
      rw [decide_eq_true_eq] at hno
      exact absurd hid hno
    | some y =>
      have hy := List.mem_of_find?_eq_some hfind
      have hyid : y.id = id := by simpa using List.find?_some hfind
      have hyx := hs.wf.eq_of_id hy hx (hyid.trans hid.symm)
      subst hyx
      rw [Reference.cancel, show q.ref.orders = q.orders from rfl, hfind, ref_settle]
      rfl

theorem Cancels.orders_subset {id : Int} {r : OrderResult} (h : q.Cancels id r q') :
    q'.orders ⊆ q.orders := by
  cases h with
  | unknown => exact List.Subset.refl _
  | found =>
    rw [settle_orders]
    exact (q.remove_sublist id).subset

/-- **A call** is the reference's. -/
theorem Step.reference {c : Call} {e : Effect} (h : q.Step c e q') (hs : q.Sharp)
    (ha : ∀ o ∈ c.order, o.Aligned q.cfg) (hfits : ∀ o ∈ c.order, q.FokFits o) :
    q.ref.call c = (e, q'.ref) ∧ q'.Sharp := by
  cases h with
  | submit h => exact ⟨h.reference hs (hfits _ rfl), h.sharp hs (ha _ rfl)⟩
  | cancel h =>
    refine ⟨?_, h.sharp hs⟩
    rw [Reference.call, h.reference hs]
  | replaceRejected h =>
    refine ⟨?_, hs⟩
    rw [Reference.call, Reference.replace, show q.ref.checkReplace _ _ = some _ from h]
  | @replaced oldId fresh old q₁ r ts vs _ h hc hsub =>
    have hs₁ := hc.sharp hs
    have hfits₁ : q₁.FokFits fresh := fun ht x hx => hfits fresh rfl ht x (hc.orders_subset hx)
    refine ⟨?_, hsub.sharp hs₁ (by rw [hc.cfg_eq]; exact ha fresh rfl)⟩
    rw [Reference.call, Reference.replace, show q.ref.checkReplace _ _ = none from h]
    simp only [hc.reference hs, hsub.reference hs₁ hfits₁]

end QueueBook

end Velox
