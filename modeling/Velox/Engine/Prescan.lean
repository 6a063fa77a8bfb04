import Velox.Engine.FillOrKill
import Velox.Engine.Canonical

/-!
# Fill or kill

The pre-scan of `submitEx` against the match loop, on the book of the source. Over exact integers
the pre-scan finds the quantity of an order if and only if matching would fill it
(`prescan_exact`). A fill-or-kill order is filled or leaves no trace, even with the 64-bit sums of
the source.
-/

namespace Velox

namespace QueueBook

variable {q q' : QueueBook} {o : NewOrder} {oc : MatchOutcome} {ts : List Trade}
  {vs : List StpVictim} {n rem : Int}

theorem ahead_self (q : QueueBook) (o : NewOrder) : Ahead q q o (q.best o.side.opposite)
    (q.queue o.side.opposite (q.cfg.slot (q.best o.side.opposite))) :=
  ⟨rfl, rfl, fun _ => rfl, fun _ _ _ => rfl, fun _ hx => ⟨(mem_queue.1 hx).1, (mem_queue.1 hx).2.1⟩⟩

/-- Over exact integers nothing can wrap around. -/
theorem scan_iff_filled (hw : q.Wf) (hq : 0 < o.quantity)
    (hs : q.Scan o (· + ·) (q.best o.side.opposite) 0 n)
    (hm : q.Match o o.quantity oc ts vs q' rem) : o.quantity ≤ n ↔ rem = 0 := by
  have hagrees := hm.scan (fun _ _ _ _ _ _ => rfl) hw (q.ahead_self o)
    ⟨le_rfl, hq, (sub_zero _).symm⟩ hs.from_queue
  have hbounds := hm.rem_bounds hw hq.le
  constructor
  · intro h
    have := hagrees.sound h
    omega
  · intro h
    exact hagrees.complete (fun _ _ _ _ _ _ h => h) (by omega)

/-- Where no addition can wrap around, the walk along a queue adds up exactly. -/
theorem scanQueue_exact {stp : StpPolicy} {xs : List RestingOrder} {sum : Int}
    (hpos : ∀ x ∈ xs, 0 < x.remaining) (hfits : ∀ x ∈ xs, o.quantity + x.remaining ≤ 2 ^ 63)
    (h0 : 0 ≤ sum) (hlt : sum < o.quantity) :
    scanQueue stp o add64 xs sum = scanQueue stp o (· + ·) xs sum ∧
      ∀ sum', scanQueue stp o (· + ·) xs sum = (false, sum') → 0 ≤ sum' ∧ sum' < o.quantity := by
  induction xs generalizing sum with
  | nil =>
    refine ⟨rfl, fun sum' h => ?_⟩
    obtain ⟨-, rfl⟩ := Prod.mk.inj h
    exact ⟨h0, hlt⟩
  | cons x xs ih =>
    have hx := hpos x List.mem_cons_self
    have hfit := hfits x List.mem_cons_self
    have hadd : add64 sum x.remaining = sum + x.remaining := add64_of_fits (by omega) (by omega)
    have ih' := fun {sum} => @ih sum (fun y hy => hpos y (List.mem_cons_of_mem _ hy))
      fun y hy => hfits y (List.mem_cons_of_mem _ hy)
    simp only [scanQueue, hadd]
    split
    · split
      · exact ih' h0 hlt
      · exact ⟨rfl, fun _ h => by cases h⟩
    · split
      · exact ⟨rfl, fun _ h => by cases h⟩
      · exact ih' (by omega) (by omega)

theorem Scan.exact (hw : q.Wf) (hfits : q.FokFits o) (ht : o.type = .fok) {p sum : Int}
    (h : q.Scan o add64 p sum n) (h0 : 0 ≤ sum) (hlt : sum < o.quantity) :
    q.Scan o (· + ·) p sum n := by
  have hqueue := fun (i : Nat) {sum : Int} => @scanQueue_exact o q.cfg.stp
    (q.queue o.side.opposite i) sum (fun x hx => (hw.positive x (mem_queue.1 hx).1).1)
    fun x hx => hfits ht x (mem_queue.1 hx).1 (mem_queue.1 hx).2.1
  induction h with
  | done h => exact .done h
  | returned hp hc h =>
    rw [(hqueue _ h0 hlt).1] at h
    exact .returned hp hc h
  | next hp hc h _ ih =>
    rw [(hqueue _ h0 hlt).1] at h
    obtain ⟨h0', hlt'⟩ := (hqueue _ h0 hlt).2 _ h
    exact .next hp hc h (ih h0' hlt')

/-- What a fill-or-kill order can fail on before the pre-scan. -/
theorem check_fok {status : SubmitStatus} (h : q.check o = some status) (hq : 0 < o.quantity)
    (ht : o.type = .fok) :
    status = .rejectedPriceOutOfRange ∨ status = .rejectedDuplicateId := by
  have hpositive : ¬ o.quantity ≤ 0 := by omega
  have hmarket : ¬ (o.type = .market ∧ q.best o.side.opposite = emptySentinel o.side.opposite) := by
    rw [ht]
    exact fun h => nomatch h.1
  rw [check, if_neg hpositive, if_neg hmarket] at h
  split_ifs at h <;> cases h
  · exact .inl rfl
  · exact .inr rfl

end QueueBook

namespace OrderBook

variable {b : OrderBook} {ps : List Ptr} {o : NewOrder}

/-- A fill-or-kill order that gets past the pre-scan ends filled: the last branch of `submitEx` for
its type is never taken with something remaining. -/
theorem accept_fok (hr : b.Repr ps none) (hw : (b.view ps).Wf) (ha : (b.view ps).Admits o)
    (ht : o.type = .fok) : ∃ b' ts vs, ∀ out, b.accept o out o.result =
      some ({ (b.view ps).arrived o 0 with status := .ok }, out.pushAll ts vs, b') := by
  obtain ⟨oc, b₁, ps₁, rem, ts, vs, hrun, -, hm⟩ :=
    matchInto_spec (o := o) o.quantity hr.arrive hw.arrive
  have hm' : (b.view ps).arrive.Match o o.quantity oc ts vs (b₁.view ps₁) rem := hm
  have hdone := ha.fills ht hw hm'
  have hbounds := hm'.rem_bounds hw.arrive (QueueBook.check_eq_none ha.check).1.le
  obtain rfl : rem = 0 := by omega
  have hoc : oc ≠ .stpFired := by
    rintro rfl
    exact hdone hm'.stp_rem_pos
  refine ⟨b₁, ts, vs, fun out => ?_⟩
  simp only [accept, hrun, Option.bind_eq_bind, Option.bind_some, if_neg hoc, disposeResidual, ht]
  rfl

/-- **The pre-scan is exact**, and a fill-or-kill order is filled completely or leaves no trace. -/
theorem prescan_exact (hb : b.Reached) {o : NewOrder} (hq : 0 < o.quantity) (out : Sinks) :
    (∃ n oc st, b.availableWith (· + ·) o = some n ∧
      b.matchInto o out o.quantity = some (oc, st) ∧ (o.quantity ≤ n ↔ st.remaining = 0)) ∧
    (o.type = .fok → ∃ r out' b', b.submitEx o out = some (r, out', b') ∧
      ((r.status = .ok ∧ r.filled = o.quantity ∧ r.remaining = 0) ∨
        (r.status = .rejectedFokUnfillable ∨ r.status = .rejectedPriceOutOfRange ∨
          r.status = .rejectedDuplicateId) ∧ out' = out ∧ b' = b)) := by
  obtain ⟨ps, hr, hw⟩ := hb.repr
  constructor
  · obtain ⟨n, havail, hs⟩ := availableWith_spec (o := o) (· + ·) hr hw
    obtain ⟨oc, b', ps', rem, ts, vs, hrun, -, hm⟩ := matchInto_spec (o := o) o.quantity hr hw
    exact ⟨n, oc, _, havail, hrun out, QueueBook.scan_iff_filled hw hq hs hm⟩
  · intro ht
    rcases submitEx_eq o hr hw with ⟨status, hcheck, hrun⟩ | ⟨n, -, -, -, -, -, hrun⟩ | ⟨ha, hrun⟩
    · exact ⟨_, _, _, hrun out, .inr ⟨.inr (QueueBook.check_fok hcheck hq ht), rfl, rfl⟩⟩
    · exact ⟨_, _, _, hrun out, .inr ⟨.inl rfl, rfl, rfl⟩⟩
    · obtain ⟨b', ts, vs, haccept⟩ := accept_fok hr hw ha ht
      exact ⟨_, _, _, (hrun out).trans (haccept out), .inl ⟨rfl, sub_zero _, rfl⟩⟩

/-- The sum of the pre-scan is the exact one, and an order is refused only if it falls short. -/
theorem availableAgainst_exact (hr : b.Repr ps none) (hw : (b.view ps).Wf)
    (hfits : (b.view ps).FokFits o) (ht : o.type = .fok) (hq : 0 < o.quantity) :
    ∃ n, b.availableAgainst o = some n ∧ b.availableWith (· + ·) o = some n ∧
      (o.quantity ≤ n → ∀ out, ∃ r out' b', b.submitEx o out = some (r, out', b') ∧
        r.status ≠ .rejectedFokUnfillable) := by
  obtain ⟨n, havail, hs⟩ := availableWith_spec (o := o) QueueBook.add64 hr hw
  obtain ⟨n', havail', hs'⟩ := availableWith_spec (o := o) (· + ·) hr hw
  obtain rfl : n = n' := (hs.exact hw hfits ht le_rfl hq).det hs'
  rw [availableWith_add64] at havail
  refine ⟨n, havail, havail', fun hle out => ?_⟩
  rcases submitEx_eq o hr hw with ⟨status, hcheck, hrun⟩ | ⟨m, -, -, hm, -, hlt, -⟩ | ⟨ha, hrun⟩
  · refine ⟨_, _, _, hrun out, fun hstatus => ?_⟩
    rcases QueueBook.check_fok hcheck hq ht with rfl | rfl <;> cases hstatus
  · rw [havail] at hm
    obtain rfl := Option.some.inj hm
    omega
  · obtain ⟨b', ts, vs, haccept⟩ := accept_fok hr hw ha ht
    exact ⟨_, _, _, (hrun out).trans (haccept out), fun hstatus => by cases hstatus⟩

/-- A book that offers five at 110. -/
def offering : List Reply × OrderBook :=
  ((create smallConfig).bind
    (·.run [(.submit ⟨1, 110, 5, 1, .sell, .limit⟩, .empty 4)])).get (by decide +kernel)

theorem offering_reached : offering.2.Reached := by
  have hrun : (create smallConfig).bind
      (·.run [(.submit ⟨1, 110, 5, 1, .sell, .limit⟩, .empty 4)]) = some offering :=
    (Option.some_get _).symm
  obtain ⟨b₀, hb₀, hrun⟩ := Option.bind_eq_some_iff.1 hrun
  exact ⟨smallConfig, b₀, _, offering.1, hb₀, hrun⟩

theorem prescan_exact_offering : ∃ n oc st,
    offering.2.availableWith (· + ·) ⟨2, 110, 3, 2, .buy, .fok⟩ = some n ∧
    offering.2.matchInto ⟨2, 110, 3, 2, .buy, .fok⟩ (.empty 4) 3 = some (oc, st) ∧
    (3 ≤ n ↔ st.remaining = 0) :=
  (prescan_exact offering_reached (o := ⟨2, 110, 3, 2, .buy, .fok⟩) (by decide) (.empty 4)).1

end OrderBook

end Velox
