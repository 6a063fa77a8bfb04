import Velox.Engine.Canonical

/-!
# How much a sweep takes

The buffers of the matching thread are of a fixed size, so it matters how many trades and how
many removals one order can cause. Both can be read off the book before the order is matched:
`Reach` lists the orders on the levels it crosses, in the order in which matching comes to them,
and `sweep` counts along that list.
-/

namespace Velox

namespace QueueBook

/-- `Reach q o p xs`: from price `p` on, the levels that `o` crosses hold the orders `xs`. -/
inductive Reach (q : QueueBook) (o : NewOrder) : Int → List RestingOrder → Prop
  | done {p} (h : p = emptySentinel o.side.opposite ∨ crosses o.type o.side o.price p = false) :
      Reach q o p []
  | level {p xs} (hp : p ≠ emptySentinel o.side.opposite)
      (hc : crosses o.type o.side o.price p = true)
      (rest : Reach q o (q.nextOccupied o.side.opposite p) xs) :
      Reach q o p (q.queue o.side.opposite (q.cfg.slot p) ++ xs)

/-- The number of trades, and of orders removed by self-trade prevention, when `rem` of `o` is
matched along this list. -/
def sweep (stp : StpPolicy) (o : NewOrder) : List RestingOrder → Int → Nat × Nat
  | [], _ => (0, 0)
  | x :: xs, rem =>
    if rem ≤ 0 then (0, 0)
    else if x.participant = o.participant then
      if stp = .cancelPassive then ((sweep stp o xs rem).1, (sweep stp o xs rem).2 + 1)
      else if stp = .cancelBoth then (0, 1)
      else (0, 0)
    else ((sweep stp o xs (rem - min rem x.remaining)).1 + 1,
      (sweep stp o xs (rem - min rem x.remaining)).2)

/-- What is within reach when the orders `xs` at price `p` are still before the loop. -/
inductive ReachFrom (q : QueueBook) (o : NewOrder) (p : Int) (xs : List RestingOrder) :
    List RestingOrder → Prop
  | done (h : p = emptySentinel o.side.opposite ∨ crosses o.type o.side o.price p = false) :
      ReachFrom q o p xs []
  | level {ys} (hp : p ≠ emptySentinel o.side.opposite)
      (hc : crosses o.type o.side o.price p = true)
      (rest : q.Reach o (q.nextOccupied o.side.opposite p) ys) : ReachFrom q o p xs (xs ++ ys)

section Reach

variable {q m m' : QueueBook} {o : NewOrder} {p rem rem' : Int} {x : RestingOrder}
  {xs ys : List RestingOrder} {oc : MatchOutcome} {ts : List Trade} {vs : List StpVictim}

/-- The levels come to an end. -/
theorem Wf.exists_reach (hw : q.Wf) (o : NewOrder)
    (hp : p = emptySentinel o.side.opposite ∨ q.cfg.inRange p = true) :
    ∃ xs, q.Reach o p xs := by
  generalize hn : q.distanceFrom o.side.opposite p = n
  induction n using Nat.strong_induction_on generalizing p with
  | _ n ih =>
    by_cases hne : p = emptySentinel o.side.opposite
    · exact ⟨[], .done (Or.inl hne)⟩
    · by_cases hc : crosses o.type o.side o.price p = true
      · have hcloser := distanceFrom_nextOccupied hw (hp.resolve_left hne) hne
        obtain ⟨xs, hxs⟩ := ih _ (by omega) (nextOccupied_inRange hw o.side.opposite p) rfl
        exact ⟨_, .level hne hc hxs⟩
      · exact ⟨[], .done (Or.inr (Bool.eq_false_iff.2 hc))⟩

theorem sweep_of_filled (stp : StpPolicy) (o : NewOrder) (xs : List RestingOrder) (h : rem ≤ 0) :
    sweep stp o xs rem = (0, 0) := by
  cases xs with
  | nil => rfl
  | cons x xs => rw [sweep, if_pos h]

/-- Nothing is left to match, so nothing happens. -/
theorem Match.of_nonpos (hm : Match o m rem oc ts vs m' rem') (h : rem ≤ 0) :
    ts = [] ∧ vs = [] := by
  cases hm with
  | exhausted => exact ⟨rfl, rfl⟩
  | noLongerCrosses hpos => exact absurd hpos h.not_gt
  | stale hl | trade hl | stpAggressor hl | stpPassive hl | stpBoth hl =>
    exact absurd hl.rem_pos h.not_gt

theorem Reach.reachFrom (h : q.Reach o p ys) :
    q.ReachFrom o p (q.queue o.side.opposite (q.cfg.slot p)) ys := by
  cases h with
  | done h => exact .done h
  | level hp hc rest => exact .level hp hc rest

theorem ReachFrom.exists_rest (h : q.ReachFrom o p xs ys)
    (hp : p ≠ emptySentinel o.side.opposite) (hc : crosses o.type o.side o.price p = true) :
    ∃ zs, q.Reach o (q.nextOccupied o.side.opposite p) zs ∧ ys = xs ++ zs := by
  cases h with
  | done h =>
    rcases h with h | h
    · exact absurd h hp
    · rw [hc] at h
      cases h
  | level _ _ rest => exact ⟨_, rest, rfl⟩

/-- **Matching makes the trades and removals that were counted.** The induction is on the match
loop; the list of what was within reach follows it order by order. -/
theorem Match.sweep (hm : Match o m rem oc ts vs m' rem') : ∀ {p xs ys}, m.Wf →
    Ahead q m o p xs → q.ReachFrom o p xs ys →
      QueueBook.sweep q.cfg.stp o ys rem = (ts.length, vs.length) := by
  induction hm with
  | @exhausted m rem h =>
    intro p xs ys _ ha hr
    by_cases hpos : 0 < rem
    · have hp : p = emptySentinel o.side.opposite := by
        by_contra hne
        exact h ⟨hpos, by rw [ha.best]; exact hne⟩
      cases hr with
      | done => rfl
      | level hne => exact absurd hp hne
    · exact sweep_of_filled _ _ _ (not_lt.1 hpos)
  | @noLongerCrosses m rem hpos hbest hc =>
    intro p xs ys _ ha hr
    rw [ha.best] at hc
    cases hr with
    | done => rfl
    | level _ hc' =>
      rw [hc] at hc'
      cases hc'
  | @stale m rem oc ts vs m' rem' hl hf _ ih =>
    intro p xs ys hw ha hr
    obtain ⟨-, hp, hc⟩ := hl
    rw [ha.best] at hp hc
    have hxs : xs = [] := by rw [← ha.front_eq hp, hf]
    subst hxs
    rw [ha.best] at ih
    have hempty : m.queue o.side.opposite (m.cfg.slot p) = [] := by
      rw [ha.cfg]
      exact ha.queue hp
    obtain ⟨zs, hrest, rfl⟩ := hr.exists_rest hp hc
    exact ih (hw.levelEmptied hempty) (ha.next hp ha.cfg ha.best fun _ _ => rfl) hrest.reachFrom
  | @trade m rem oc ts vs m' rem' x ys hl hf hpart rest ih =>
    intro p xs zs hw ha hr
    obtain ⟨hpos, hp, hc⟩ := hl
    rw [ha.best] at hp hc
    have hxs : xs = x :: ys := by rw [← ha.front_eq hp, hf]
    subst hxs
    obtain ⟨us, hrest, rfl⟩ := hr.exists_rest hp hc
    rw [List.cons_append, QueueBook.sweep, if_neg hpos.not_ge, if_neg hpart, List.length_cons]
    by_cases hfull : rem ≤ x.remaining
    · -- The aggressor is filled here.
      have hzero : rem - min rem x.remaining = 0 := by omega
      rw [hzero] at rest ⊢
      obtain ⟨rfl, rfl⟩ := rest.of_nonpos le_rfl
      rw [sweep_of_filled _ _ _ le_rfl]
      rfl
    · have hmin : min rem x.remaining = x.remaining := by omega
      have hcfg : (m.bumpTradeId.fill x (min rem x.remaining)).cfg = q.cfg := by
        rw [fill_cfg]
        exact ha.cfg
      have hbest : (m.bumpTradeId.fill x (min rem x.remaining)).best o.side.opposite = p := by
        rw [fill_best]
        exact (by cases o.side <;> rfl : m.bumpTradeId.best o.side.opposite = _).trans ha.best
      have horders : (m.bumpTradeId.fill x (min rem x.remaining)).orders =
          (m.remove x.id).orders := by
        rw [fill, if_pos hmin.symm]
        rfl
      have hw' := hw.afterTrade hpos hf
      rw [afterTrade, ha.best] at ih hw'
      rcases ha.removed hw hp hcfg hbest horders with ⟨-, ha'⟩ | ⟨hnil, ha'⟩
      · rw [ih hw' ha' (.level hp hc hrest)]
      · subst hnil
        rw [List.nil_append, ih hw' ha' hrest.reachFrom]
  | @stpAggressor m rem x ys hl hf hpart hstp =>
    intro p xs zs hw ha hr
    obtain ⟨hpos, hp, hc⟩ := hl
    rw [ha.best] at hp hc
    have hxs : xs = x :: ys := by rw [← ha.front_eq hp, hf]
    subst hxs
    obtain ⟨us, hrest, rfl⟩ := hr.exists_rest hp hc
    rw [← ha.cfg, List.cons_append, QueueBook.sweep, if_neg hpos.not_ge, if_pos hpart, hstp]
    rfl
  | @stpPassive m rem oc ts vs m' rem' x ys hl hf hpart hstp rest ih =>
    intro p xs zs hw ha hr
    obtain ⟨hpos, hp, hc⟩ := hl
    rw [ha.best] at hp hc
    have hxs : xs = x :: ys := by rw [← ha.front_eq hp, hf]
    subst hxs
    obtain ⟨us, hrest, rfl⟩ := hr.exists_rest hp hc
    have hw' := hw.afterVictim (o := o) (x := x)
    rw [afterVictim, ha.best] at ih hw'
    have hcfg : (m.remove x.id).cfg = q.cfg := ha.cfg
    have hbest : (m.remove x.id).best o.side.opposite = p :=
      (by cases o.side <;> rfl : (m.remove x.id).best o.side.opposite = _).trans ha.best
    have hcount : QueueBook.sweep q.cfg.stp o (ys ++ us) rem = (ts.length, vs.length) := by
      rcases ha.removed hw hp hcfg hbest rfl with ⟨-, ha'⟩ | ⟨hnil, ha'⟩
      · exact ih hw' ha' (.level hp hc hrest)
      · subst hnil
        exact ih hw' ha' hrest.reachFrom
    rw [ha.cfg] at hstp
    rw [List.cons_append, QueueBook.sweep, if_neg hpos.not_ge, if_pos hpart, hcount,
      if_pos hstp, List.length_cons]
  | @stpBoth m rem x ys hl hf hpart hstp =>
    intro p xs zs hw ha hr
    obtain ⟨hpos, hp, hc⟩ := hl
    rw [ha.best] at hp hc
    have hxs : xs = x :: ys := by rw [← ha.front_eq hp, hf]
    subst hxs
    obtain ⟨us, hrest, rfl⟩ := hr.exists_rest hp hc
    rw [← ha.cfg, List.cons_append, QueueBook.sweep, if_neg hpos.not_ge, if_pos hpart, hstp]
    rfl

end Reach

/-- How many trades and removals a call makes, read off the book before it. A call that is
rejected sweeps nothing. -/
inductive Sweeps (q : QueueBook) : Call → Nat × Nat → Prop
  | submit {o xs} (ha : q.Admits o) (hr : q.Reach o (q.best o.side.opposite) xs) :
      Sweeps q (.submit o) (sweep q.cfg.stp o xs o.quantity)
  | replace {oldId fresh old q₁ xs} (h : q.checkReplace oldId fresh = none)
      (hc : q.Cancels oldId old q₁) (ha : q₁.Admits fresh)
      (hr : q₁.Reach fresh (q₁.best fresh.side.opposite) xs) :
      Sweeps q (.replace oldId fresh) (sweep q₁.cfg.stp fresh xs fresh.quantity)

section Sweeps

variable {q q' : QueueBook} {o : NewOrder} {ts : List Trade} {vs : List StpVictim}
  {xs : List RestingOrder}

/-- A submit sweeps what was counted, or is rejected. -/
theorem Submits.sweep {r : OrderResult} (h : q.Submits o r ts vs q') (hw : q.Wf) :
    (¬ q.Admits o ∧ ts = [] ∧ vs = []) ∨ q.Admits o ∧ ∀ xs,
      q.Reach o (q.best o.side.opposite) xs →
        QueueBook.sweep q.cfg.stp o xs o.quantity = (ts.length, vs.length) := by
  have hmatch : ∀ {rem oc q₁}, Match o q.arrive o.quantity oc ts vs q₁ rem → ∀ xs,
      q.Reach o (q.best o.side.opposite) xs →
        QueueBook.sweep q.cfg.stp o xs o.quantity = (ts.length, vs.length) :=
    fun hm xs hr => hm.sweep hw.arrive (q.ahead_arrive o) hr.reachFrom
  cases h with
  | rejected h =>
    refine Or.inl ⟨fun ha => ?_, rfl, rfl⟩
    rw [ha.check] at h
    cases h
  | unfillable _ ht hs hn =>
    refine Or.inl ⟨fun ha => ?_, rfl, rfl⟩
    obtain ⟨n', hs', hn'⟩ := ha.fok ht
    rw [hs.det hs'] at hn
    exact absurd hn' hn.not_ge
  | stp ha hm | rested ha hm | exhausted ha hm | filled ha hm | residual ha hm
  | fokResidual ha hm => exact Or.inr ⟨ha, hmatch hm⟩

/-- **A call makes the trades and removals it sweeps.** -/
theorem Sweeps.count {c : Call} {n : Nat × Nat} {e : Effect} (hs : q.Sweeps c n)
    (h : q.Step c e q') (hw : q.Wf) : n = (e.trades.length, e.victims.length) := by
  cases hs with
  | submit ha hr =>
    cases h with
    | submit h =>
      rcases h.sweep hw with ⟨hna, -⟩ | ⟨-, hcount⟩
      · exact absurd ha hna
      · exact hcount _ hr
  | replace hcheck hc ha hr =>
    cases h with
    | replaceRejected h =>
      rw [hcheck] at h
      cases h
    | replaced _ hc' hs' =>
      obtain ⟨-, rfl⟩ := hc.det hw hc'
      rcases hs'.sweep (hc.wf hw) with ⟨hna, -⟩ | ⟨-, hcount⟩
      · exact absurd ha hna
      · exact hcount _ hr

/-- A call that makes any trade or removal is one that sweeps. -/
theorem Step.sweeps {c : Call} {e : Effect} (h : q.Step c e q') (hw : q.Wf) :
    e.trades = [] ∧ e.victims = [] ∨ q.Sweeps c (e.trades.length, e.victims.length) := by
  cases h with
  | @submit o r ts vs q' h =>
    rcases h.sweep hw with ⟨-, hnil⟩ | ⟨ha, hcount⟩
    · exact Or.inl hnil
    · obtain ⟨xs, hr⟩ := hw.exists_reach o (hw.best o.side.opposite)
      exact Or.inr (hcount xs hr ▸ .submit ha hr)
  | cancel | replaceRejected => exact Or.inl ⟨rfl, rfl⟩
  | @replaced oldId fresh old q₁ r ts vs q' hcheck hc hs =>
    rcases hs.sweep (hc.wf hw) with ⟨-, hnil⟩ | ⟨ha, hcount⟩
    · exact Or.inl hnil
    · obtain ⟨xs, hr⟩ := (hc.wf hw).exists_reach fresh ((hc.wf hw).best fresh.side.opposite)
      exact Or.inr (hcount xs hr ▸ .replace hcheck hc ha hr)

end Sweeps

end QueueBook

end Velox
