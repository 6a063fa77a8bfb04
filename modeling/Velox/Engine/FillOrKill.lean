import Velox.Engine.QueueCalls

/-!
# The fill-or-kill pre-scan

The pre-scan walks the book without changing it, the match loop walks it while it changes. Both
look at the same orders: `Ahead q m o p xs` says that the match loop, now at the book `m`, still
has before it what the scan of `q` has, namely the orders `xs` at price `p` and everything beyond.

* `Match.scan` — the scan finds the quantity exactly when matching would fill it, as long as its
  sums are exact below the quantity.
* `Admits.fills` — a fill-or-kill order that passes the pre-scan is filled, even where the
  64-bit sum wraps around.
* `scan_exact` — where no single addition can wrap around, the pre-scan also refuses
  nothing that could be filled.
-/

namespace Velox

namespace QueueBook

variable {q m m' : QueueBook} {o : NewOrder} {add : Int → Int → Int} {p sum n rem rem' : Int}
  {x : RestingOrder} {xs : List RestingOrder} {oc : MatchOutcome} {ts : List Trade}
  {vs : List StpVictim}

/-- The match loop, at the book `m`, has the orders `xs` at price `p` before it, and beyond them
what the book `q` holds. -/
structure Ahead (q m : QueueBook) (o : NewOrder) (p : Int) (xs : List RestingOrder) : Prop where
  cfg : m.cfg = q.cfg
  best : m.best o.side.opposite = p
  queue : p ≠ emptySentinel o.side.opposite → m.queue o.side.opposite (q.cfg.slot p) = xs
  beyond : p ≠ emptySentinel o.side.opposite → ∀ j, o.side.opposite.beyond (q.cfg.slot p) j →
    m.queue o.side.opposite j = q.queue o.side.opposite j
  mem : ∀ x ∈ xs, x ∈ q.orders ∧ x.side = o.side.opposite

/-- The scan from the orders `xs` at price `p` on. -/
inductive ScanFrom (q : QueueBook) (o : NewOrder) (add : Int → Int → Int) (p : Int)
    (xs : List RestingOrder) (sum n : Int) : Prop
  | done (h : p = emptySentinel o.side.opposite ∨ crosses o.type o.side o.price p = false)
      (hn : n = sum)
  | returned (hp : p ≠ emptySentinel o.side.opposite)
      (hc : crosses o.type o.side o.price p = true)
      (h : scanQueue q.cfg.stp o add xs sum = (true, n))
  | next {sum'} (hp : p ≠ emptySentinel o.side.opposite)
      (hc : crosses o.type o.side o.price p = true)
      (h : scanQueue q.cfg.stp o add xs sum = (false, sum'))
      (rest : Scan q o add (q.nextOccupied o.side.opposite p) sum' n)

theorem Scan.from_queue (h : q.Scan o add p sum n) :
    q.ScanFrom o add p (q.queue o.side.opposite (q.cfg.slot p)) sum n := by
  cases h with
  | done h => exact .done h rfl
  | returned hp hc h => exact .returned hp hc h
  | next hp hc h rest => exact .next hp hc h rest

theorem Ahead.front_eq (ha : Ahead q m o p xs) (hp : p ≠ emptySentinel o.side.opposite) :
    m.front o = xs := by
  rw [front, ha.best, ha.cfg]
  exact ha.queue hp

/-- The level at `p` is exhausted and reported: the loop moves on to the next occupied price. -/
theorem Ahead.next (ha : Ahead q m o p xs) (hp : p ≠ emptySentinel o.side.opposite)
    (hcfg : m'.cfg = q.cfg) (hbest : m'.best o.side.opposite = p)
    (hq : ∀ j, o.side.opposite.beyond (q.cfg.slot p) j →
      m'.queue o.side.opposite j = m.queue o.side.opposite j) :
    Ahead q (m'.levelEmptied o.side.opposite p) o (q.nextOccupied o.side.opposite p)
      (q.queue o.side.opposite (q.cfg.slot (q.nextOccupied o.side.opposite p))) := by
  have hsame : ∀ j, o.side.opposite.beyond (q.cfg.slot p) j →
      (m'.levelEmptied o.side.opposite p).queue o.side.opposite j = q.queue o.side.opposite j := by
    intro j hj
    rw [queue_congr (levelEmptied_cfg ..) (levelEmptied_orders ..), hq j hj, ha.beyond hp j hj]
  have hnext : m'.nextOccupied o.side.opposite p = q.nextOccupied o.side.opposite p := by
    have h := m'.nextOccupied_isNext o.side.opposite p
    rw [hcfg] at h
    refine IsNext.unique (h.congr fun j hj => ?_) (q.nextOccupied_isNext o.side.opposite p)
    rw [hq j hj, ha.beyond hp j hj]
  -- Whatever lies at the next price or beyond it lies beyond `p`.
  have hfar : q.nextOccupied o.side.opposite p ≠ emptySentinel o.side.opposite →
      o.side.opposite.beyond (q.cfg.slot p) (q.cfg.slot (q.nextOccupied o.side.opposite p)) := by
    intro hne
    rcases q.nextOccupied_isNext o.side.opposite p with ⟨h, -⟩ | ⟨j, h, hb, -⟩
    · exact absurd h hne
    · rw [h, BookConfig.slot_slotPrice]
      exact hb
  refine ⟨?_, ?_, fun hne => hsame _ (hfar hne), fun hne j hj => ?_, fun x hx => ?_⟩
  · rw [levelEmptied_cfg, hcfg]
  · rw [levelEmptied, if_pos hbest.symm, setBest_best, if_pos rfl, hnext]
  · exact hsame j (Side.beyond_trans (hfar hne) hj)
  · exact ⟨(mem_queue.1 hx).1, (mem_queue.1 hx).2.1⟩

/-- The head of the level has left, and the level is settled. -/
theorem Ahead.removed (ha : Ahead q m o p (x :: xs)) (hw : m.Wf)
    (hp : p ≠ emptySentinel o.side.opposite) (hcfg : m'.cfg = q.cfg)
    (hbest : m'.best o.side.opposite = p) (horders : m'.orders = (m.remove x.id).orders) :
    (xs ≠ [] ∧ Ahead q (m'.settle o.side.opposite p) o p xs) ∨
      (xs = [] ∧ Ahead q (m'.settle o.side.opposite p) o (q.nextOccupied o.side.opposite p)
        (q.queue o.side.opposite (q.cfg.slot (q.nextOccupied o.side.opposite p)))) := by
  have hq := ha.queue hp
  have hx : x ∈ m.queue o.side.opposite (q.cfg.slot p) := by
    rw [hq]
    exact List.mem_cons_self
  have hqueue : ∀ j, m'.queue o.side.opposite j = (m.remove x.id).queue o.side.opposite j :=
    fun j => queue_congr (q := m.remove x.id) (hcfg.trans ha.cfg.symm) horders _ j
  have hhere : m'.queue o.side.opposite (q.cfg.slot p) = xs := by
    rw [hqueue]
    exact hw.remove_head_queue hq
  have hthere : ∀ j, o.side.opposite.beyond (q.cfg.slot p) j →
      m'.queue o.side.opposite j = m.queue o.side.opposite j := by
    intro j hj
    rw [hqueue]
    refine hw.remove_other_queue hx (Or.inr ?_)
    rintro rfl
    exact o.side.opposite.beyond_irrefl _ hj
  rw [settle, hcfg, hhere]
  by_cases hnil : xs = []
  · rw [if_pos hnil]
    exact Or.inr ⟨hnil, ha.next hp hcfg hbest hthere⟩
  · rw [if_neg hnil]
    refine Or.inl ⟨hnil, hcfg, hbest, fun _ => hhere, fun _ j hj => ?_, fun y hy => ?_⟩
    · rw [hthere j hj]
      exact ha.beyond hp j hj
    · exact ha.mem y (List.mem_cons_of_mem _ hy)

/-- Where the scan goes once the head of the level has been counted or skipped. -/
theorem ScanFrom.tail {sum' : Int} (h : q.ScanFrom o add p (x :: xs) sum n)
    (hp : p ≠ emptySentinel o.side.opposite) (hc : crosses o.type o.side o.price p = true)
    (hstep : scanQueue q.cfg.stp o add (x :: xs) sum = scanQueue q.cfg.stp o add xs sum')
    (hnil : xs = []) : q.Scan o add (q.nextOccupied o.side.opposite p) sum' n := by
  subst hnil
  cases h with
  | done h _ =>
    rcases h with h | h
    · exact absurd h hp
    · rw [hc] at h
      cases h
  | returned _ _ h =>
    rw [hstep, scanQueue] at h
    cases h
  | next _ _ h rest =>
    rw [hstep, scanQueue] at h
    cases h
    exact rest

theorem ScanFrom.step {sum' : Int} (h : q.ScanFrom o add p (x :: xs) sum n)
    (hp : p ≠ emptySentinel o.side.opposite) (hc : crosses o.type o.side o.price p = true)
    (hstep : scanQueue q.cfg.stp o add (x :: xs) sum = scanQueue q.cfg.stp o add xs sum') :
    q.ScanFrom o add p xs sum' n := by
  cases h with
  | done h _ =>
    rcases h with h | h
    · exact absurd h hp
    · rw [hc] at h
      cases h
  | returned _ _ h => exact .returned hp hc (hstep.symm.trans h)
  | next _ _ h rest => exact .next hp hc (hstep.symm.trans h) rest

theorem ScanFrom.value (h : q.ScanFrom o add p xs sum n)
    (hp : p ≠ emptySentinel o.side.opposite) (hc : crosses o.type o.side o.price p = true)
    {k : Int} (hstep : scanQueue q.cfg.stp o add xs sum = (true, k)) : n = k := by
  cases h with
  | done h _ =>
    rcases h with h | h
    · exact absurd h hp
    · rw [hc] at h
      cases h
  | returned _ _ h =>
    rw [hstep] at h
    cases h
    rfl
  | next _ _ h _ =>
    rw [hstep] at h
    cases h

/-- Nothing is left to match. -/
theorem Match.of_filled (hm : Match o m rem oc ts vs m' rem') (h : ¬ 0 < rem) : rem' = rem := by
  cases hm with
  | exhausted => rfl
  | noLongerCrosses hpos => exact absurd hpos h
  | stale hl | trade hl | stpAggressor hl | stpPassive hl | stpBoth hl => exact absurd hl.rem_pos h

/-- What the two walks have in common, in numbers: the scan has found `sum` and matching has
`rem` to fill, of the same quantity. -/
structure InStep (o : NewOrder) (sum rem : Int) : Prop where
  nonneg : 0 ≤ sum
  below : sum < o.quantity
  rem : rem = o.quantity - sum

/-- What the comparison concludes. -/
structure Agrees (q : QueueBook) (o : NewOrder) (add : Int → Int → Int) (n rem' : Int) : Prop where
  sound : o.quantity ≤ n → ¬ 0 < rem'
  complete : (∀ x ∈ q.orders, x.side = o.side.opposite → ∀ s, 0 ≤ s → s < o.quantity →
    o.quantity ≤ s + x.remaining → o.quantity ≤ add s x.remaining) → ¬ 0 < rem' → o.quantity ≤ n

/-- The scan stops short, and so does matching. -/
theorem agrees_of_short (hi : InStep o sum rem) (hn : n = sum) (hr : rem' = rem) :
    Agrees q o add n rem' := by
  have := hi.below
  have := hi.rem
  exact ⟨fun h => by omega, fun _ h => by omega⟩

/-- **The pre-scan and the match loop agree.** The induction is on the match loop; the scan
follows it order by order. -/
theorem Match.scan (hadd : ∀ x ∈ q.orders, x.side = o.side.opposite → ∀ s, 0 ≤ s →
      s + x.remaining < o.quantity → add s x.remaining = s + x.remaining)
    (hm : Match o m rem oc ts vs m' rem') :
    ∀ {p sum xs}, m.Wf → Ahead q m o p xs → InStep o sum rem →
      q.ScanFrom o add p xs sum n → Agrees q o add n rem' := by
  induction hm with
  | @exhausted m rem h =>
    intro p sum xs _ ha hi hs
    have hp : p = emptySentinel o.side.opposite := by
      by_contra hne
      exact h ⟨by have := hi.rem; have := hi.below; omega, by rw [ha.best]; exact hne⟩
    cases hs with
    | done _ hn => exact agrees_of_short hi hn rfl
    | returned hne | next hne => exact absurd hp hne
  | @noLongerCrosses m rem hpos hbest hc =>
    intro p sum xs _ ha hi hs
    rw [ha.best] at hc
    cases hs with
    | done _ hn => exact agrees_of_short hi hn rfl
    | returned _ hc' | next _ hc' =>
      rw [hc] at hc'
      cases hc'
  | @stale m rem oc ts vs m' rem' hl hf _ ih =>
    intro p sum xs hw ha hi hs
    obtain ⟨-, hp, hc⟩ := hl
    rw [ha.best] at hp hc
    have hxs : xs = [] := by rw [← ha.front_eq hp, hf]
    subst hxs
    rw [ha.best] at ih
    have hempty : m.queue o.side.opposite (m.cfg.slot p) = [] := by
      rw [ha.cfg]
      exact ha.queue hp
    refine ih (hw.levelEmptied hempty) (ha.next hp ha.cfg ha.best fun _ _ => rfl) hi ?_
    cases hs with
    | done h _ =>
      rcases h with h | h
      · exact absurd h hp
      · rw [hc] at h
        cases h
    | returned _ _ h => cases h
    | next _ _ h rest =>
      cases h
      exact rest.from_queue
  | @trade m rem oc ts vs m' rem' x ys hl hf hpart rest ih =>
    intro p sum xs hw ha hi hs
    obtain ⟨hpos, hp, hc⟩ := hl
    rw [ha.best] at hp hc
    have hxs : xs = x :: ys := by rw [← ha.front_eq hp, hf]
    subst hxs
    have hx := ha.mem x List.mem_cons_self
    have hxpos : 0 < x.remaining := (hw.positive x (mem_of_front hf).1).1
    obtain ⟨h0, hbelow, hrem⟩ := hi
    by_cases hfull : o.quantity ≤ sum + x.remaining
    · -- The aggressor is filled here, whatever the sum of the scan has become.
      have hzero : rem - min rem x.remaining = 0 := by omega
      have hdone : rem' = 0 := by
        rw [hzero] at rest
        exact rest.of_filled (by omega)
      refine ⟨fun _ => by omega, fun hall _ => ?_⟩
      have hq := hall x hx.1 hx.2 sum h0 hbelow hfull
      have hstep : scanQueue q.cfg.stp o add (x :: ys) sum = (true, add sum x.remaining) := by
        rw [scanQueue, if_neg hpart, if_pos hq]
      rw [hs.value hp hc hstep]
      exact hq
    · have hsum : add sum x.remaining = sum + x.remaining := 
        hadd x hx.1 hx.2 sum h0 (by omega)
      have hmin : min rem x.remaining = x.remaining := by omega
      have hstep : scanQueue q.cfg.stp o add (x :: ys) sum =
          scanQueue q.cfg.stp o add ys (sum + x.remaining) := by
        rw [scanQueue, if_neg hpart, hsum, if_neg hfull]
      have hi' : InStep o (sum + x.remaining) (rem - min rem x.remaining) :=
        ⟨by omega, by omega, by omega⟩
      have hcfg : (m.bumpTradeId.fill x (min rem x.remaining)).cfg = q.cfg := by
        rw [fill_cfg]
        exact ha.cfg
      have hbest : (m.bumpTradeId.fill x (min rem x.remaining)).best o.side.opposite = p := by
        rw [fill_best]
        exact (by cases o.side <;> rfl : m.bumpTradeId.best o.side.opposite = _).trans ha.best
      have horders : (m.bumpTradeId.fill x (min rem x.remaining)).orders =
          (m.remove x.id).orders := by
        rw [fill, if_pos hmin.symm]
        rfl
      have hw' := hw.afterTrade hpos hf
      rw [afterTrade, ha.best] at ih hw'
      rcases ha.removed hw hp hcfg hbest horders with ⟨-, ha'⟩ | ⟨hnil, ha'⟩
      · exact ih hw' ha' hi' (hs.step hp hc hstep)
      · exact ih hw' ha' hi' (hs.tail hp hc hstep hnil).from_queue
  | @stpAggressor m rem x ys hl hf hpart hstp =>
    intro p sum xs hw ha hi hs
    obtain ⟨-, hp, hc⟩ := hl
    rw [ha.best] at hp hc
    have hxs : xs = x :: ys := by rw [← ha.front_eq hp, hf]
    subst hxs
    rw [ha.cfg] at hstp
    have hstep : scanQueue q.cfg.stp o add (x :: ys) sum = (true, sum) := by
      rw [scanQueue, if_pos hpart, if_neg (by rw [hstp]; decide)]
    exact agrees_of_short hi (hs.value hp hc hstep) rfl
  | @stpPassive m rem oc ts vs m' rem' x ys hl hf hpart hstp rest ih =>
    intro p sum xs hw ha hi hs
    obtain ⟨-, hp, hc⟩ := hl
    rw [ha.best] at hp hc
    have hxs : xs = x :: ys := by rw [← ha.front_eq hp, hf]
    subst hxs
    rw [ha.cfg] at hstp
    have hstep : scanQueue q.cfg.stp o add (x :: ys) sum = scanQueue q.cfg.stp o add ys sum := by
      rw [scanQueue, if_pos hpart, if_pos hstp]
    have hw' := hw.afterVictim (o := o) (x := x)
    rw [afterVictim, ha.best] at ih hw'
    have hcfg : (m.remove x.id).cfg = q.cfg := ha.cfg
    have hbest : (m.remove x.id).best o.side.opposite = p :=
      (by cases o.side <;> rfl : (m.remove x.id).best o.side.opposite = _).trans ha.best
    rcases ha.removed hw hp hcfg hbest rfl with ⟨-, ha'⟩ | ⟨hnil, ha'⟩
    · exact ih hw' ha' hi (hs.step hp hc hstep)
    · exact ih hw' ha' hi (hs.tail hp hc hstep hnil).from_queue
  | @stpBoth m rem x ys hl hf hpart hstp =>
    intro p sum xs hw ha hi hs
    obtain ⟨-, hp, hc⟩ := hl
    rw [ha.best] at hp hc
    have hxs : xs = x :: ys := by rw [← ha.front_eq hp, hf]
    subst hxs
    rw [ha.cfg] at hstp
    have hstep : scanQueue q.cfg.stp o add (x :: ys) sum = (true, sum) := by
      rw [scanQueue, if_pos hpart, if_neg (by rw [hstp]; decide)]
    exact agrees_of_short hi (hs.value hp hc hstep) rfl

/-! ## The 64-bit sum -/

theorem scanQueue_lt {stp : StpPolicy} {returned : Bool} (hsum : sum < 2 ^ 63)
    (h : scanQueue stp o add64 xs sum = (returned, n)) : n < 2 ^ 63 := by
  induction xs generalizing sum with
  | nil =>
    cases h
    exact hsum
  | cons x xs ih =>
    rw [scanQueue] at h
    split at h
    · split at h
      · exact ih hsum h
      · cases h
        exact hsum
    · split at h
      · cases h
        exact wrap64_lt _
      · exact ih (wrap64_lt _) h

/-- The sum of the scan is a 64-bit number. -/
theorem Scan.lt (h : q.Scan o add64 p sum n) (hsum : sum < 2 ^ 63) : n < 2 ^ 63 := by
  induction h with
  | done => exact hsum
  | returned _ _ h => exact scanQueue_lt hsum h
  | next _ _ h _ ih => exact ih (scanQueue_lt hsum h)

theorem ahead_arrive (q : QueueBook) (o : NewOrder) : Ahead q q.arrive o (q.best o.side.opposite)
    (q.queue o.side.opposite (q.cfg.slot (q.best o.side.opposite))) :=
  ⟨rfl, by cases o.side <;> rfl, fun _ => rfl, fun _ _ _ => rfl, fun _ hx =>
    ⟨(mem_queue.1 hx).1, (mem_queue.1 hx).2.1⟩⟩

theorem add64_of_fits {s r : Int} (hs : 0 ≤ s + r) (h : s + r < 2 ^ 63) : add64 s r = s + r :=
  wrap64_of_fits (by omega) h

/-- **A fill-or-kill order that is admitted is filled.** -/
theorem Admits.fills (ha : q.Admits o) (ht : o.type = .fok) (hw : q.Wf)
    (hm : Match o q.arrive o.quantity oc ts vs m' rem') : ¬ 0 < rem' := by
  obtain ⟨n, hs, hn⟩ := ha.fok ht
  have hlt : o.quantity < 2 ^ 63 := hn.trans_lt (hs.lt (by norm_num))
  have hq := (check_eq_none ha.check).1
  refine (hm.scan (fun x hx _ s h0 h => ?_) hw.arrive (q.ahead_arrive o)
    ⟨le_rfl, hq, (sub_zero _).symm⟩ hs.from_queue).sound hn
  have hpos := (hw.positive x hx).1
  exact add64_of_fits (by omega) (by omega)

/-- No addition of the pre-scan for `o` can wrap around. -/
def FokFits (q : QueueBook) (o : NewOrder) : Prop :=
  o.type = .fok → ∀ x ∈ q.orders, x.side = o.side.opposite → o.quantity + x.remaining ≤ 2 ^ 63

/-- **The pre-scan admits exactly what can be filled.** -/
theorem scan_exact (hq : 0 < o.quantity) (ht : o.type = .fok) (hfits : q.FokFits o) (hw : q.Wf)
    (hs : q.Scan o add64 (q.best o.side.opposite) 0 n)
    (hm : Match o q.arrive o.quantity oc ts vs m' rem') : o.quantity ≤ n ↔ ¬ 0 < rem' := by
  have hexact : ∀ x ∈ q.orders, x.side = o.side.opposite → ∀ s, 0 ≤ s → s < o.quantity →
      add64 s x.remaining = s + x.remaining := by
    intro x hx hside s h0 h
    have hfit := hfits ht x hx hside
    have hpos := (hw.positive x hx).1
    exact add64_of_fits (by omega) (by omega)
  have hagrees := hm.scan (fun x hx hside s h0 h => hexact x hx hside s h0
    (by have := (hw.positive x hx).1; omega)) hw.arrive (q.ahead_arrive o)
    ⟨le_rfl, hq, (sub_zero _).symm⟩ hs.from_queue
  refine ⟨hagrees.sound, hagrees.complete fun x hx hside s h0 h hle => ?_⟩
  rw [hexact x hx hside s h0 h]
  exact hle

/-- Self-trade prevention fires only on an order that is not filled. -/
theorem Match.stp_rem_pos (hm : Match o m rem .stpFired ts vs m' rem') : 0 < rem' := by
  generalize hoc : MatchOutcome.stpFired = oc at hm
  induction hm with
  | exhausted | noLongerCrosses => cases hoc
  | stale _ _ _ ih | trade _ _ _ _ ih | stpPassive _ _ _ _ _ ih => exact ih hoc
  | stpAggressor hl | stpBoth hl => exact hl.rem_pos

end QueueBook

end Velox
