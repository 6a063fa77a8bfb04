import Velox.Engine.Others
import Velox.Engine.Replace

/-!
# The book that a log of orders and trades tells of

Who knows which orders were sent, what they have traded and which ids were to be removed can guess
what rests: every order that has traded less than its quantity and whose id was not removed. This is
`Reflects`. The guess is right as long as every order is taken as it was sent (`QueueBook.Takes`): it
passes the checks, it meets no order of its own participant, and what is left of it rests. A log of
this kind says nothing of an order that is refused, of a residual that is dropped, or of what
self-trade prevention removes.
-/

namespace Velox

namespace QueueBook

variable {q q' : QueueBook} {o : NewOrder} {rem rem' : Int} {oc : MatchOutcome}
  {ts ts' : List Trade} {vs : List StpVictim} {x y : RestingOrder} {xs ys ys' : List RestingOrder}
  {gone : List Int} {id n : Int}

/-! ## An order that is taken as it was sent -/

/-- What rests can fill the order: for fill or kill by the sum of the pre-scan, for the other types
by the exact one. -/
def Fills (q : QueueBook) (o : NewOrder) : Prop :=
  ∃ n, q.Scan o (if o.type = .fok then add64 else (· + ·)) (q.best o.side.opposite) 0 n ∧
    o.quantity ≤ n

structure Takes (q : QueueBook) (o : NewOrder) : Prop where
  quantity : 0 < o.quantity
  range : o.type ≠ .market → q.cfg.inRange o.price = true
  fresh : ∀ x ∈ q.orders, x.id ≠ o.id
  foreign : q.Apart o ∨ q.cfg.stp ≠ .cancelPassive ∧ q.Fills o
  taken : q.Fills o ∨ o.type = .limit ∧ q.orders.length < q.cfg.maxOrders

theorem Fills.best_ne (hf : q.Fills o) (hq : 0 < o.quantity) :
    q.best o.side.opposite ≠ emptySentinel o.side.opposite := by
  intro hbest
  obtain ⟨n, hs, hn⟩ := hf
  obtain rfl := hs.det (.done (Or.inl hbest))
  omega

theorem Fills.filled (hf : q.Fills o) (ha : q.Admits o) (hw : q.Wf)
    (hm : Match o q.arrive o.quantity oc ts vs q' rem') : ¬ 0 < rem' := by
  by_cases ht : o.type = .fok
  · exact ha.fills ht hw hm
  · obtain ⟨n, hs, hn⟩ := hf
    rw [if_neg ht] at hs
    have hq := (check_eq_none ha.check).1
    exact (hm.scan (fun _ _ _ _ _ _ => rfl) hw.arrive (q.ahead_arrive o)
      ⟨le_rfl, hq, (sub_zero _).symm⟩ hs.from_queue).sound hn

theorem Takes.check (h : q.Takes o) : q.check o = none := by
  have hmarket : ¬ (o.type = .market ∧ q.best o.side.opposite = emptySentinel o.side.opposite) := by
    rintro ⟨ht, hbest⟩
    rcases h.taken with hf | ⟨hlimit, -⟩
    · exact hf.best_ne h.quantity hbest
    · rw [ht] at hlimit
      cases hlimit
  have hrange : ¬ (o.type ≠ .market ∧ q.cfg.inRange o.price = false) := by
    rintro ⟨ht, hout⟩
    rw [h.range ht] at hout
    cases hout
  have hfresh : ¬ q.orders.any (fun x => decide (x.id = o.id)) = true := by
    rw [List.any_eq_true]
    rintro ⟨x, hx, hid⟩
    exact h.fresh x hx (of_decide_eq_true hid)
  rw [QueueBook.check, if_neg h.quantity.not_ge, if_neg hrange, if_neg hfresh, if_neg hmarket]

/-- Matching an order that is taken: self-trade prevention removes nothing, and what is left can
rest. -/
theorem Takes.matched (h : q.Takes o) (ha : q.Admits o) (hw : q.Wf)
    (hm : Match o q.arrive o.quantity oc ts vs q' rem) : oc ≠ .stpFired ∧ vs = [] ∧
      (0 < rem → o.type = .limit ∧ q'.orders.length < q.cfg.maxOrders) := by
  obtain ⟨hoc, hvs⟩ : oc ≠ .stpFired ∧ vs = [] := by
    rcases h.foreign with hapart | ⟨hstp, hf⟩
    · exact hm.apart hapart
    · have hrem := hf.filled ha hw hm
      refine ⟨?_, hm.no_victims_of_filled hrem hstp⟩
      rintro rfl
      exact hrem hm.stp_rem_pos
  refine ⟨hoc, hvs, fun hrem => ?_⟩
  rcases h.taken with hf | ⟨hlimit, hroom⟩
  · exact absurd hrem (hf.filled ha hw hm)
  · exact ⟨hlimit, hm.length_orders.trans_lt hroom⟩

/-- An order that is taken is matched, and what is left of it rests. -/
theorem Takes.submits {r : OrderResult} (h : q.Takes o) (hs : q.Submits o r ts vs q') (hw : q.Wf) :
    ∃ oc q₁ rem, Match o q.arrive o.quantity oc ts [] q₁ rem ∧
      (0 < rem ∧ q' = q₁.add (o.resting (q.seq + 1) rem) ∨ ¬ 0 < rem ∧ q' = q₁) := by
  cases hs with
  | rejected hc =>
    rw [h.check] at hc
    cases hc
  | unfillable _ ht hscan hn =>
    rcases h.taken with ⟨m, hm, hle⟩ | ⟨hlimit, -⟩
    · rw [if_pos ht] at hm
      obtain rfl := hscan.det hm
      exact absurd hle hn.not_ge
    · rw [ht] at hlimit
      cases hlimit
  | stp ha hm => exact absurd rfl (h.matched ha hw hm).1
  | rested ha hm _ _ hrem =>
    obtain ⟨-, rfl, -⟩ := h.matched ha hw hm
    exact ⟨_, _, _, hm, Or.inl ⟨hrem, rfl⟩⟩
  | exhausted ha hm _ _ hrem hroom =>
    exact absurd ((h.matched ha hw hm).2.2 hrem).2 hroom.not_gt
  | filled ha hm _ hrem =>
    obtain ⟨-, rfl, -⟩ := h.matched ha hw hm
    exact ⟨_, _, _, hm, Or.inr ⟨hrem, rfl⟩⟩
  | residual ha hm _ ht hrem =>
    rw [((h.matched ha hw hm).2.2 hrem).1] at ht
    rcases ht with ht | ht <;> cases ht
  | fokResidual ha hm _ ht hrem => exact absurd hrem (ha.fills ht hw hm)

/-- **Every order at rest and the order itself lose what they trade**, and nothing else. -/
theorem Takes.fate {r : OrderResult} (h : q.Takes o) (hs : q.Submits o r ts vs q') (hw : q.Wf) :
    ∀ x ∈ q.orders ++ [o.resting (q.seq + 1) o.quantity], Fate x (tradedBy x.id ts) q'.orders := by
  obtain ⟨oc, q₁, rem, hm, hend⟩ := h.submits hs hw
  have hold : ∀ x ∈ q.orders, Fate x (tradedBy x.id ts) q₁.orders := fun x hx =>
    hm.fate_of_no_victims hw.arrive h.fresh rfl hx
  have htraded : tradedBy o.id ts = o.quantity - rem := by
    have hconserves := (hm.conserves hw.arrive).2
    rw [hm.tradedBy_aggressor]
    omega
  have habsent : ∀ y ∈ q₁.orders, y.id ≠ o.id := by
    intro y hy
    obtain ⟨z, hz, heq⟩ := hm.mem_orders hy
    rw [heq]
    exact h.fresh z hz
  intro x hx
  rcases hend with ⟨hrem, rfl⟩ | ⟨hrem, rfl⟩
  · rcases List.mem_append.1 hx with hx | hx
    · exact (hold x hx).add (h.fresh x hx)
    · obtain rfl := List.mem_singleton.1 hx
      refine .rests (by change tradedBy o.id ts < o.quantity; omega) ?_
      have hleft : o.quantity - tradedBy o.id ts = rem := by omega
      change o.resting (q.seq + 1) (o.quantity - tradedBy o.id ts) ∈ _
      rw [hleft, add_orders]
      exact List.mem_append_right _ (List.mem_singleton_self _)
  · rcases List.mem_append.1 hx with hx | hx
    · exact hold x hx
    · obtain rfl := List.mem_singleton.1 hx
      have hzero := (hm.rem_bounds hw.arrive h.quantity.le).1
      refine .gone ?_ habsent
      change tradedBy o.id ts = o.quantity
      omega

/-! ## The book and the log -/

/-- The orders `ys` are what is left of the orders `xs` after the trades `ts`, without those whose
ids were removed. -/
structure Reflects (xs : List RestingOrder) (ts : List Trade) (gone : List Int)
    (ys : List RestingOrder) : Prop where
  ids : (xs.map RestingOrder.id).Nodup
  trades : ∀ t ∈ ts, 0 < t.quantity ∧ t.aggressorId ≠ t.passiveId ∧
    t.aggressorId ∈ xs.map RestingOrder.id ∧ t.passiveId ∈ xs.map RestingOrder.id
  known : ∀ y ∈ ys, y.id ∈ xs.map RestingOrder.id
  removed : ∀ x ∈ xs, x.id ∈ gone → ∀ y ∈ ys, y.id ≠ x.id
  fate : ∀ x ∈ xs, x.id ∉ gone → Fate x (tradedBy x.id ts) ys

theorem reflects_nil : Reflects [] [] [] [] where
  ids := List.nodup_nil
  trades := fun _ ht => nomatch ht
  known := fun _ hy => nomatch hy
  removed := fun _ hx => nomatch hx
  fate := fun _ hx => nomatch hx

/-- What becomes of an order in two steps. -/
theorem Fate.trans {m : Int} (h : Fate x n ys)
    (hrests : ∀ y ∈ ys, y.id = x.id → Fate y m ys')
    (hgone : (∀ y ∈ ys, y.id ≠ x.id) → m = 0 ∧ ∀ y ∈ ys', y.id ≠ x.id) : Fate x (n + m) ys' := by
  rcases h with ⟨hn, habsent⟩ | ⟨hn, hmem⟩
  · obtain ⟨rfl, habsent'⟩ := hgone habsent
    exact .gone (by rw [add_zero, hn]) habsent'
  · rcases hrests _ hmem rfl with ⟨hm, habsent'⟩ | ⟨hm, hmem'⟩
    · exact .gone (by rw [hm]; exact add_sub_cancel _ _) habsent'
    · refine .rests (by dsimp only at hm; omega) ?_
      rw [← sub_sub]
      exact hmem'

/-- An order that neither rests nor arrives does not trade. -/
theorem Submits.absent {r : OrderResult} (hs : q.Submits o r ts vs q') (hne : id ≠ o.id)
    (habsent : ∀ y ∈ q.orders, y.id ≠ id) : tradedBy id ts = 0 ∧ ∀ y ∈ q'.orders, y.id ≠ id := by
  constructor
  · refine tradedBy_eq_zero fun t ht => ?_
    obtain ⟨ha, -, z, hz, hpassive, -⟩ := hs.trade_spec t ht
    exact ⟨ha ▸ hne.symm, hpassive ▸ habsent z hz⟩
  · intro y hy
    rcases hs.mem_orders hy with ⟨z, hz, heq⟩ | ⟨-, -, hid, -⟩
    · rw [heq]
      exact habsent z hz
    · exact hid ▸ hne.symm

theorem Reflects.submit {r : OrderResult} (h : Reflects xs ts gone q.orders) (ht : q.Takes o)
    (hs : q.Submits o r ts' vs q') (hw : q.Wf) (hxs : o.id ∉ xs.map RestingOrder.id)
    (hgone : o.id ∉ gone) :
    Reflects (xs ++ [o.resting (q.seq + 1) o.quantity]) (ts ++ ts') gone q'.orders where
  ids := by
    rw [List.map_append, List.nodup_append]
    refine ⟨h.ids, List.nodup_singleton _, ?_⟩
    rintro id hid id' hid' rfl
    obtain rfl : id = o.id := List.mem_singleton.1 hid'
    exact hxs hid
  trades := by
    intro t ht'
    rw [List.map_append, List.mem_append, List.mem_append]
    rcases List.mem_append.1 ht' with ht' | ht'
    · obtain ⟨hq, hne, ha, hp⟩ := h.trades t ht'
      exact ⟨hq, hne, Or.inl ha, Or.inl hp⟩
    · obtain ⟨oc, q₁, rem, hm, -⟩ := ht.submits hs hw
      obtain ⟨ha, -, z, hz, hpassive, -⟩ := hs.trade_spec t ht'
      refine ⟨hm.quantity_pos hw.arrive t ht', ?_, Or.inr ?_, Or.inl (hpassive ▸ h.known z hz)⟩
      · rw [ha, ← hpassive]
        exact (ht.fresh z hz).symm
      · exact List.mem_singleton.2 ha
  known := by
    intro y hy
    rw [List.map_append, List.mem_append]
    rcases hs.mem_orders hy with ⟨z, hz, heq⟩ | ⟨-, -, hid, -⟩
    · rw [heq]
      exact Or.inl (h.known z hz)
    · exact Or.inr (List.mem_singleton.2 hid)
  removed := by
    intro x hx hmem
    have hne : x.id ≠ o.id := fun heq => hgone (heq ▸ hmem)
    rcases List.mem_append.1 hx with hx | hx
    · exact (hs.absent hne (h.removed x hx hmem)).2
    · exact absurd (congrArg RestingOrder.id (List.mem_singleton.1 hx)) hne
  fate := by
    intro x hx hmem
    have hfate := ht.fate hs hw
    rw [tradedBy_append]
    rcases List.mem_append.1 hx with hx | hx
    · have hne : x.id ≠ o.id := fun heq => hxs (heq ▸ List.mem_map_of_mem hx)
      refine (h.fate x hx hmem).trans (fun y hy hid => ?_) (hs.absent hne)
      exact hid ▸ hfate y (List.mem_append_left _ hy)
    · obtain rfl := List.mem_singleton.1 hx
      have hzero : tradedBy o.id ts = 0 := by
        refine tradedBy_eq_zero fun t ht' => ?_
        obtain ⟨-, -, ha, hp⟩ := h.trades t ht'
        exact ⟨fun heq => hxs (heq ▸ ha), fun heq => hxs (heq ▸ hp)⟩
      change Fate _ (tradedBy o.id ts + tradedBy o.id ts') _
      rw [hzero, zero_add]
      exact hfate _ (List.mem_append_right _ (List.mem_singleton_self _))

/-- An id is removed, whether or not an order with it rests. -/
theorem Reflects.remove (h : Reflects xs ts gone ys) (hsub : ∀ y ∈ ys', y ∈ ys ∧ y.id ≠ id)
    (hkeep : ∀ y ∈ ys, y.id ≠ id → y ∈ ys') : Reflects xs ts (gone ++ [id]) ys' where
  ids := h.ids
  trades := h.trades
  known := fun y hy => h.known y (hsub y hy).1
  removed := by
    intro x hx hmem y hy
    rcases List.mem_append.1 hmem with hmem | hmem
    · exact h.removed x hx hmem y (hsub y hy).1
    · rw [List.mem_singleton.1 hmem]
      exact (hsub y hy).2
  fate := by
    intro x hx hmem
    rw [List.mem_append, not_or, List.mem_singleton] at hmem
    rcases h.fate x hx hmem.1 with ⟨hn, habsent⟩ | ⟨hn, hrests⟩
    · exact .gone hn fun y hy => habsent y (hsub y hy).1
    · exact .rests hn (hkeep _ hrests hmem.2)

theorem Reflects.cancel {r : OrderResult} (h : Reflects xs ts gone q.orders)
    (hc : q.Cancels id r q') : Reflects xs ts (gone ++ [id]) q'.orders :=
  h.remove (fun _ hy => ⟨hc.origin hy, hc.ne_of_mem hy⟩) fun _ hy hne => hc.mem_of_ne hy hne

/-- What the log says rests. -/
def left (xs : List RestingOrder) (ts : List Trade) (gone : List Int) : List RestingOrder :=
  (xs.filter fun x => decide (x.id ∉ gone ∧ tradedBy x.id ts < x.remaining)).map fun x =>
    { x with remaining := x.remaining - tradedBy x.id ts }

/-- **The log tells what rests.** -/
theorem Reflects.perm (h : Reflects xs ts gone q.orders) (hw : q.Wf) :
    (left xs ts gone).Perm q.orders := by
  have hids : ((left xs ts gone).map RestingOrder.id).Nodup := by
    rw [left, List.map_map]
    exact h.ids.sublist (List.filter_sublist.map RestingOrder.id)
  refine (List.perm_ext_iff_of_nodup (.of_map _ hids) (.of_map _ hw.ids)).2 fun y => ?_
  constructor
  · intro hy
    obtain ⟨x, hx, rfl⟩ := List.mem_map.1 hy
    rw [List.mem_filter, decide_eq_true_eq] at hx
    obtain ⟨hx, hgone, hlt⟩ := hx
    rcases h.fate x hx hgone with ⟨hn, -⟩ | ⟨-, hrests⟩
    · exact absurd hn hlt.ne
    · exact hrests
  · intro hy
    obtain ⟨x, hx, hid⟩ := List.mem_map.1 (h.known y hy)
    have hgone : x.id ∉ gone := fun hmem => h.removed x hx hmem y hy hid.symm
    rcases h.fate x hx hgone with ⟨-, habsent⟩ | ⟨hlt, hrests⟩
    · exact absurd hid.symm (habsent y hy)
    · rw [hw.eq_of_id hy hrests hid.symm]
      exact List.mem_map_of_mem (List.mem_filter.2 ⟨hx, decide_eq_true ⟨hgone, hlt⟩⟩)

end QueueBook

end Velox
