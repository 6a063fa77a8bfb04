import Velox.Marketdata.BookMirror

/-!
# What an event is about

An event that changes a level is about one order: the passive one of a trade, the one that an
update tells of. `Replica.Names r e` says that a reader who knows `r` finds that order where the
event says it is, or finds its id unused if the order is a new one. The events of one command name
their orders one after the other (`Step.publish_names`), although the removals are told after all
the trades: a removal does not disturb the trades before it.
-/

namespace Velox

/-- The level an order is on. -/
def RestingOrder.location (x : RestingOrder) : Location := ⟨x.side, x.price⟩

theorem restingAt_cons (loc : Location) (x : RestingOrder) (xs : List RestingOrder) :
    restingAt loc.side loc.price (x :: xs) =
      if x.location = loc then x :: restingAt loc.side loc.price xs
      else restingAt loc.side loc.price xs := by
  have hloc : x.location = loc ↔ x.side = loc.side ∧ x.price = loc.price := by
    rw [RestingOrder.location, ← Location.mk.injEq]
  rw [restingAt, restingAt, List.filter_cons]
  simp only [decide_eq_true_eq, hloc]

/-- The level that the event is about; none if it changes no level. -/
def OutboundEvent.level? : OutboundEvent → Option Location
  | .trade t _ => some ⟨t.aggressorSide.opposite, t.price⟩
  | .status _ _ _ => none
  | .orderUpdate .rejected _ _ _ _ => none
  | .orderUpdate _ side u _ _ => some ⟨side, u.price⟩

/-- The order that the event is about. -/
def OutboundEvent.subject : OutboundEvent → Int
  | .trade t _ => t.passiveId
  | .status id _ _ => id
  | .orderUpdate _ _ u _ _ => u.orderId

namespace Replica

/-- The order the event is about is where the event says, or new if it comes to rest. -/
inductive Names (r : Replica) : OutboundEvent → Prop
  | trade {t n x} (hx : x ∈ r.orders) (hid : x.id = t.passiveId)
      (hloc : x.location = ⟨t.aggressorSide.opposite, t.price⟩) (hpos : 0 < t.quantity)
      (hle : t.quantity ≤ x.remaining) : Names r (.trade t n)
  | status {id st n} : Names r (.status id st n)
  | rejected {side u st n} : Names r (.orderUpdate .rejected side u st n)
  | rested {side u st n} (hnew : ∀ x ∈ r.orders, x.id ≠ u.orderId) (hpos : 0 < u.remaining)
      (hlt : u.remaining < 2 ^ 63) : Names r (.orderUpdate .rested side u st n)
  | cancelled {side u st n x} (hx : x ∈ r.orders) (hid : x.id = u.orderId)
      (hloc : x.location = ⟨side, u.price⟩) : Names r (.orderUpdate .cancelled side u st n)

/-- Each of the events names its order, read one after the other. -/
def NamesAll (r : Replica) : List OutboundEvent → Prop
  | [] => True
  | e :: es => r.Names e ∧ (r.apply e).NamesAll es

theorem namesAll_append {r : Replica} {es es' : List OutboundEvent} :
    r.NamesAll (es ++ es') ↔ r.NamesAll es ∧ (r.applyAll es).NamesAll es' := by
  induction es generalizing r with
  | nil => exact (and_iff_right trivial).symm
  | cons e es ih =>
    rw [List.cons_append, NamesAll, NamesAll, ih, applyAll_cons, and_assoc]

/-! ## A removal told late -/

section Late

variable {r : Replica} {ts : List Trade} {seq : Int} {side : Side} {u : OrderUpdate}
  {x : RestingOrder}

/-- Trades named without an order are named with it. -/
theorem namesAll_trades_of_cancelled
    (h : (r.applyOrderUpdate .cancelled side u).NamesAll (ts.map (OutboundEvent.trade · seq))) :
    r.NamesAll (ts.map (OutboundEvent.trade · seq)) := by
  induction ts generalizing r with
  | nil => trivial
  | cons t ts ih =>
    obtain ⟨hnames, hrest⟩ := h
    refine ⟨?_, ih ?_⟩
    · cases hnames with
      | trade hx hid hloc hpos hle => exact .trade (List.mem_filter.1 hx).1 hid hloc hpos hle
    · rw [show (r.apply (.trade t seq)).applyOrderUpdate .cancelled side u =
        (r.applyOrderUpdate .cancelled side u).apply (.trade t seq) from
        r.applyTrade_cancelled t side u]
      exact hrest

/-- They do not touch it. -/
theorem mem_applyAll_trades (hx : x ∈ r.orders) (hid : x.id = u.orderId)
    (h : (r.applyOrderUpdate .cancelled side u).NamesAll (ts.map (OutboundEvent.trade · seq))) :
    x ∈ (r.applyAll (ts.map (OutboundEvent.trade · seq))).orders := by
  induction ts generalizing r with
  | nil => exact hx
  | cons t ts ih =>
    obtain ⟨hnames, hrest⟩ := h
    have hne : x.id ≠ t.passiveId := by
      cases hnames with
      | trade hy hyid =>
        rw [hid, ← hyid]
        exact Ne.symm (of_decide_eq_true (List.mem_filter.1 hy).2)
    refine ih (r := r.apply (.trade t seq)) ?_ ?_
    · refine List.mem_filter.2 ⟨List.mem_map.2 ⟨x, hx, if_neg hne⟩, ?_⟩
      exact decide_eq_true (Or.inl hne)
    · rw [show (r.apply (.trade t seq)).applyOrderUpdate .cancelled side u =
        (r.applyOrderUpdate .cancelled side u).apply (.trade t seq) from
        r.applyTrade_cancelled t side u]
      exact hrest

end Late

end Replica

/-! ## The events of a command -/

namespace QueueBook

open MatchingThread Replica

section Names

variable {q q' : QueueBook} {o : NewOrder} {rem rem' seq n : Int} {oc : MatchOutcome}
  {ts : List Trade} {vs : List StpVictim} {x : RestingOrder}

theorem Match.names (hm : Match o q rem oc ts vs q' rem') (hw : q.Wf)
    (hn : ∀ x ∈ q.orders, x.seq ≤ n) :
    (Replica.mk q.orders n q.nextTradeId).NamesAll
      (ts.map (OutboundEvent.trade · seq) ++ vs.map (victimEvent seq)) := by
  induction hm with
  | exhausted | noLongerCrosses | stpAggressor => trivial
  | stale _ hf _ ih => simpa using ih (hw.levelEmptied hf) (by simpa using hn)
  | @trade q rem _ ts vs q' _ x xs hl hf _ rest ih =>
    obtain ⟨hx, hside, -⟩ := mem_of_front hf
    have hpos := (hw.positive x hx).1
    have hrem := hl.rem_pos
    have hseqs : ∀ y ∈ (q.afterTrade o x rem).orders, y.seq ≤ n := by
      intro y hy
      rw [hw.afterTrade_fillOrder hf] at hy
      obtain ⟨z, hz, rfl⟩ := List.mem_map.1 (List.mem_filter.1 hy).1
      have := hn z hz
      split <;> exact this
    refine ⟨.trade hx rfl (congrArg (Location.mk · x.price) hside) ?_ ?_, ?_⟩
    · exact lt_min hrem hpos
    · exact min_le_right _ _
    · have hrest := ih (hw.afterTrade hl.rem_pos hf) hseqs
      rw [hw.afterTrade_fillOrder hf, afterTrade_nextTradeId] at hrest
      exact hrest
  | @stpPassive q rem _ ts vs q' _ x xs _ hf _ _ _ ih =>
    have hx := (mem_of_front hf).1
    have hrest := ih hw.afterVictim fun y hy => hn y ((q.remove_sublist x.id).mem (by simpa using hy))
    rw [← q.apply_victimEvent o seq (hn x hx), namesAll_append] at hrest
    obtain ⟨htrades, hvictims⟩ := hrest
    rw [namesAll_append, List.map_cons]
    refine ⟨namesAll_trades_of_cancelled htrades, ?_, ?_⟩
    · exact .cancelled (mem_applyAll_trades hx rfl htrades) rfl rfl
    · have hlate := Replica.applyAll_trades_cancelled ⟨q.orders, n, q.nextTradeId⟩ ts seq x.side
        ⟨x.id, x.price, x.quantity, x.remaining, x.participant, x.seq⟩
      rw [victimEvent, Replica.apply, hlate]
      exact hvictims
  | @stpBoth q rem x xs _ hf _ _ => exact ⟨.cancelled (mem_of_front hf).1 rfl rfl, trivial⟩

/-- The events of a submit, up to the last one, and the last one. -/
theorem Submits.names {r : OrderResult} (h : q.Submits o r ts vs q') (hw : q.Wf)
    (ho : o.quantity < 2 ^ 63) (side : Side) (seq : Int) :
    q.replica.NamesAll (ts.map (OutboundEvent.trade · seq) ++ vs.map (victimEvent seq)) ∧
      (q.replica.applyAll (ts.map (OutboundEvent.trade · seq) ++ vs.map (victimEvent seq))).Names
        (emitOrderUpdate o.id side r seq) := by
  have hmatch : ∀ {rem oc q₁}, Match o q.arrive o.quantity oc ts vs q₁ rem →
      q.replica.NamesAll (ts.map (OutboundEvent.trade · seq) ++ vs.map (victimEvent seq)) :=
    fun hm => hm.names hw.arrive hw.seq_le
  cases h with
  | rejected | unfillable => exact ⟨trivial, .rejected⟩
  | stp _ hm | exhausted _ hm | filled _ hm | residual _ hm | fokResidual _ hm =>
    exact ⟨hmatch hm, .rejected⟩
  | @rested _ _ _ q₁ rem ha hm _ _ hrem =>
    have hread : q.replica.applyAll (ts.map (OutboundEvent.trade · seq) ++
        vs.map (victimEvent seq)) = ⟨q₁.orders, q.seq, q₁.nextTradeId⟩ :=
      hm.replica hw.arrive hw.seq_le
    obtain ⟨hq, -, hfresh, -⟩ := check_eq_none ha.check
    have hle := (hm.rem_bounds hw.arrive hq.le).2
    refine ⟨hmatch hm, ?_⟩
    rw [hread]
    refine .rested (fun x hx hid => ?_) hrem (lt_of_le_of_lt hle ho)
    obtain ⟨y, hy, hsame⟩ := hm.mem_orders hx
    have hid : x.id = o.id := hid
    rw [hsame] at hid
    exact hfresh y hy hid

/-- A cancel names the order it took out. -/
theorem Cancels.names {id : Int} {r : OrderResult} (h : q.Cancels id r q') (hok : r.status = .ok) :
    q.replica.Names (.orderUpdate .cancelled r.side (resultUpdate id r) .ok seq) := by
  cases h with
  | unknown => cases hok
  | found hx hid => exact .cancelled hx hid rfl

/-- **The events of a command name their orders.** -/
theorem Step.publish_names {cmd : Command} {k : CommandKind} {e : Effect}
    (h : q.Step (cmd.call k) e q') (hw : q.Wf) (seq : Int) (hfit : e.Fits) :
    q.replica.NamesAll (publish cmd (e.reply (Sinks.empty kTradeBufCapacity)) seq k) := by
  have hout := hfit.publish_out seq
  have hqty : ∀ o ∈ (cmd.call k).order, o.quantity < 2 ^ 63 := fun o ho =>
    (cmd.fits_call k o ho).quantity.2
  generalize hc : cmd.call k = c at h
  cases k with
  | new =>
    cases hc
    obtain ⟨hs⟩ := h
    obtain ⟨hnames, hlast⟩ := hs.names hw (hqty _ rfl) cmd.side seq
    rw [publish, hout, namesAll_append, namesAll_append]
    split
    · refine ⟨⟨hnames, .status, trivial⟩, ?_, trivial⟩
      rw [Replica.applyAll_append]
      exact hlast
    · rw [List.append_nil]
      exact ⟨⟨hnames, trivial⟩, hlast, trivial⟩
  | cancel =>
    cases hc
    obtain ⟨⟩ | ⟨hs⟩ := h
    refine ⟨.status, ?_⟩
    split
    · next hok => exact ⟨hs.names hok, trivial⟩
    · trivial
  | replace =>
    cases hc
    cases h with
    | replaceRejected h =>
      have hr := rejectedBeforeDispatch_check h
      rw [publish, Effect.reply_result, if_pos hr, if_pos hr, List.nil_append, hout, List.append_nil]
      exact ⟨.status, trivial⟩
    | replaced h hc hs =>
      obtain ⟨hok, hr⟩ := replaced_status h hc hs
      obtain ⟨hnames, hlast⟩ := hs.names (hc.wf hw) (hqty _ rfl) cmd.side seq
      rw [← hc.replica hw hok] at hnames hlast
      rw [publish, Effect.reply_result, if_neg (ne_true_of_eq_false hr),
        if_neg (ne_true_of_eq_false hr), List.append_assoc [_], hout, namesAll_append,
        namesAll_append, namesAll_append]
      refine ⟨⟨⟨⟨hc.names hok, trivial⟩, hnames⟩, .status, trivial⟩, ?_, trivial⟩
      rw [Replica.applyAll_append, Replica.applyAll_append]
      exact hlast

end Names

end QueueBook

/-! ## A whole run -/

namespace Replica

section Perm

variable {r r' : Replica} {e : OutboundEvent}

/-- In which order the orders are listed does not matter. -/
theorem apply_perm (h : r.orders.Perm r'.orders) (e : OutboundEvent) :
    (r.apply e).orders.Perm (r'.apply e).orders := by
  cases e with
  | trade t n => exact (h.map _).filter _
  | status => exact h
  | orderUpdate action side u st n =>
    cases action with
    | rested => exact h.append_right _
    | cancelled | replaced => exact h.filter _
    | rejected => exact h

theorem Names.perm (h : r.Names e) (hp : r.orders.Perm r'.orders) : r'.Names e := by
  cases h with
  | trade hx hid hloc hpos hle => exact .trade (hp.mem_iff.1 hx) hid hloc hpos hle
  | status => exact .status
  | rejected => exact .rejected
  | rested hnew hpos hlt => exact .rested (fun x hx => hnew x (hp.mem_iff.2 hx)) hpos hlt
  | cancelled hx hid hloc => exact .cancelled (hp.mem_iff.1 hx) hid hloc

theorem NamesAll.perm {es : List OutboundEvent} (h : r.NamesAll es)
    (hp : r.orders.Perm r'.orders) : r'.NamesAll es := by
  induction es generalizing r r' with
  | nil => trivial
  | cons e es ih => exact ⟨h.1.perm hp, ih h.2 (apply_perm hp e)⟩

end Perm

end Replica

namespace MatchingThread

/-- The events of a command name their orders one after the other and lead from the book before it
to the book after it. -/
theorem dispatch_names {t : MatchingThread} {ps : List Ptr} (hr : t.book.Repr ps none)
    (hf : (t.book.view ps).Fits) {cmd : Command} (hfit : t.overflows cmd = false) :
    ∃ events t' ps', t.dispatch cmd = some (events, t') ∧ t'.book.Repr ps' none ∧
      (t'.book.view ps').Fits ∧ (t.book.view ps).replica.NamesAll events ∧
      (t.book.view ps).replica.applyAll events = (t'.book.view ps').replica := by
  rcases dispatch_spec hr hf.wf cmd with ⟨-, hd⟩ | ⟨k, e, b, ps', hk, hcall, hd, hr', hstep⟩
  · -- A command of no known kind tells nothing and changes nothing.
    exact ⟨[], _, ps, hd, hr, hf, trivial, rfl⟩
  · have he := (overflows_eq_false_iff hk hcall).1 hfit
    have hseq : 0 ≤ (t.book.view ps).seq := by
      have := hf.trades
      have := hf.credit
      omega
    exact ⟨_, _, ps', hd, hr', hstep.fits hf (cmd.fits_call k), hstep.publish_names hf.wf _ he,
      hstep.publish_replica hf.wf hseq _ he⟩

/-- **The events of a run** name their orders one after the other and lead from the book before it
to the book after it. -/
theorem run_names {t : MatchingThread} {ps : List Ptr} (hr : t.book.Repr ps none)
    (hf : (t.book.view ps).Fits) {cmds : List Command} (hfits : t.runFits cmds = true) :
    ∃ events t' ps', t.run cmds = some (events, t') ∧ t'.book.Repr ps' none ∧
      (t'.book.view ps').Fits ∧ (t.book.view ps).replica.NamesAll events ∧
      (t.book.view ps).replica.applyAll events = (t'.book.view ps').replica := by
  induction cmds generalizing t ps with
  | nil => exact ⟨[], t, ps, rfl, hr, hf, trivial, rfl⟩
  | cons cmd cmds ih =>
    rw [runFits, Bool.and_eq_true, Bool.not_eq_true'] at hfits
    obtain ⟨hfit, hrest⟩ := hfits
    obtain ⟨events, t₁, ps₁, hd, hr₁, hf₁, hnames, hread⟩ := dispatch_names hr hf hfit
    rw [hd, Option.all_some] at hrest
    obtain ⟨events', t', ps', hrun, hr', hf', hnames', hread'⟩ := ih hr₁ hf₁ hrest
    refine ⟨events ++ events', t', ps', ?_, hr', hf', ?_, ?_⟩
    · rw [run, hd]
      change (t₁.run cmds).bind _ = _
      rw [hrun]
      rfl
    · rw [Replica.namesAll_append, hread]
      exact ⟨hnames, hnames'⟩
    · rw [Replica.applyAll_append, hread, hread']

end MatchingThread

end Velox
