import Velox.Gateway.Routing

/-!
# Reports reach their sessions

The invariant of the runs in which sessions keep to ids of their own. An order is *active* while it
rests or a new order with its id is on the way. For an active order no reject waits, so that nothing
will take its route away, and the route is that of the one session with a stake in it; a report of a
trade that waits is not behind a reject for the same order.

All steps but the request and the dispatch only take away from what the invariant speaks about
(`Inv.shrink`).
-/

namespace Velox

open QueueBook MatchingThread

/-- A report of a trade went to the session of the order, if that was open. -/
def Delivery.Right (d : Delivery) : Prop :=
  ∀ s, d.owner = some s → d.ownerOpen = true → d.recipient = some s

namespace RoutedShard

variable {g : Gate} {cfg : BookConfig} {st st' : RoutedShard} {i : Int} {s : Nat}

def active (st : RoutedShard) (i : Int) : Prop :=
  Rests st.thread.book.resting i ∨ ∃ e ∈ st.commandsOn i, e.isNew = true

theorem rests_iff : st.rests i = true ↔ Rests st.thread.book.resting i := by
  simp only [rests, List.any_eq_true, decide_eq_true_eq, Rests]

theorem mem_stakes : s ∈ st.stakes i ↔ (∃ e ∈ st.commandsOn i, e.session = s) ∨
    (Rests st.thread.book.resting i ∧ st.owner.find i = some s) ∨
      ∃ w ∈ st.waiting, w.id = i ∧ w.owner = some s := by
  rw [stakes, List.mem_append, List.mem_append, or_assoc, List.mem_map, ← rests_iff]
  refine or_congr Iff.rfl (or_congr ?_ ?_)
  · split
    · next h => rw [Option.mem_toList]; exact ⟨fun hs => ⟨h, hs⟩, fun hs => hs.2⟩
    · next h => exact ⟨fun hs => absurd hs List.not_mem_nil, fun hs => absurd hs.1 h⟩
  · simp only [List.mem_filterMap, List.mem_filter, decide_eq_true_eq, and_assoc]

structure Inv (g : Gate) (cfg : BookConfig) (st : RoutedShard) : Prop where
  reachable : st.thread.book.Reachable
  cfg_eq : st.thread.book.cfg = cfg
  admitted : ∀ e ∈ st.ring ++ st.held, ∃ m r p,
    g.Admits m ∧ m.request? = some r ∧ e.command = r.command p
  oneEach : (st.held.map Sent.session).Nodup
  agree : ∀ i, ∀ s ∈ st.stakes i, ∀ s' ∈ st.stakes i, s = s'
  newFirst : ∀ i, ∀ e ∈ (st.commandsOn i).tail, e.isNew = false
  newFresh : ∀ i, ∀ e ∈ st.commandsOn i, e.isNew = true → ¬ Rests st.thread.book.resting i
  noReject : ∀ i, st.active i → ∀ w ∈ st.waiting, w.rejects = true → w.id ≠ i
  rejectsLast : st.waiting.Pairwise fun a b => a.rejects = true → b.owner.isSome = true → a.id ≠ b.id
  routed : ∀ i s, s ∉ st.closed → s ∈ st.stakes i →
    (st.active i ∨ ∃ w ∈ st.waiting, w.id = i ∧ w.owner = some s) →
      (st.routes.find i).map RouteEntry.session = some s
  right : ∀ d ∈ st.deliveries, d.Right

theorem inv_start {t : MatchingThread} (ht : t.book.Reachable) : Inv g t.book.cfg (start t) := by
  have hcommands : ∀ i, (start t).commandsOn i = [] := fun _ => rfl
  have hnone : ∀ i s, s ∉ (start t).stakes i := by
    intro i s hs
    rcases mem_stakes.1 hs with ⟨e, he, -⟩ | ⟨-, ho⟩ | ⟨w, hw, -⟩
    · exact List.not_mem_nil he
    · cases ho
    · exact List.not_mem_nil hw
  refine ⟨ht, rfl, fun e he => absurd he List.not_mem_nil, List.nodup_nil,
    fun i s hs => absurd hs (hnone i s), fun i e he => ?_, fun i e he => ?_,
    fun i _ w hw => absurd hw List.not_mem_nil, List.Pairwise.nil,
    fun i s _ hs => absurd hs (hnone i s), fun d hd => absurd hd List.not_mem_nil⟩
  · rw [hcommands] at he
    exact absurd he List.not_mem_nil
  · rw [hcommands] at he
    exact absurd he List.not_mem_nil

/-! ## Steps that take away -/

structure Shrinks (st st' : RoutedShard) : Prop where
  thread : st'.thread = st.thread
  owner : st'.owner = st.owner
  flight : ∀ e ∈ st'.ring ++ st'.held, e ∈ st.ring ++ st.held
  held : (st'.held.map Sent.session).Sublist (st.held.map Sent.session)
  commands : ∀ i, (st'.commandsOn i).Sublist (st.commandsOn i)
  waiting : st'.waiting.Sublist st.waiting
  closed : ∀ s ∈ st.closed, s ∈ st'.closed

theorem Shrinks.mem_stakes (h : Shrinks st st') (hs : s ∈ st'.stakes i) : s ∈ st.stakes i := by
  rw [RoutedShard.mem_stakes, h.thread, h.owner] at hs
  rw [RoutedShard.mem_stakes]
  rcases hs with ⟨e, he, hes⟩ | hs | ⟨w, hw, hws⟩
  · exact Or.inl ⟨e, (h.commands i).subset he, hes⟩
  · exact Or.inr (Or.inl hs)
  · exact Or.inr (Or.inr ⟨w, h.waiting.subset hw, hws⟩)

theorem Shrinks.active (h : Shrinks st st') (ha : st'.active i) : st.active i := by
  rcases ha with ha | ⟨e, he, hnew⟩
  · rw [h.thread] at ha
    exact Or.inl ha
  · exact Or.inr ⟨e, (h.commands i).subset he, hnew⟩

theorem Inv.shrink (h : Inv g cfg st) (hs : Shrinks st st')
    (hroutes : ∀ i s, s ∉ st'.closed → s ∈ st'.stakes i →
      (st'.active i ∨ ∃ w ∈ st'.waiting, w.id = i ∧ w.owner = some s) →
        st'.routes.find i = st.routes.find i)
    (hright : ∀ d ∈ st'.deliveries, d.Right) : Inv g cfg st' := by
  refine ⟨hs.thread ▸ h.reachable, hs.thread ▸ h.cfg_eq, fun e he => h.admitted e (hs.flight e he),
    h.oneEach.sublist hs.held, fun i s hsi s' hsi' => ?_, fun i e he => ?_, fun i e he hnew => ?_,
    fun i ha w hw => ?_, h.rejectsLast.sublist hs.waiting, fun i s hopen hsi hcase => ?_, hright⟩
  · exact h.agree i s (hs.mem_stakes hsi) s' (hs.mem_stakes hsi')
  · exact h.newFirst i e ((hs.commands i).tail.subset he)
  · rw [hs.thread]
    exact h.newFresh i e ((hs.commands i).subset he) hnew
  · exact h.noReject i (hs.active ha) w (hs.waiting.subset hw)
  · rw [hroutes i s hopen hsi hcase]
    refine h.routed i s (fun hc => hopen (hs.closed s hc)) (hs.mem_stakes hsi) ?_
    exact hcase.imp hs.active fun ⟨w, hw, hws⟩ => ⟨w, hs.waiting.subset hw, hws⟩

/-- What a session holds is on the way. -/
theorem mem_commandsOn_of_held {e : Sent} (he : e ∈ st.held) : e ∈ st.commandsOn e.id :=
  List.mem_filter.2 ⟨List.mem_append_right _ he, decide_eq_true rfl⟩

theorem stakes_of_command {e : Sent} (he : e ∈ st.commandsOn i) : e.session ∈ st.stakes i :=
  mem_stakes.2 (Or.inl ⟨e, he, rfl⟩)

/-- The sessions other than `s` keep what they hold. -/
theorem shrinks_filter_held (st : RoutedShard) (s : Nat) (routes : SortedMap Int RouteEntry) :
    Shrinks st { st with
      held := st.held.filter (·.session ≠ s), routes := routes, closed := s :: st.closed } := by
  have hsub : (st.held.filter (·.session ≠ s)).Sublist st.held := List.filter_sublist
  have happ := (List.Sublist.refl st.ring).append hsub
  exact ⟨rfl, rfl, fun e he => happ.subset he, hsub.map _, fun i => happ.filter _, .refl _,
    fun s' hs' => List.mem_cons_of_mem _ hs'⟩

theorem Inv.durabilityFailure (h : Inv g cfg st) {e : Sent} (he : e ∈ st.held) :
    Inv g cfg { st with
      held := st.held.filter (·.session ≠ e.session), routes := st.routes.erase e.id,
      closed := e.session :: st.closed } := by
  have hs := shrinks_filter_held st e.session (st.routes.erase e.id)
  refine h.shrink hs (fun i s hopen hsi _ => ?_) h.right
  have hne : i ≠ e.id := by
    rintro rfl
    -- Everybody with a stake in this order is the session that closes.
    have := h.agree e.id s (hs.mem_stakes hsi) e.session
      (stakes_of_command (mem_commandsOn_of_held he))
    exact hopen (this ▸ List.mem_cons_self)
  change (st.routes.erase e.id).find i = _
  rw [SortedMap.find_erase, if_neg hne]

theorem Inv.close (h : Inv g cfg st) (s : Nat) :
    Inv g cfg { st with held := st.held.filter (·.session ≠ s), closed := s :: st.closed } :=
  h.shrink (shrinks_filter_held st s st.routes) (fun _ _ _ _ _ => rfl) h.right

/-- The command goes from the session to the ring, past commands about other orders. -/
theorem Inv.sequenced (h : Inv g cfg st) {pre post : List Sent} {e : Sent}
    (hheld : st.held = pre ++ e :: post) :
    Inv g cfg { st with held := pre ++ post, ring := st.ring ++ [e] } := by
  have hcommands : ∀ i, ((st.ring ++ [e]) ++ (pre ++ post)).filter (·.id = i) =
      st.commandsOn i := by
    intro i
    rw [commandsOn, hheld]
    have hpre : e.id = i → pre.filter (·.id = i) = [] := by
      rintro rfl
      refine List.filter_eq_nil_iff.2 fun x hx hxi => ?_
      have hxmem : x ∈ st.held := by
        rw [hheld]
        exact List.mem_append_left _ hx
      have hemem : e ∈ st.held := by
        rw [hheld]
        exact List.mem_append_right _ List.mem_cons_self
      have hx' : x ∈ st.commandsOn e.id := of_decide_eq_true hxi ▸ mem_commandsOn_of_held hxmem
      have hsame := h.agree e.id _ (stakes_of_command hx') _
        (stakes_of_command (mem_commandsOn_of_held hemem))
      have hnodup := h.oneEach
      rw [hheld, List.map_append, List.map_cons, List.nodup_append] at hnodup
      exact hnodup.2.2 _ (List.mem_map_of_mem hx) _ List.mem_cons_self hsame
    by_cases hi : e.id = i
    · simp [List.filter_append, List.filter_cons, hpre hi]
    · simp [List.filter_append, hi]
  have hs : Shrinks st { st with held := pre ++ post, ring := st.ring ++ [e] } := by
    refine ⟨rfl, rfl, fun x hx => ?_, ?_, fun i => ?_, .refl _, fun s hs => hs⟩
    · rw [hheld]
      simp only [List.mem_append, List.mem_cons, List.not_mem_nil, or_false] at hx ⊢
      tauto
    · rw [hheld]
      exact ((List.Sublist.refl pre).append (List.sublist_cons_self e post)).map _
    · rw [show commandsOn { st with held := pre ++ post, ring := st.ring ++ [e] } i = _ from
        hcommands i]
  exact h.shrink hs (fun _ _ _ _ _ => rfl) h.right

/-- The router makes a report. -/
theorem Inv.route (h : Inv g cfg st) {w : Waiting} {waiting : List Waiting}
    (hw : st.waiting = w :: waiting) :
    Inv g cfg { st with
      waiting := waiting,
      routes := if w.rejects then st.routes.erase w.id else st.routes,
      deliveries := st.deliveries ++
        [⟨w.report, w.owner, w.owner.any st.isOpen, st.recipient w.report⟩] } := by
  have hmem : w ∈ st.waiting := hw ▸ List.mem_cons_self
  have hs : Shrinks st { st with
      waiting := waiting,
      routes := if w.rejects then st.routes.erase w.id else st.routes,
      deliveries := st.deliveries ++
        [⟨w.report, w.owner, w.owner.any st.isOpen, st.recipient w.report⟩] } :=
    ⟨rfl, rfl, fun e he => he, .refl _, fun i => .refl _, hw ▸ List.sublist_cons_self w waiting,
      fun s hs => hs⟩
  refine h.shrink hs (fun i s hopen hsi hcase => ?_) fun d hd => ?_
  · change (if w.rejects then st.routes.erase w.id else st.routes).find i = _
    split
    · next hrejects =>
      have hne : i ≠ w.id := by
        rintro rfl
        rcases hcase with ha | ⟨w', hw', hid, howner⟩
        · exact h.noReject _ (hs.active ha) w hmem hrejects rfl
        · have hlast := h.rejectsLast
          rw [hw] at hlast
          exact (List.pairwise_cons.1 hlast).1 w' hw' hrejects (by rw [howner]; rfl) hid.symm
      rw [SortedMap.find_erase, if_neg hne]
    · rfl
  · rcases List.mem_append.1 hd with hd | hd
    · exact h.right d hd
    · rw [List.mem_singleton.1 hd]
      intro s howner hopen
      have hsopen : st.isOpen s = true := by
        change w.owner.any st.isOpen = true at hopen
        rw [show w.owner = some s from howner] at hopen
        exact hopen
      have hroute := h.routed w.id s (of_decide_eq_true hsopen)
        (mem_stakes.2 (Or.inr (Or.inr ⟨w, hmem, rfl, howner⟩))) (Or.inr ⟨w, hmem, rfl, howner⟩)
      change st.recipient w.report = some s
      rw [recipient, show (st.routes.find w.report.orderId).map RouteEntry.session = some s from
        hroute, Option.filter_some, if_pos hsopen]

/-! ## A request -/

theorem Request.routedId {m : Message} {r : Request} (hr : m.request? = some r) (p : Int64) :
    (r.command p).routedId = r.orderId := by
  cases m with
  | newOrder | cancel | cancelReplace =>
    cases hr
    rfl
  | _ => cases hr

/-- The requester is the only one with a stake; a new order finds its id unused. -/
structure Entitled (st : RoutedShard) (e : Sent) : Prop where
  alone : ∀ s ∈ st.stakes e.id, s = e.session
  unused : e.isNew = true → st.quiet e.id

theorem quiet_stakes (h : st.quiet i) : ∀ s, s ∉ st.stakes i := by
  intro s hs
  rcases mem_stakes.1 hs with ⟨e, he, -⟩ | ⟨hrests, -⟩ | ⟨w, hw, hid, -⟩
  · rw [h.1] at he
    exact List.not_mem_nil he
  · rw [← rests_iff, h.2.1] at hrests
    cases hrests
  · exact h.2.2 w hw hid

theorem entitled_of_careful {n : UInt64} {p : Int64} {m : Message} {r : Request}
    (h : st.careful (.request s n p m)) (hr : m.request? = some r) :
    Entitled st ⟨s, r.command p⟩ := by
  have hid : Sent.id ⟨s, r.command p⟩ = r.orderId.toInt := by
    rw [Sent.id, Request.routedId hr]
  cases m with
  | newOrder m =>
    cases hr
    refine ⟨fun s' hs' => ?_, fun _ => hid ▸ h⟩
    rw [hid] at hs'
    exact absurd hs' (quiet_stakes h s')
  | cancel m =>
    cases hr
    exact ⟨hid ▸ h, nofun⟩
  | cancelReplace m =>
    cases hr
    exact ⟨hid ▸ h, nofun⟩
  | _ => cases hr

/-- What a request changes. -/
structure Requests (st st' : RoutedShard) (e : Sent) : Prop where
  thread : st'.thread = st.thread
  owner : st'.owner = st.owner
  waiting : st'.waiting = st.waiting
  closed : st'.closed = st.closed
  deliveries : st'.deliveries = st.deliveries
  ring : st'.ring = st.ring
  held : st'.held = st.held ++ [e]
  routes : ∀ i, (st'.routes.find i).map RouteEntry.session =
    if i = e.id then some e.session else (st.routes.find i).map RouteEntry.session

theorem requests_put (st : RoutedShard) (e : Sent) (n : UInt64) :
    Requests st { st with
      routes := st.routes.put e.id ⟨e.session, n⟩, held := st.held ++ [e] } e := by
  refine ⟨rfl, rfl, rfl, rfl, rfl, rfl, rfl, fun i => ?_⟩
  change ((st.routes.put e.id ⟨e.session, n⟩).find i).map _ = _
  rw [SortedMap.find_put]
  split <;> rfl

section Requests

variable {e : Sent}

theorem Requests.commands (hr : Requests st st' e) (i : Int) :
    st'.commandsOn i = st.commandsOn i ++ if e.id = i then [e] else [] := by
  rw [commandsOn, hr.ring, hr.held, commandsOn, ← List.append_assoc, List.filter_append]
  congr 1
  by_cases hi : e.id = i
  · simp [hi]
  · simp [hi]

theorem Requests.mem_commands (hr : Requests st st' e) {x : Sent} (hx : x ∈ st'.commandsOn i) :
    x ∈ st.commandsOn i ∨ x = e ∧ e.id = i := by
  rw [hr.commands, List.mem_append] at hx
  refine hx.imp_right fun hx => ?_
  split at hx
  · next hi => exact ⟨List.mem_singleton.1 hx, hi⟩
  · exact absurd hx List.not_mem_nil

theorem Requests.mem_stakes (hr : Requests st st' e) (hs : s ∈ st'.stakes i) :
    s ∈ st.stakes i ∨ s = e.session ∧ e.id = i := by
  rw [RoutedShard.mem_stakes, hr.thread, hr.owner, hr.waiting] at hs
  rw [RoutedShard.mem_stakes]
  rcases hs with ⟨x, hx, rfl⟩ | hs | hs
  · rcases hr.mem_commands hx with hx | ⟨rfl, hi⟩
    · exact Or.inl (Or.inl ⟨x, hx, rfl⟩)
    · exact Or.inr ⟨rfl, hi⟩
  · exact Or.inl (Or.inr (Or.inl hs))
  · exact Or.inl (Or.inr (Or.inr hs))

theorem Requests.alone (hr : Requests st st' e) (he : Entitled st e) (hs : s ∈ st'.stakes e.id) :
    s = e.session :=
  (hr.mem_stakes hs).elim (he.alone s) And.left

theorem Requests.active (hr : Requests st st' e) (ha : st'.active i) :
    st.active i ∨ e.isNew = true ∧ e.id = i := by
  rcases ha with ha | ⟨x, hx, hnew⟩
  · rw [hr.thread] at ha
    exact Or.inl (Or.inl ha)
  · rcases hr.mem_commands hx with hx | ⟨rfl, hi⟩
    · exact Or.inl (Or.inr ⟨x, hx, hnew⟩)
    · exact Or.inr ⟨hnew, hi⟩

theorem Inv.request (h : Inv g cfg st) (hr : Requests st st' e) (he : Entitled st e)
    (hadmitted : ∃ m r p, g.Admits m ∧ m.request? = some r ∧ e.command = r.command p)
    (hheld : ∀ x ∈ st.held, x.session ≠ e.session) : Inv g cfg st' where
  reachable := hr.thread ▸ h.reachable
  cfg_eq := hr.thread ▸ h.cfg_eq
  admitted x hx := by
    rw [hr.ring, hr.held, ← List.append_assoc, List.mem_append] at hx
    rcases hx with hx | hx
    · exact h.admitted x hx
    · rw [List.mem_singleton.1 hx]
      exact hadmitted
  oneEach := by
    rw [hr.held, List.map_append, List.nodup_append]
    refine ⟨h.oneEach, List.nodup_singleton _, fun a ha b hb => ?_⟩
    obtain ⟨x, hx, rfl⟩ := List.mem_map.1 ha
    rw [List.mem_singleton.1 hb]
    exact hheld x hx
  agree i s hs s' hs' := by
    by_cases hi : e.id = i
    · subst hi
      exact (hr.alone he hs).trans (hr.alone he hs').symm
    · exact h.agree i s ((hr.mem_stakes hs).resolve_right fun hne => hi hne.2) s'
        ((hr.mem_stakes hs').resolve_right fun hne => hi hne.2)
  newFirst i x hx := by
    rw [hr.commands] at hx
    split at hx
    · next hi =>
      cases hnew : e.isNew with
      | true =>
        -- The id was unused, so the new order is the only command about it.
        rw [← hi, (he.unused hnew).1] at hx
        exact absurd hx List.not_mem_nil
      | false =>
        have hfirst := h.newFirst i
        cases hcommands : st.commandsOn i with
        | nil =>
          rw [hcommands] at hx
          exact absurd hx List.not_mem_nil
        | cons first rest =>
          rw [hcommands, List.cons_append, List.tail_cons, List.mem_append] at hx
          rw [hcommands, List.tail_cons] at hfirst
          rcases hx with hx | hx
          · exact hfirst x hx
          · rw [List.mem_singleton.1 hx, hnew]
    · rw [List.append_nil] at hx
      exact h.newFirst i x hx
  newFresh i x hx hnew := by
    rw [hr.thread]
    rcases hr.mem_commands hx with hx | ⟨rfl, rfl⟩
    · exact h.newFresh i x hx hnew
    · rw [← rests_iff, (he.unused hnew).2.1]
      decide
  noReject i ha w hw hrejects := by
    rw [hr.waiting] at hw
    rcases hr.active ha with ha | ⟨hnew, rfl⟩
    · exact h.noReject i ha w hw hrejects
    · exact (he.unused hnew).2.2 w hw
  rejectsLast := hr.waiting ▸ h.rejectsLast
  routed i s hopen hs hcase := by
    rw [hr.closed] at hopen
    rw [hr.routes]
    split
    · next hi =>
      subst hi
      rw [hr.alone he hs]
    · next hi =>
      refine h.routed i s hopen ((hr.mem_stakes hs).resolve_right fun hne => hi hne.2.symm) ?_
      rw [hr.waiting] at hcase
      exact hcase.imp_left fun ha => (hr.active ha).resolve_right fun hne => hi hne.2.symm
  right := hr.deliveries ▸ h.right

end Requests

/-! ## A dispatch -/

/-- What a dispatch of `e` changes. -/
structure Dispatches (st st' : RoutedShard) (e : Sent) (ws : List Waiting) : Prop where
  ring : st.ring = e :: st'.ring
  held : st'.held = st.held
  routes : st'.routes = st.routes
  waiting : st'.waiting = st.waiting ++ ws
  closed : st'.closed = st.closed
  deliveries : st'.deliveries = st.deliveries
  reachable : st'.thread.book.Reachable
  cfg_eq : st'.thread.book.cfg = st.thread.book.cfg
  dispatched : Dispatched e.session e.id e.isNew st.owner st'.owner st.thread.book.resting
    st'.thread.book.resting ws

section Dispatches

variable {e : Sent} {ws : List Waiting}

theorem Dispatches.commands (hd : Dispatches st st' e ws) (i : Int) :
    st.commandsOn i = (if e.id = i then [e] else []) ++ st'.commandsOn i := by
  rw [commandsOn, hd.ring, ← hd.held, commandsOn, List.cons_append]
  by_cases hi : e.id = i
  · simp [hi]
  · simp [hi]

theorem Dispatches.commands_sublist (hd : Dispatches st st' e ws) (i : Int) :
    (st'.commandsOn i).Sublist (st.commandsOn i) := by
  rw [hd.commands]
  exact List.sublist_append_right _ _

/-- Behind the command that is dispatched there is no new order for the same id. -/
theorem Dispatches.not_new (hd : Dispatches st st' e ws) (h : Inv g cfg st) {x : Sent}
    (hx : x ∈ st'.commandsOn e.id) : x.isNew = false := by
  refine h.newFirst e.id x ?_
  rw [hd.commands, if_pos rfl]
  exact hx

theorem Dispatches.mem_command (hd : Dispatches st st' e ws) : e ∈ st.commandsOn e.id := by
  rw [hd.commands, if_pos rfl]
  exact List.mem_append_left _ (List.mem_singleton_self _)

/-- A command with trades is about an active order. -/
theorem Dispatches.active_of (hd : Dispatches st st' e ws)
    (hi : e.isNew = true ∨ Rests st.thread.book.resting e.id) : st.active e.id :=
  hi.elim (fun hnew => Or.inr ⟨e, hd.mem_command, hnew⟩) Or.inl

/-- A report with an owner is about an active order in which the owner had a stake. -/
theorem Dispatches.owned (hd : Dispatches st st' e ws) {w : Waiting} (hw : w ∈ ws)
    (howner : w.owner = some s) : st.active w.id ∧ s ∈ st.stakes w.id := by
  obtain ⟨trades, status, rfl, htrades, hstatus⟩ := hd.dispatched.reports
  rcases List.mem_append.1 hw with hw | hw
  · rcases (htrades w hw).2 with ⟨hid, hs, hi⟩ | ⟨-, hrests, hs⟩
    · rw [hid]
      rw [hs] at howner
      cases howner
      exact ⟨hd.active_of hi, stakes_of_command hd.mem_command⟩
    · rw [hs] at howner
      exact ⟨Or.inl hrests, mem_stakes.2 (Or.inr (Or.inl ⟨hrests, howner⟩))⟩
  · rw [(hstatus w hw).1] at howner
    cases howner

theorem Dispatches.mem_stakes (hd : Dispatches st st' e ws) (hs : s ∈ st'.stakes i) :
    s ∈ st.stakes i := by
  rcases RoutedShard.mem_stakes.1 hs with ⟨x, hx, rfl⟩ | ⟨hrests, howner⟩ | ⟨w, hw, rfl, howner⟩
  · exact stakes_of_command ((hd.commands_sublist i).subset hx)
  · rcases hd.dispatched.rests i hrests with ⟨hne, hbefore⟩ | ⟨rfl, howner', -⟩
    · rw [hd.dispatched.owners i hne] at howner
      exact RoutedShard.mem_stakes.2 (Or.inr (Or.inl ⟨hbefore, howner⟩))
    · rw [howner'] at howner
      cases howner
      exact stakes_of_command hd.mem_command
  · rw [hd.waiting, List.mem_append] at hw
    rcases hw with hw | hw
    · exact RoutedShard.mem_stakes.2 (Or.inr (Or.inr ⟨w, hw, rfl, howner⟩))
    · exact (hd.owned hw howner).2

theorem Dispatches.active (hd : Dispatches st st' e ws) (ha : st'.active i) : st.active i := by
  rcases ha with ha | ⟨x, hx, hnew⟩
  · rcases hd.dispatched.rests i ha with ⟨-, hbefore⟩ | ⟨rfl, -, hi⟩
    · exact Or.inl hbefore
    · exact hd.active_of hi
  · exact Or.inr ⟨x, (hd.commands_sublist i).subset hx, hnew⟩

/-- A reject that a dispatch makes is for an order that is not active afterwards. -/
theorem Dispatches.rejected (hd : Dispatches st st' e ws) (h : Inv g cfg st) {w : Waiting}
    (hw : w ∈ ws) (hrejects : w.rejects = true) : ¬ st'.active w.id := by
  obtain ⟨trades, status, rfl, htrades, hstatus⟩ := hd.dispatched.reports
  rcases List.mem_append.1 hw with hw | hw
  · rw [(htrades w hw).1] at hrejects
    cases hrejects
  · obtain ⟨-, hid, hgone⟩ := hstatus w hw
    rw [hid]
    rintro (hrests | ⟨x, hx, hnew⟩)
    · exact hgone hrejects hrests
    · rw [hd.not_new h hx] at hnew
      cases hnew

theorem Dispatches.pairwise (hd : Dispatches st st' e ws) :
    ws.Pairwise fun a b => a.rejects = true → b.owner.isSome = true → a.id ≠ b.id := by
  obtain ⟨trades, status, rfl, htrades, hstatus⟩ := hd.dispatched.reports
  have hno : ∀ a ∈ trades, ∀ b : Waiting, a.rejects = true → b.owner.isSome = true →
      a.id ≠ b.id := by
    intro a ha b hrejects
    rw [(htrades a ha).1] at hrejects
    cases hrejects
  have hnone : ∀ b ∈ status, ∀ a : Waiting, a.rejects = true → b.owner.isSome = true →
      a.id ≠ b.id := by
    intro b hb a _ hsome
    rw [(hstatus b hb).1] at hsome
    cases hsome
  refine List.pairwise_append.2 ⟨?_, ?_, fun a ha b _ => hno a ha b⟩
  · exact List.pairwise_of_forall_mem_list fun a ha b _ => hno a ha b
  · exact List.pairwise_of_forall_mem_list fun a _ b hb => hnone b hb a

theorem Inv.dispatch (h : Inv g cfg st) (hd : Dispatches st st' e ws) : Inv g cfg st' where
  reachable := hd.reachable
  cfg_eq := hd.cfg_eq.trans h.cfg_eq
  admitted x hx := by
    refine h.admitted x ?_
    rw [hd.held] at hx
    rw [hd.ring]
    exact List.mem_cons_of_mem _ hx
  oneEach := hd.held ▸ h.oneEach
  agree i s hs s' hs' := h.agree i s (hd.mem_stakes hs) s' (hd.mem_stakes hs')
  newFirst i x hx := h.newFirst i x ((hd.commands_sublist i).tail.subset hx)
  newFresh i x hx hnew hrests := by
    rcases hd.dispatched.rests i hrests with ⟨-, hbefore⟩ | ⟨rfl, -⟩
    · exact h.newFresh i x ((hd.commands_sublist i).subset hx) hnew hbefore
    · rw [hd.not_new h hx] at hnew
      cases hnew
  noReject i ha w hw hrejects := by
    rw [hd.waiting, List.mem_append] at hw
    rcases hw with hw | hw
    · exact h.noReject i (hd.active ha) w hw hrejects
    · rintro rfl
      exact hd.rejected h hw hrejects ha
  rejectsLast := by
    rw [hd.waiting]
    refine List.pairwise_append.2 ⟨h.rejectsLast, hd.pairwise, fun a ha b hb hrejects hsome => ?_⟩
    obtain ⟨s, hs⟩ := Option.isSome_iff_exists.1 hsome
    exact h.noReject b.id (hd.owned hb hs).1 a ha hrejects
  routed i s hopen hs hcase := by
    rw [hd.closed] at hopen
    rw [hd.routes]
    refine h.routed i s hopen (hd.mem_stakes hs) ?_
    rcases hcase with ha | ⟨w, hw, rfl, howner⟩
    · exact Or.inl (hd.active ha)
    · rw [hd.waiting, List.mem_append] at hw
      rcases hw with hw | hw
      · exact Or.inr ⟨w, hw, rfl, howner⟩
      · exact Or.inl (hd.owned hw howner).1
  right := hd.deliveries ▸ h.right

end Dispatches

/-! ## Runs -/

/-- A session holds at most one command. -/
theorem Inv.held_split (h : Inv g cfg st) {e : Sent}
    (he : st.held.find? (·.session = s) = some e) : ∃ pre post, st.held = pre ++ e :: post ∧
      st.held.filter (·.session ≠ s) = pre ++ post := by
  obtain ⟨hes, pre, post, hheld, hpre⟩ := List.find?_eq_some_iff_append.1 he
  obtain rfl : e.session = s := of_decide_eq_true hes
  refine ⟨pre, post, hheld, ?_⟩
  have hnodup := h.oneEach
  rw [hheld, List.map_append, List.map_cons, List.nodup_append, List.nodup_cons] at hnodup
  rw [hheld, List.filter_append, List.filter_cons_of_neg (by simp), List.filter_eq_self.2,
    List.filter_eq_self.2]
  · intro x hx
    rw [decide_eq_true_eq]
    exact fun hsame => hnodup.2.1.1 (List.mem_map.2 ⟨x, hx, hsame⟩)
  · intro x hx
    have := hpre x hx
    simpa using this

/-- The command at the front of the ring is a request, and a new order's id does not rest. -/
theorem Inv.dispatch_spec (h : Inv g cfg st)
    (hrange : g.minPrice.toInt = cfg.minPrice ∧ g.maxPrice.toInt = cfg.maxPrice) {e : Sent}
    {ring : List Sent} (hring : st.ring = e :: ring) {step : List OutboundEvent × MatchingThread}
    (hstep : st.thread.dispatch e.command = some step) :
    step.2.book.Reachable ∧ step.2.book.cfg = st.thread.book.cfg ∧
      Dispatched e.session e.id e.isNew st.owner (ownersAfter st.owner e.session step.1)
        st.thread.book.resting step.2.book.resting
        (step.1.flatMap (ownedReports e.session st.owner)) := by
  have hflight : e ∈ st.ring ++ st.held := by
    rw [hring]
    exact List.mem_append_left _ List.mem_cons_self
  obtain ⟨m, r, p, hm, hr, hcommand⟩ := h.admitted e hflight
  have he : e = ⟨e.session, r.command p⟩ := by rw [← hcommand]
  have hid : e.id = r.orderId.toInt := by
    rw [Sent.id, hcommand, Request.routedId hr]
  have hon : e ∈ st.commandsOn e.id := List.mem_filter.2 ⟨hflight, decide_eq_true rfl⟩
  rw [← h.cfg_eq] at hrange
  obtain ⟨events, t', hdispatch, hreach, hcfg, hdispatched⟩ := dispatch_dispatched
    e.session st.owner h.reachable hrange p hm hr (by
      rw [← he, ← hid]
      exact h.newFresh e.id e hon)
  rw [hcommand, hdispatch] at hstep
  cases hstep
  rw [← he, ← hid] at hdispatched
  exact ⟨hreach, hcfg, hdispatched⟩

/-- **One step.** -/
theorem Inv.move (h : Inv g cfg st)
    (hrange : g.minPrice.toInt = cfg.minPrice ∧ g.maxPrice.toInt = cfg.maxPrice) {mv : Move}
    (hcareful : st.careful mv) (hmove : st.move g mv = some st') : Inv g cfg st' := by
  cases mv with
  | request s n p m =>
    rw [RoutedShard.move] at hmove
    split at hmove
    · cases hmove
    · next r hr =>
      dsimp only at hmove
      split at hmove
      · next hok =>
        cases hmove
        exact h.request (requests_put st ⟨s, r.command p⟩ n) (entitled_of_careful hcareful hr)
          ⟨m, r, p, hok.1, hr, rfl⟩ hok.2.2
      · cases hmove
  | sequenced s =>
    obtain ⟨e, he, rfl⟩ := Option.map_eq_some_iff.1 hmove
    obtain ⟨pre, post, hheld, hfilter⟩ := h.held_split he
    rw [hfilter]
    exact h.sequenced hheld
  | durabilityFailure s =>
    obtain ⟨e, he, rfl⟩ := Option.map_eq_some_iff.1 hmove
    obtain rfl : e.session = s := by simpa using List.find?_some he
    exact h.durabilityFailure (List.mem_of_find?_eq_some he)
  | dispatch =>
    rw [RoutedShard.move] at hmove
    split at hmove
    · cases hmove
    · next e ring hring =>
      obtain ⟨step, hstep, rfl⟩ := Option.map_eq_some_iff.1 hmove
      obtain ⟨hreach, hcfg, hdispatched⟩ := h.dispatch_spec hrange hring hstep
      exact h.dispatch ⟨hring, rfl, rfl, rfl, rfl, rfl, hreach, hcfg, hdispatched⟩
  | route =>
    rw [RoutedShard.move] at hmove
    split at hmove
    · cases hmove
    · next w waiting hw =>
      cases hmove
      exact h.route hw
  | close s =>
    cases hmove
    exact h.close s

theorem Inv.moves (h : Inv g cfg st)
    (hrange : g.minPrice.toInt = cfg.minPrice ∧ g.maxPrice.toInt = cfg.maxPrice) {mvs : List Move}
    (hcareful : st.Careful g mvs) (hmoves : st.moves g mvs = some st') : Inv g cfg st' := by
  induction mvs generalizing st with
  | nil =>
    cases hmoves
    exact h
  | cons mv mvs ih =>
    obtain ⟨st₁, hmove, hrest⟩ := Option.bind_eq_some_iff.1 hmoves
    obtain ⟨hcareful, hlater⟩ := hcareful
    rw [hmove] at hlater
    exact ih (h.move hrange hcareful hmove) hlater hrest

/-- **Reports of trades reach the session whose order they are about.** From any book, in every run
in which requests are careful and the server's price range is that of the book, every report of a
trade goes to the session that put the order into the engine, if that is still open, and to nobody
else. -/
theorem deliveries_right {t : MatchingThread} (ht : t.book.Reachable)
    (hrange : g.minPrice.toInt = t.book.cfg.minPrice ∧ g.maxPrice.toInt = t.book.cfg.maxPrice)
    {mvs : List Move} (hcareful : (start t).Careful g mvs)
    (hmoves : (start t).moves g mvs = some st') : ∀ d ∈ st'.deliveries, d.Right :=
  ((inv_start ht).moves hrange hcareful hmoves).right

/-! ### Two runs on the small book -/

def smallThread : MatchingThread := ⟨OrderBook.smallBook, 0⟩

theorem smallThread_reachable : smallThread.book.Reachable := by
  obtain ⟨b, hall, hreach⟩ := OrderBook.reachable_applyAll OrderBook.create_smallConfig []
  obtain rfl : smallThread.book = b := Option.some.inj (hall ⟨.empty 0, none⟩)
  exact hreach

def smallGate : Gate := ⟨[1], 100, 120⟩

/-- Session `s`, of participant `s`, sends an order of 5 at 110, and it is matched. -/
def sendOrder (s : Nat) (id : Int64) (side : Side) : List Move :=
  [.request s 1 (.ofNat s) (.newOrder ⟨1, id, 1, side, .limit, 110, 5, .day⟩), .sequenced s,
    .dispatch]

/-- What a delivery was about and where it went. -/
def Delivery.summary (d : Delivery) : Int × Option Nat × Option Nat :=
  (d.report.orderId, d.owner, d.recipient)

/-- Sessions 1 and 2 trade under ids of their own. -/
def ownIds : List Move := sendOrder 1 1 .sell ++ sendOrder 2 2 .buy ++ [.route, .route]

theorem deliveries_right_ownIds : ∃ st', (start smallThread).moves smallGate ownIds = some st' ∧
    st'.deliveries.map Delivery.summary = [(2, some 2, some 2), (1, some 1, some 1)] ∧
      ∀ d ∈ st'.deliveries, d.Right := by
  have hrun : ((start smallThread).moves smallGate ownIds).map
      (fun st => st.deliveries.map Delivery.summary) =
        some [(2, some 2, some 2), (1, some 1, some 1)] := by decide +kernel
  obtain ⟨st', hmoves, hsummary⟩ := Option.map_eq_some_iff.1 hrun
  exact ⟨st', hmoves, hsummary, deliveries_right smallThread_reachable (by decide +kernel)
    (by decide +kernel : (start smallThread).Careful smallGate ownIds) hmoves⟩

/-- Session 2 sends an order under the id of the order of session 1 that rests. The engine rejects
it, and session 3 trades with the order of session 1. -/
def duplicateId : List Move :=
  sendOrder 1 1 .sell ++ sendOrder 2 1 .buy ++ [.route] ++ sendOrder 3 3 .buy ++ [.route, .route]

/-- The trade is reported to session 3, and to nobody for the order of session 1. -/
theorem duplicate_id_drops_report : ∃ st',
    (start smallThread).moves smallGate duplicateId = some st' ∧
      st'.deliveries.map Delivery.summary =
        [(1, none, some 2), (3, some 3, some 3), (1, some 1, none)] ∧
      st'.closed = [] ∧ ¬ ∀ d ∈ st'.deliveries, d.Right := by
  have hrun : ((start smallThread).moves smallGate duplicateId).map
      (fun st => (st.deliveries.map Delivery.summary, st.closed,
        st.deliveries.any fun d => decide (d.owner = some 1 ∧ d.ownerOpen = true ∧
          d.recipient = none))) =
        some ([(1, none, some 2), (3, some 3, some 3), (1, some 1, none)], [], true) := by
    decide +kernel
  obtain ⟨st', hmoves, hsummary⟩ := Option.map_eq_some_iff.1 hrun
  rw [Prod.mk.injEq, Prod.mk.injEq] at hsummary
  refine ⟨st', hmoves, hsummary.1, hsummary.2.1, fun hright => ?_⟩
  obtain ⟨d, hd, hlost⟩ := List.any_eq_true.1 hsummary.2.2
  obtain ⟨howner, hopen, hrecipient⟩ := of_decide_eq_true hlost
  have := hright d hd 1 howner hopen
  rw [hrecipient] at this
  cases this

end RoutedShard

end Velox
