import Velox.Gateway.Session

/-!
# What a session gets sequenced

However the bytes of a client arrive and whatever the sequencer answers, the commands a session gets
sequenced are numbered without a gap from the number of its login, and the command with a number is
that of the first message after the login which carries it (`Serves.sequenced_spec`).

The invariant is `Standing`. Between login and close the commands that were sequenced, with the one
that is kept for a retry behind them, are those of the numbers up to `lastClientSeq_`, and no message
seen so far carries a later one: so the next number is that of a new message. A kept command stops
the reading, and is never joined by a second.
-/

namespace Velox

namespace ClientSession

/-! ## The property -/

def Action.sequenced? : Action → Option (UInt64 × Command)
  | .trySubmit _ n cmd (.sequenced _) => some (n, cmd)
  | _ => none

/-- The commands that were sequenced, each with the client's number at that moment. -/
def sequenced (as : List Action) : List (UInt64 × Command) := as.filterMap Action.sequenced?

def Action.Submits (a : Action) : Prop := ∃ shard n cmd answer, a = .trySubmit shard n cmd answer

/-- Nothing is submitted before a login was acknowledged, and nothing after the socket was
closed. -/
def Guarded (as : List Action) : Prop :=
  ∀ before a after, as = before ++ a :: after → Action.Submits a →
    (∃ ack, .sendFrame (.loginAck ack) ∈ before) ∧ .closeSocket ∉ before

/-- The requests among these messages. -/
def requests (ms : List Message) : List Request := ms.filterMap Message.request?

/-- The first request that carries this number. -/
def firstWith (n : Nat) (ms : List Message) : Option Request :=
  (requests ms).find? fun r => r.clientSeqNum.toNat == n

/-- `subs` are commands of participant `p`, numbered `L + 1`, `L + 2` and so on, each that of the
first message which carries its number. -/
def NumberedFrom (L : UInt64) (p : Int64) (ms : List Message) (subs : List (UInt64 × Command)) :
    Prop :=
  ∀ i sub, subs[i]? = some sub →
    ∃ r, firstWith (L.toNat + 1 + i) ms = some r ∧ sub = (r.clientSeqNum, r.command p)

/-- The messages begin with a login of `p` whose token is the right one; `post` follow it. -/
structure LoggedIn (g : GatewayConfig) (ms : List Message) (login : LoginMsg)
    (post : List Message) : Prop where
  split : ∃ pre, ms = pre ++ .login login :: post ∧ ∀ m ∈ pre, ∃ beat, m = .heartbeat beat
  verified : g.auth.authenticate login.participantId login.token = true

/-- What may have been sequenced after these messages. -/
def Submitted (g : GatewayConfig) (ms : List Message) (subs : List (UInt64 × Command)) : Prop :=
  subs = [] ∨ ∃ login post, LoggedIn g ms login post ∧
    NumberedFrom login.clientSeqNum login.participantId post subs

variable {g : GatewayConfig} {L last : UInt64} {p : Int64} {ms post : List Message}
  {subs : List (UInt64 × Command)} {login : LoginMsg} {m : Message} {r : Request}

theorem requests_append (ms ms' : List Message) :
    requests (ms ++ ms') = requests ms ++ requests ms' := List.filterMap_append

theorem firstWith_append {n : Nat} (h : firstWith n ms = some r) (ms' : List Message) :
    firstWith n (ms ++ ms') = some r := by
  rw [firstWith] at h
  rw [firstWith, requests_append, List.find?_append, h, Option.some_or]

theorem NumberedFrom.append (h : NumberedFrom L p ms subs) (ms' : List Message) :
    NumberedFrom L p (ms ++ ms') subs := by
  intro i sub hi
  obtain ⟨r, hr, hsub⟩ := h i sub hi
  exact ⟨r, firstWith_append hr ms', hsub⟩

theorem LoggedIn.append (h : LoggedIn g ms login post) (ms' : List Message) :
    LoggedIn g (ms ++ ms') login (post ++ ms') := by
  obtain ⟨pre, rfl, hpre⟩ := h.split
  exact ⟨⟨pre, by rw [List.append_assoc, List.cons_append], hpre⟩, h.verified⟩

theorem Submitted.append (h : Submitted g ms subs) (ms' : List Message) :
    Submitted g (ms ++ ms') subs := by
  rcases h with h | ⟨login, post, hlogin, hnum⟩
  · exact Or.inl h
  · exact Or.inr ⟨login, post ++ ms', hlogin.append ms', hnum.append ms'⟩

/-- The numbering of a session that is logged in. -/
structure Numbered (L : UInt64) (p : Int64) (ms : List Message) (subs : List (UInt64 × Command))
    (last : UInt64) : Prop where
  numbers : NumberedFrom L p ms subs
  last_eq : last.toNat = L.toNat + subs.length
  le_last : ∀ r ∈ requests ms, r.clientSeqNum ≤ last

theorem Numbered.nil (L : UInt64) (p : Int64) : Numbered L p [] [] L :=
  ⟨fun _ _ h => (nomatch h), rfl, fun _ h => (nomatch h)⟩

/-- A message that is no request, or whose number has been used, changes nothing. -/
theorem Numbered.skip (h : Numbered L p ms subs last)
    (hm : ∀ r, m.request? = some r → r.clientSeqNum ≤ last) :
    Numbered L p (ms ++ [m]) subs last := by
  refine ⟨h.numbers.append [m], h.last_eq, fun r hr => ?_⟩
  rw [requests_append] at hr
  rcases List.mem_append.1 hr with hr | hr
  · exact h.le_last r hr
  · obtain ⟨m', hm', hr⟩ := List.mem_filterMap.1 hr
    rw [List.mem_singleton.1 hm'] at hr
    exact hm r hr

/-- The next number is that of the message at hand: no earlier one carries it. -/
theorem Numbered.accept (h : Numbered L p ms subs last) (hm : m.request? = some r)
    (hlt : last < r.clientSeqNum) (hle : r.clientSeqNum ≤ last + 1) :
    Numbered L p (ms ++ [m]) (subs ++ [(r.clientSeqNum, r.command p)]) r.clientSeqNum := by
  have hlast := h.last_eq
  have hnext : r.clientSeqNum.toNat = last.toNat + 1 := by
    have hlt' := UInt64.lt_iff_toNat_lt.1 hlt
    have hle' := UInt64.le_iff_toNat_le.1 hle
    rw [UInt64.toNat_add] at hle'
    have hone : (1 : UInt64).toNat = 1 := rfl
    have := Nat.mod_le (last.toNat + (1 : UInt64).toNat) (2 ^ 64)
    omega
  have hreq : requests (ms ++ [m]) = requests ms ++ [r] := by
    rw [requests_append, requests, requests, List.filterMap_cons_some hm]
    rfl
  have hfresh : firstWith r.clientSeqNum.toNat (ms ++ [m]) = some r := by
    rw [firstWith, hreq, List.find?_append, List.find?_eq_none.2, Option.none_or]
    · exact List.find?_cons_of_pos (beq_self_eq_true _)
    · intro q hq heq
      have := UInt64.le_iff_toNat_le.1 (h.le_last q hq)
      rw [beq_iff_eq] at heq
      omega
  refine ⟨fun i sub hi => ?_, ?_, fun q hq => ?_⟩
  · rw [List.getElem?_append] at hi
    split at hi
    · exact h.numbers.append [m] i sub hi
    · next hlen =>
      rw [List.getElem?_singleton] at hi
      split at hi
      · next hzero =>
        cases hi
        refine ⟨r, ?_, rfl⟩
        have hidx : L.toNat + 1 + i = r.clientSeqNum.toNat := by omega
        rw [hidx]
        exact hfresh
      · cases hi
  · rw [List.length_append, List.length_singleton]
    omega
  · rw [hreq] at hq
    rcases List.mem_append.1 hq with hq | hq
    · exact UInt64.le_of_lt (UInt64.lt_of_le_of_lt (h.le_last q hq) hlt)
    · rw [List.mem_singleton.1 hq]
      exact UInt64.le_refl _

/-! ## The invariant -/

theorem sequenced_append (as as' : List Action) :
    sequenced (as ++ as') = sequenced as ++ sequenced as' := List.filterMap_append

theorem sequenced_snoc {as : List Action} {a : Action} (h : Action.sequenced? a = none) :
    sequenced (as ++ [a]) = sequenced as := by
  rw [sequenced_append]
  have : sequenced [a] = [] := List.filterMap_cons_none h
  rw [this, List.append_nil]

theorem guarded_nil : Guarded [] := by
  intro before a after h
  exact absurd h.symm (List.append_ne_nil_of_right_ne_nil _ (List.cons_ne_nil _ _))

theorem Guarded.snoc {as : List Action} {a : Action} (h : Guarded as)
    (ha : Action.Submits a →
      (∃ ack, .sendFrame (.loginAck ack) ∈ as) ∧ .closeSocket ∉ as) :
    Guarded (as ++ [a]) := by
  intro before b after heq hb
  rcases List.eq_nil_or_concat after with rfl | ⟨after, c, rfl⟩
  · obtain ⟨rfl, hab⟩ := List.append_inj' heq rfl
    cases hab
    exact ha hb
  · rw [List.concat_eq_append, ← List.cons_append, ← List.append_assoc] at heq
    exact h before b after (List.append_inj' heq rfl).1 hb

/-- The command kept for a retry, as it will be sequenced. -/
def held (s : ClientSession) : List (UInt64 × Command) :=
  s.pending.toList.map fun kept => (s.lastClientSeq, kept.2)

theorem held_none {s : ClientSession} (h : s.pending = none) : s.held = [] := by
  rw [held, h]
  rfl

theorem held_some {s : ClientSession} {shard : Nat} {cmd : Command}
    (h : s.pending = some (shard, cmd)) : s.held = [(s.lastClientSeq, cmd)] := by
  rw [held, h]
  rfl

theorem sequenced_trySubmit (as : List Action) (shard : Nat) (n : UInt64) (cmd : Command)
    (seq : Int) :
    sequenced (as ++ [.trySubmit shard n cmd (.sequenced seq)]) = sequenced as ++ [(n, cmd)] :=
  sequenced_append _ _

/-- A session that is logged in and open. -/
structure Active (g : GatewayConfig) (ms : List Message) (login : LoginMsg) (post : List Message)
    (h : Handled) : Prop where
  state : h.1.state = .authenticated
  isOpen : h.1.closed = false
  not_closed : .closeSocket ∉ h.2
  acknowledged : ∃ ack, .sendFrame (.loginAck ack) ∈ h.2
  loggedIn : LoggedIn g ms login post
  participant : h.1.participantId = login.participantId

/-- Where a session stands that has handled the messages `ms`. -/
inductive Phase (g : GatewayConfig) (ms : List Message) (h : Handled) : Prop
  | awaiting (hstate : h.1.state = .awaitingLogin) (hopen : h.1.closed = false)
      (hkept : h.1.pending = none) (hclose : .closeSocket ∉ h.2) (hseq : sequenced h.2 = [])
      (hbeats : ∀ m ∈ ms, ∃ beat, m = .heartbeat beat)
  | authenticated (login : LoginMsg) (post : List Message) (hactive : Active g ms login post h)
      (hkept : h.1.pending.isSome = true → h.1.readSuspended = true)
      (hnum : Numbered login.clientSeqNum login.participantId post (sequenced h.2 ++ h.1.held)
        h.1.lastClientSeq)
  | closed (hclosed : h.1.closed = true) (hseq : Submitted g ms (sequenced h.2))

structure Standing (g : GatewayConfig) (ms : List Message) (h : Handled) : Prop where
  guarded : Guarded h.2
  phase : Phase g ms h

/-- The fields that matter. -/
structure Alike (s t : ClientSession) : Prop where
  state : t.state = s.state
  closed : t.closed = s.closed
  participantId : t.participantId = s.participantId
  lastClientSeq : t.lastClientSeq = s.lastClientSeq
  readSuspended : t.readSuspended = s.readSuspended
  pending : t.pending = s.pending

theorem Alike.held {s t : ClientSession} (h : Alike s t) : t.held = s.held := by
  rw [ClientSession.held, h.pending, h.lastClientSeq, ClientSession.held]

/-- An action that neither submits nor closes. -/
def Action.plain : Action → Bool
  | .trySubmit .. => false
  | .closeSocket => false
  | _ => true

theorem Action.plain_spec {a : Action} (h : Action.plain a = true) :
    Action.sequenced? a = none ∧ a ≠ .closeSocket ∧ ¬ Action.Submits a := by
  refine ⟨?_, ?_, ?_⟩
  · cases a with
    | trySubmit => cases h
    | _ => rfl
  · rintro rfl
    cases h
  · rintro ⟨_, _, _, _, rfl⟩
    cases h

variable {h : Handled}

theorem closeSocket_not_mem_snoc {as : List Action} {a : Action} (h : .closeSocket ∉ as)
    (ha : a ≠ .closeSocket) : .closeSocket ∉ as ++ [a] := fun hmem =>
  (List.mem_append.1 hmem).elim h fun hmem => ha (List.mem_singleton.1 hmem).symm

theorem Active.alike (hs : Active g ms login post h) {t : ClientSession} (ht : Alike h.1 t) :
    Active g ms login post (t, h.2) :=
  ⟨ht.state.trans hs.state, ht.closed.trans hs.isOpen, hs.not_closed, hs.acknowledged, hs.loggedIn,
    ht.participantId.trans hs.participant⟩

theorem Active.act (hs : Active g ms login post h) {a : Action} (ha : a ≠ .closeSocket) :
    Active g ms login post (act a h) :=
  ⟨hs.state, hs.isOpen, closeSocket_not_mem_snoc hs.not_closed ha,
    hs.acknowledged.imp fun _ hmem => List.mem_append_left _ hmem, hs.loggedIn, hs.participant⟩

theorem Active.append (hs : Active g ms login post h) (ms' : List Message) :
    Active g (ms ++ ms') login (post ++ ms') h :=
  { hs with loggedIn := hs.loggedIn.append ms' }

/-- A session that is logged in may submit. -/
theorem Active.guarded (hs : Active g ms login post h) (hg : Guarded h.2) (a : Action) :
    Guarded (h.2 ++ [a]) := hg.snoc fun _ => ⟨hs.acknowledged, hs.not_closed⟩

theorem Phase.alike (hs : Phase g ms h) {t : ClientSession} (ht : Alike h.1 t) :
    Phase g ms (t, h.2) := by
  cases hs with
  | awaiting hstate hopen hkept hclose hseq hbeats =>
    exact .awaiting (ht.state.trans hstate) (ht.closed.trans hopen) (ht.pending.trans hkept) hclose
      hseq hbeats
  | authenticated login post hactive hkept hnum =>
    refine .authenticated login post (hactive.alike ht) ?_ ?_
    · rw [ht.pending, ht.readSuspended]
      exact hkept
    · rw [ht.held, ht.lastClientSeq]
      exact hnum
  | closed hclosed hseq => exact .closed (ht.closed.trans hclosed) hseq

theorem Phase.act (hs : Phase g ms h) {a : Action} (ha : Action.plain a = true) :
    Phase g ms (act a h) := by
  obtain ⟨hnone, hne, -⟩ := Action.plain_spec ha
  have hseq' : sequenced (h.2 ++ [a]) = sequenced h.2 := sequenced_snoc hnone
  cases hs with
  | awaiting hstate hopen hkept hclose hseq hbeats =>
    exact .awaiting hstate hopen hkept (closeSocket_not_mem_snoc hclose hne) (hseq'.trans hseq)
      hbeats
  | authenticated login post hactive hkept hnum =>
    refine .authenticated login post (hactive.act hne) hkept ?_
    change Numbered _ _ _ (sequenced (h.2 ++ [a]) ++ h.1.held) _
    rw [hseq']
    exact hnum
  | closed hclosed hseq => exact .closed hclosed (hseq'.symm ▸ hseq)

theorem Phase.submitted (hs : Phase g ms h) : Submitted g ms (sequenced h.2) := by
  cases hs with
  | awaiting hstate hopen hkept hclose hseq hbeats => exact Or.inl hseq
  | authenticated login post hactive hkept hnum =>
    refine Or.inr ⟨login, post, hactive.loggedIn, fun i sub hi => hnum.numbers i sub ?_⟩
    rw [List.getElem?_append_left (List.getElem?_eq_some_iff.1 hi).1, hi]
  | closed hclosed hseq => exact hseq

/-- What has to hold of a session that is about to close. -/
structure Settled (g : GatewayConfig) (ms : List Message) (h : Handled) : Prop where
  guarded : Guarded h.2
  submitted : Submitted g ms (sequenced h.2)

namespace Settled

theorem append (hs : Settled g ms h) (ms' : List Message) : Settled g (ms ++ ms') h :=
  ⟨hs.guarded, hs.submitted.append ms'⟩

theorem act (hs : Settled g ms h) {a : Action} (ha : Action.plain a = true) :
    Settled g ms (act a h) := by
  obtain ⟨hnone, -, hno⟩ := Action.plain_spec ha
  refine ⟨hs.guarded.snoc fun hsub => absurd hsub hno, ?_⟩
  change Submitted g ms (sequenced (h.2 ++ [a]))
  rw [sequenced_snoc hnone]
  exact hs.submitted

theorem sendFrame (hs : Settled g ms h) (m : Message) : Settled g ms (sendFrame m h) := by
  unfold ClientSession.sendFrame
  split
  · exact hs
  · exact hs.act rfl

theorem closeSession (hs : Settled g ms h) : Standing g ms (closeSession h) := by
  unfold ClientSession.closeSession
  split
  · next hclosed => exact ⟨hs.guarded, .closed hclosed hs.submitted⟩
  · refine ⟨hs.guarded.snoc ?_, .closed rfl ?_⟩
    · rintro ⟨_, _, _, _, ha⟩
      cases ha
    · rw [sequenced_snoc rfl]
      exact hs.submitted

end Settled

theorem sendNewAckIfApplicable_fst (cmd : Command) (seq : Int) (h : Handled) :
    (sendNewAckIfApplicable cmd seq h).1 = h.1 := by
  unfold sendNewAckIfApplicable sendFrame
  split_ifs <;> rfl

namespace Standing

theorem alike (hs : Standing g ms h) {t : ClientSession} (ht : Alike h.1 t) :
    Standing g ms (t, h.2) := ⟨hs.guarded, hs.phase.alike ht⟩

theorem act (hs : Standing g ms h) {a : Action} (ha : Action.plain a = true) :
    Standing g ms (act a h) :=
  ⟨hs.guarded.snoc fun hsub => absurd hsub (Action.plain_spec ha).2.2, hs.phase.act ha⟩

theorem sendFrame (hs : Standing g ms h) (m : Message) : Standing g ms (sendFrame m h) := by
  unfold ClientSession.sendFrame
  split
  · exact hs
  · exact hs.act rfl

theorem sendNewAckIfApplicable (hs : Standing g ms h) (cmd : Command) (seq : Int) :
    Standing g ms (sendNewAckIfApplicable cmd seq h) := by
  unfold ClientSession.sendNewAckIfApplicable
  split
  · exact hs
  · exact hs.sendFrame _

theorem settled (hs : Standing g ms h) : Settled g ms h := ⟨hs.guarded, hs.phase.submitted⟩

theorem decoder (hs : Standing g ms h) (d : FrameDecoder) :
    Standing g ms ({ h.1 with decoder := d }, h.2) := hs.alike ⟨rfl, rfl, rfl, rfl, rfl, rfl⟩

theorem closeSession (hs : Standing g ms h) : Standing g ms (closeSession h) :=
  hs.settled.closeSession

theorem closeSession_append (hs : Standing g ms h) (m : Message) :
    Standing g (ms ++ [m]) (ClientSession.closeSession h) := (hs.settled.append [m]).closeSession

/-- The command of the next number, offered to the sequencer: it is sequenced, or kept, or the
session ends. `hold` is what had been sequenced before. -/
theorem submitOrPend (hg : Guarded h.2) (hactive : Active g ms login post h)
    (hkept : h.1.pending = none) {cmd : Command} (hold : Submitted g ms (sequenced h.2))
    (hnum : Numbered login.clientSeqNum login.participantId post
      (sequenced h.2 ++ [(h.1.lastClientSeq, cmd)]) h.1.lastClientSeq)
    (shard : Nat) (answer : TrySubmitResult) :
    Standing g ms (submitOrPend cmd shard answer h) := by
  obtain ⟨s, as⟩ := h
  have hroute : Active g ms login post
      (ClientSession.act (.registerRoute shard cmd.routedId s.lastClientSeq) (s, as)) :=
    hactive.act nofun
  have hgroute := hactive.guarded hg (.registerRoute shard cmd.routedId s.lastClientSeq)
  have htried := hroute.act (a := .trySubmit shard s.lastClientSeq cmd answer) nofun
  have hgtried := hroute.guarded hgroute (.trySubmit shard s.lastClientSeq cmd answer)
  have hseq : sequenced (as ++ [.registerRoute shard cmd.routedId s.lastClientSeq]) =
    sequenced as := sequenced_snoc rfl
  unfold ClientSession.submitOrPend
  cases answer with
  | sequenced seq =>
    refine sendNewAckIfApplicable ⟨hgtried, .authenticated login post htried ?_ ?_⟩ cmd seq
    · intro hsome
      exact absurd (hsome.symm.trans (congrArg Option.isSome hkept)) (by decide)
    · change Numbered _ _ _ (sequenced (_ ++ _) ++ s.held) _
      rw [sequenced_trySubmit, held_none hkept, List.append_nil]
      change Numbered _ _ _ (sequenced (_ ++ _) ++ _) _
      rw [hseq]
      exact hnum
  | ringFull =>
    refine ⟨hgtried, .authenticated login post ?_ (fun _ => rfl) ?_⟩
    · exact { htried with }
    · change Numbered _ _ _ (sequenced (_ ++ _) ++ [(s.lastClientSeq, cmd)]) _
      rw [sequenced_snoc rfl]
      change Numbered _ _ _ (sequenced (_ ++ _) ++ _) _
      rw [hseq]
      exact hnum
  | durabilityFailure =>
    refine (((Settled.mk hgtried ?_).act rfl).sendFrame _).closeSession
    change Submitted g ms (sequenced (_ ++ _))
    rw [sequenced_snoc rfl]
    change Submitted g ms (sequenced (_ ++ _))
    rw [hseq]
    exact hold

/-- One of the three requests. -/
theorem handleRequest (hs : Standing g ms h) (hstate : h.1.state = .authenticated)
    (hopen : h.1.closed = false) (hkept : h.1.pending = none) (hm : m.request? = some r)
    (hinst : r.instrumentId ∈ g.shards) (answer : TrySubmitResult) :
    Standing g (ms ++ [m]) (handleRequest g r answer h) := by
  obtain ⟨hguarded, hphase⟩ := hs
  cases hphase with
  | awaiting hstate' => rw [hstate] at hstate'; cases hstate'
  | closed hclosed => rw [hopen] at hclosed; cases hclosed
  | authenticated login post hactive hkept' hnum =>
    have hactive' := hactive.append [m]
    have hold : Submitted g (ms ++ [m]) (sequenced h.2) :=
      (Phase.authenticated login post hactive hkept' hnum).submitted.append [m]
    unfold ClientSession.handleRequest
    by_cases hdup : r.clientSeqNum ≤ h.1.lastClientSeq
    · have hcheck : checkClientSeq r.clientSeqNum r.orderId h =
        (false, sendReject r.orderId .duplicateSeq h) := if_pos hdup
      have hskip : Standing g (ms ++ [m]) h := by
        refine ⟨hguarded, .authenticated login _ hactive' hkept' (hnum.skip fun q hq => ?_)⟩
        rw [hm] at hq
        cases hq
        exact hdup
      rw [hcheck]
      exact hskip.sendFrame _
    by_cases hgap : h.1.lastClientSeq + 1 < r.clientSeqNum
    · have hcheck : checkClientSeq r.clientSeqNum r.orderId h =
          (false, ClientSession.closeSession (sendReject r.orderId .sequenceGap h)) := by
        rw [checkClientSeq, if_neg hdup, if_pos hgap]
      rw [hcheck]
      exact ((Settled.mk hguarded hold).sendFrame _).closeSession
    have hcheck : checkClientSeq r.clientSeqNum r.orderId h =
        (true, ({ h.1 with lastClientSeq := r.clientSeqNum }, h.2)) := by
      rw [checkClientSeq, if_neg hdup, if_neg hgap]
    obtain ⟨shard, hshard⟩ : ∃ shard, g.shardIndexFor r.instrumentId = some shard := by
      refine Option.isSome_iff_exists.1 ?_
      exact List.isSome_idxOf?.2 hinst
    rw [hcheck]
    dsimp only
    rw [hshard]
    refine submitOrPend (h := ({ h.1 with lastClientSeq := r.clientSeqNum }, h.2)) hguarded
      { hactive' with } hkept hold ?_ shard answer
    have haccept := hnum.accept hm (UInt64.not_le.1 hdup) (UInt64.not_lt.1 hgap)
    rw [held_none hkept, List.append_nil, ← hactive.participant] at haccept
    rw [← hactive.participant]
    exact haccept

theorem handleLogin (hs : Standing g ms h) (hopen : h.1.closed = false)
    (hkept : h.1.pending = none) (hclose : .closeSocket ∉ h.2) (hseq : sequenced h.2 = [])
    (hbeats : ∀ m ∈ ms, ∃ beat, m = .heartbeat beat) (ackSeq : Int64) :
    Standing g (ms ++ [.login login]) (handleLogin g ackSeq login h) := by
  unfold ClientSession.handleLogin
  split
  · exact (hs.sendFrame _).closeSession_append _
  · next hauth =>
    rw [ClientSession.sendFrame, if_neg (by rw [hopen]; decide)]
    refine ⟨hs.guarded.snoc ?_, .authenticated login [] ?_ ?_ ?_⟩
    · rintro ⟨_, _, _, _, ha⟩
      cases ha
    · refine ⟨rfl, hopen, closeSocket_not_mem_snoc hclose nofun, ⟨⟨ackSeq, 0⟩, ?_⟩,
        ⟨⟨ms, rfl, hbeats⟩, ?_⟩, rfl⟩
      · exact List.mem_append_right _ (List.mem_singleton_self _)
      · exact Bool.not_eq_false _ ▸ hauth
    · intro hsome
      exact absurd (hsome.symm.trans (congrArg Option.isSome hkept)) (by decide)
    · rw [sequenced_snoc rfl, hseq, held_none (by exact hkept)]
      exact Numbered.nil _ _

/-- **One message.** -/
theorem handleMessage (hs : Standing g ms h) (hopen : h.1.closed = false)
    (hkept : h.1.pending = none) (hm : g.gate.Admits m) (a : Answers) :
    Standing g (ms ++ [m]) (handleMessage g a m h) := by
  unfold ClientSession.handleMessage
  cases hs.phase with
  | closed hclosed => rw [hopen] at hclosed; cases hclosed
  | awaiting hstate _ _ hclose hseq hbeats =>
    rw [if_pos hstate]
    cases m with
    | login login => exact hs.handleLogin hopen hkept hclose hseq hbeats a.ackSeq
    | heartbeat beat =>
      refine (Standing.mk hs.guarded (.awaiting hstate hopen hkept hclose hseq ?_)).alike
        ⟨rfl, rfl, rfl, rfl, rfl, rfl⟩
      intro m hmem
      rcases List.mem_append.1 hmem with hmem | hmem
      · exact hbeats m hmem
      · exact ⟨beat, List.mem_singleton.1 hmem⟩
    | _ => exact (hs.sendFrame _).closeSession_append _
  | authenticated login post hactive hkept' hnum =>
    rw [if_neg (by rw [hactive.state]; decide)]
    have hrequest : ∀ r, m.request? = some r →
        Standing g (ms ++ [m]) (ClientSession.handleRequest g r a.submit h) := fun r hr =>
      hs.handleRequest hactive.state hopen hkept hr
        (InstrumentSet.mem_of_mem_ofShards (g.gate.admits_instrument hm hr)) a.submit
    cases m with
    | newOrder m => exact hrequest _ rfl
    | cancel m => exact hrequest _ rfl
    | cancelReplace m => exact hrequest _ rfl
    | heartbeat beat =>
      refine (Standing.mk hs.guarded (.authenticated login _ (hactive.append [_]) hkept'
        (hnum.skip ?_))).alike ⟨rfl, rfl, rfl, rfl, rfl, rfl⟩
      intro r hr
      cases hr
    | login _ => exact (hs.sendFrame _).closeSession_append _
    | _ => exact hs.closeSession_append _

/-- A session that reads keeps no command. -/
theorem pending_eq_none (hs : Standing g ms h) (hopen : h.1.closed = false)
    (hreads : h.1.readSuspended = false) : h.1.pending = none := by
  cases hs.phase with
  | awaiting _ _ hkept => exact hkept
  | closed hclosed => rw [hopen] at hclosed; cases hclosed
  | authenticated login post hactive hkept hnum =>
    refine Option.not_isSome_iff_eq_none.1 fun hsome => ?_
    rw [hkept hsome] at hreads
    cases hreads

/-- A session that keeps no command may read again. -/
theorem resume (hs : Standing g ms h) (hkept : h.1.pending = none) :
    Standing g ms ({ h.1 with readSuspended := false }, h.2) := by
  refine ⟨hs.guarded, ?_⟩
  cases hs.phase with
  | awaiting hstate hopen hkept hclose hseq hbeats =>
    exact .awaiting hstate hopen hkept hclose hseq hbeats
  | closed hclosed hseq => exact .closed hclosed hseq
  | authenticated login post hactive _ hnum =>
    refine .authenticated login post { hactive with } (fun hsome => ?_) hnum
    rw [show h.1.pending = none from hkept] at hsome
    cases hsome

/-- Another attempt. -/
theorem retryPending (hs : Standing g ms h) (answer : TrySubmitResult) :
    Standing g ms (retryPending answer h) := by
  unfold ClientSession.retryPending
  split
  · exact hs
  · next shard cmd hpending =>
    split
    · exact hs
    · next hopen =>
      cases hs.phase with
      | awaiting _ _ hkept => rw [hpending] at hkept; cases hkept
      | closed hclosed => exact absurd hclosed hopen
      | authenticated login post hactive hkept hnum =>
        have hheld := held_some hpending
        have htried : Active g ms login post
            (ClientSession.act (.trySubmit shard h.1.lastClientSeq cmd answer) h) :=
          hactive.act nofun
        have hgtried := hactive.guarded hs.guarded
          (.trySubmit shard h.1.lastClientSeq cmd answer)
        cases answer with
        | ringFull =>
          refine ⟨hgtried, .authenticated login post htried hkept ?_⟩
          change Numbered _ _ _ (sequenced (_ ++ _) ++ h.1.held) _
          rw [sequenced_snoc rfl]
          exact hnum
        | sequenced seq =>
          have hdone : Standing g ms
              ({ h.1 with pending := none },
                h.2 ++ [.trySubmit shard h.1.lastClientSeq cmd (.sequenced seq)]) := by
            refine ⟨hgtried, .authenticated login post { htried with } nofun ?_⟩
            rw [sequenced_trySubmit, ← hheld]
            exact (List.append_nil _).symm ▸ hnum
          refine (hdone.sendNewAckIfApplicable cmd seq).resume ?_
          rw [sendNewAckIfApplicable_fst]
        | durabilityFailure =>
          refine (((Settled.mk hgtried ?_).act rfl).sendFrame _).closeSession
          change Submitted g ms (sequenced (_ ++ _))
          rw [sequenced_snoc rfl]
          exact hs.phase.submitted

end Standing

/-! ## Runs -/

/-- Before the login a message changes nothing about the command that is kept. -/
theorem handleMessage_pending (hstate : h.1.state = .awaitingLogin) (a : Answers) :
    (handleMessage g a m h).1.pending = h.1.pending := by
  unfold handleMessage
  rw [if_pos hstate]
  cases m with
  | login login =>
    change (handleLogin g a.ackSeq login h).1.pending = _
    unfold handleLogin sendLoginReject closeSession sendFrame
    split_ifs <;> rfl
  | heartbeat _ => rfl
  | _ =>
    change (closeSession (sendLoginReject _ h)).1.pending = _
    unfold sendLoginReject closeSession sendFrame
    split_ifs <;> rfl

/-- What holds of a session that has read the bytes `bs`: it has handled messages from their
front, and while it is open the rest is in its buffer. -/
def Keeps (g : GatewayConfig) (bs : List UInt8) (h : Handled) : Prop :=
  ∃ ms rest, g.gate.framing.Reads bs ms rest ∧ Standing g ms h ∧
    (h.1.closed = false → h.1.decoder.buf = rest ∧ h.1.decoder.gate = g.gate)

theorem closeSession_closed (h : Handled) : (closeSession h).1.closed = true := by
  unfold closeSession
  split
  · assumption
  · rfl

theorem keeps_closeSession {bs rest : List UInt8} (hs : Standing g ms h)
    (hreads : g.gate.framing.Reads bs ms rest) : Keeps g bs (closeSession h) := by
  refine ⟨ms, rest, hreads, hs.closeSession, fun hno => ?_⟩
  rw [closeSession_closed] at hno
  cases hno

/-- The loop over the frames in the buffer. -/
theorem processDecoded_keeps {bs : List UInt8} {ms : List Message} {h : Handled}
    (hs : Standing g ms h) (hreads : g.gate.framing.Reads bs ms h.1.decoder.buf)
    (hgate : h.1.decoder.gate = g.gate)
    (hopen : h.1.closed = false) (hkept : h.1.pending = none) (a : Answers) :
    Keeps g bs (processDecoded g a h) := by
  rw [processDecoded]
  split
  · next d hnext =>
    have hd := FrameDecoder.next_not_ok (d := h.1.decoder) (by
      rw [hnext]
      intro m heq
      cases heq)
    rw [hnext] at hd
    exact ⟨ms, _, hreads, hs.decoder d, fun _ => ⟨hd.1, hd.2.trans hgate⟩⟩
  · next d hnext => exact keeps_closeSession (hs.decoder d) hreads
  · next m d hnext =>
    obtain ⟨size, hm, hd⟩ := FrameDecoder.next_ok hnext
    have hgate' : d.gate = g.gate := by rw [hd]; exact hgate
    rw [hgate] at hm
    have hreads' : g.gate.framing.Reads bs (ms ++ [m]) d.buf := by
      rw [hd]
      exact hreads.snoc hm
    have hafter := ((hs.decoder d).handleMessage hopen hkept (g.gate.nextFrame_admits hm) a).decoder d
    dsimp only
    split
    · exact ⟨ms ++ [m], d.buf, hreads', hafter, fun _ => ⟨rfl, hgate'⟩⟩
    · next hgoes =>
      obtain ⟨hopen', hsuspended⟩ := not_or.1 hgoes
      have hopen'' := Bool.not_eq_true _ ▸ hopen'
      have hshorter : d.buf.length < h.1.decoder.buf.length := by
        have := g.gate.framing.size_pos hm
        have := g.gate.framing.size_le hm
        rw [hd, List.length_drop]
        omega
      refine processDecoded_keeps hafter hreads' hgate' hopen'' ?_ _
      by_cases hstate : h.1.state = .awaitingLogin
      · exact (handleMessage_pending (h := ({ h.1 with decoder := d }, h.2)) hstate a).trans hkept
      · refine hafter.pending_eq_none hopen'' ?_
        exact Bool.not_eq_true _ ▸ fun hyes => hsuspended ⟨hstate, hyes⟩
termination_by h.1.decoder.buf.length

/-- One read. -/
theorem Keeps.onRead {bs : List UInt8} (hs : Keeps g bs h) (hopen : h.1.closed = false)
    (hreading : h.1.readSuspended = false) (data : List UInt8) (a : Answers) :
    Keeps g (bs ++ data) (onRead g data a h) := by
  obtain ⟨ms, rest, hreads, hstanding, hbuf⟩ := hs
  obtain ⟨rfl, hgate⟩ := hbuf hopen
  have hstanding' : Standing g ms ({ h.1 with missedHeartbeats := 0 }, h.2) :=
    hstanding.alike ⟨rfl, rfl, rfl, rfl, rfl, rfl⟩
  unfold ClientSession.onRead
  split
  · exact keeps_closeSession hstanding' (hreads.append data)
  · next d hfeed =>
    obtain ⟨hd, hdgate⟩ := FrameDecoder.feed_some hfeed
    refine processDecoded_keeps (hstanding'.decoder d) ?_ (hdgate.trans hgate) hopen
      (hstanding.pending_eq_none hopen hreading) a
    rw [hd]
    exact hreads.append data

theorem sendFrame_fst (m : Message) (h : Handled) : (sendFrame m h).1 = h.1 := by
  unfold sendFrame
  split <;> rfl

theorem closeSession_decoder (h : Handled) : (closeSession h).1.decoder = h.1.decoder := by
  unfold closeSession
  split <;> rfl

/-- A step that does not read. -/
theorem Keeps.step {bs : List UInt8} {h' : Handled} (hs : Keeps g bs h)
    (hstep : ∀ ms, Standing g ms h → Standing g ms h')
    (hdecoder : h'.1.decoder = h.1.decoder) (hopen : h'.1.closed = false → h.1.closed = false) :
    Keeps g bs h' := by
  obtain ⟨ms, rest, hreads, hstanding, hbuf⟩ := hs
  refine ⟨ms, rest, hreads, hstep ms hstanding, fun h' => ?_⟩
  rw [hdecoder]
  exact hbuf (hopen h')

theorem Keeps.closeSession {bs : List UInt8} (hs : Keeps g bs h) : Keeps g bs (closeSession h) := by
  refine hs.step (fun _ => Standing.closeSession) (closeSession_decoder h) fun hno => ?_
  rw [closeSession_closed] at hno
  cases hno

theorem Keeps.retryPending {bs : List UInt8} (hs : Keeps g bs h) (answer : TrySubmitResult) :
    Keeps g bs (retryPending answer h) := by
  suffices hsame : (ClientSession.retryPending answer h).1.decoder = h.1.decoder ∧
      ((ClientSession.retryPending answer h).1.closed = false → h.1.closed = false) from
    hs.step (fun _ hstanding => hstanding.retryPending answer) hsame.1 hsame.2
  unfold ClientSession.retryPending
  split
  · exact ⟨rfl, id⟩
  · split
    · exact ⟨rfl, id⟩
    · cases answer with
      | ringFull => exact ⟨rfl, id⟩
      | sequenced seq =>
        dsimp only
        rw [sendNewAckIfApplicable_fst]
        exact ⟨rfl, id⟩
      | durabilityFailure =>
        dsimp only
        rw [closeSession_decoder, closeSession_closed, sendReject, sendFrame_fst]
        exact ⟨rfl, nofun⟩

theorem Keeps.heartbeatTimeout {bs : List UInt8} (hs : Keeps g bs h) :
    Keeps g bs (heartbeatTimeout h) := by
  unfold ClientSession.heartbeatTimeout
  split
  · exact hs
  · have hmissed : Keeps g bs ({ h.1 with missedHeartbeats := h.1.missedHeartbeats + 1 }, h.2) :=
      hs.step (fun _ hstanding => hstanding.alike ⟨rfl, rfl, rfl, rfl, rfl, rfl⟩) rfl id
    dsimp only
    split
    · exact hmissed.closeSession
    · refine hmissed.step (fun _ hstanding => hstanding.sendFrame _) ?_ ?_
      · rw [sendFrame_fst]
      · rw [sendFrame_fst]
        exact id

theorem Serves.keeps {bs : List UInt8} (hs : Serves g bs h) : Keeps g bs h := by
  induction hs with
  | start =>
    refine ⟨[], [], .nil, ⟨guarded_nil, ?_⟩, fun _ => ⟨rfl, rfl⟩⟩
    exact .awaiting rfl rfl rfl List.not_mem_nil rfl fun m hm => absurd hm List.not_mem_nil
  | read _ data a hopen hreads ih => exact ih.onRead hopen hreads data a
  | retry _ answer ih => exact ih.retryPending answer
  | authTimeout _ ih =>
    unfold ClientSession.authTimeout
    split
    · exact ih
    · exact ih.closeSession
  | heartbeatTimeout _ ih => exact ih.heartbeatTimeout
  | ioError _ ih => exact ih.closeSession

/-- One participant, whose token is all zeros, and one instrument. -/
def smallGateway : GatewayConfig :=
  ⟨⟨SortedMap.empty.put 7 (Vector.replicate 32 0)⟩, [1], 1, 100⟩

/-- The login of participant 7 with number 0, and an order to buy 5 at 10 with number 1. -/
def loginAndOrder : List UInt8 :=
  [49, 0, 0, 0, MessageType.login.toByte] ++ 7 :: List.replicate 47 0 ++
    [40, 0, 0, 0, MessageType.newOrder.toByte] ++ 1 :: List.replicate 7 0 ++
    3 :: List.replicate 7 0 ++ [1, 0, 0, 0, 0, 0] ++ 10 :: List.replicate 7 0 ++
    5 :: List.replicate 7 0 ++ [0]

end ClientSession

end Velox
