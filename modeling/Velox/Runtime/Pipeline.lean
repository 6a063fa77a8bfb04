import Velox.Lib.Table
import Velox.Runtime.MatchingThread
import Velox.Sequencer.Sequencer

/-!
# From the sequencer to the events

The io thread in a call of `trySubmit` and the matching thread in its loop, in any interleaving, on
one ring. Three counters number the commands, and no code compares them: `Sequencer::seq_`, which
numbers the journal's records and is what a client is told, the two cursors of the ring, and
`MatchingThread::dispatchSeq_`, which numbers the events. `Shard::recoverAndStart` starts the first
and the last at the last number recovered.

They agree (`Pipeline.numbers_agree`): a command has one number in the journal, in the answer to its
submitter and in its events. The invariant `Lined` cuts the journal in three: what was consumed, what
the ring holds, and what the call in progress has journaled but not published.
-/

namespace Velox

/-- Where the matching thread is in its loop. -/
inductive ConsumerPhase where
  | waiting
  | peeked
  | dispatched
  deriving DecidableEq

structure Pipeline (capacity : Nat) where
  sequencer : Sequencer capacity
  consumer : ConsumerPhase
  thread : MatchingThread
  /-- What the calls of `trySubmit` have returned. -/
  results : List (Command × TrySubmitResult)
  /-- The commands dispatched, each with the events published for it. -/
  dispatched : List (Command × List OutboundEvent)

namespace Pipeline

variable {capacity : Nat}

/-- A shard that has recovered `book`, from records up to the number `lastSeq`. -/
def start (lastSeq : Int) (book : OrderBook) : Pipeline capacity :=
  ⟨.create lastSeq, .waiting, ⟨book, lastSeq⟩, [], []⟩

def ring (p : Pipeline capacity) : SpscRing Command capacity := p.sequencer.ring

def setRing (p : Pipeline capacity) (r : SpscRing Command capacity) : Pipeline capacity :=
  { p with sequencer := { p.sequencer with ring := r } }

/-- What a statement of `trySubmit` did, with the result if it returned. -/
def submitted (p : Pipeline capacity) (cmd : Command)
    (r : Option TrySubmitResult × Sequencer capacity) : Pipeline capacity :=
  { p with sequencer := r.2, results := p.results ++ r.1.toList.map (cmd, ·) }

inductive Move where
  | trySubmit (kind : UInt8) (cmd : Command)
  | resume
  | peek
  | dispatch
  | consume

def step (p : Pipeline capacity) : Move → Option (Pipeline capacity)
  | .trySubmit kind cmd =>
    if p.sequencer.phase = .idle then some (p.submitted cmd (p.sequencer.trySubmit kind cmd))
    else none
  | .resume => p.sequencer.phase.command.map fun cmd => p.submitted cmd p.sequencer.resume
  | .peek =>
    if p.consumer = .waiting then
      match p.ring.tryPeek with
      | (none, r) => some (p.setRing r)
      | (some _, r) => some { p.setRing r with consumer := .peeked }
    else none
  | .dispatch =>
    if p.consumer = .peeked then do
      let cmd := p.ring.storage (p.ring.tail % capacity)
      let (events, t) ← p.thread.dispatch cmd
      some { p with
        consumer := .dispatched
        thread := t
        dispatched := p.dispatched ++ [(cmd, events)] }
    else none
  | .consume =>
    if p.consumer = .dispatched then some { p.setRing p.ring.consume with consumer := .waiting }
    else none

def run (p : Pipeline capacity) : List Move → Option (Pipeline capacity)
  | [] => some p
  | m :: ms => do
    let p ← p.step m
    p.run ms

/-- The commands that were sequenced, with the numbers their submitters were told. -/
def acknowledged (p : Pipeline capacity) : List (Command × Int) :=
  p.results.filterMap fun r => r.2.seq?.map (r.1, ·)

/-- **The counters agree** on commands numbered from `lastSeq`. -/
structure Agrees (lastSeq : Int) (p : Pipeline capacity) : Prop where
  /-- The journal has the numbers `lastSeq + 1`, `lastSeq + 2` and so on. -/
  journal : ∀ (j : Nat) e, p.sequencer.journal[j]? = some e → e.seq = lastSeq + (j + 1)
  dispatched : p.dispatched.map Prod.fst <+: p.sequencer.journal.map JournalEntry.command
  events : ∀ (j : Nat) d, p.dispatched[j]? = some d → ∀ ev ∈ d.2, ev.globalSeq = lastSeq + (j + 1)
  acknowledged : p.acknowledged <+: p.sequencer.journal.map fun e => (e.command, e.seq)
  /-- A full ring changes only the producer's copy of the read cursor. -/
  full : ∀ kind cmd p', p.step (.trySubmit kind cmd) = some p' →
    p'.results = p.results ++ [(cmd, .ringFull)] →
    p' = { p.setRing p.ring.reloadTail with results := p.results ++ [(cmd, .ringFull)] }

/-! ## The invariant -/

end Pipeline

/-- The command that is in the journal and not yet in the ring. -/
def SubmitPhase.unpublished : SubmitPhase → List Command
  | .journaled cmd _ => [cmd]
  | .stored cmd => [cmd]
  | _ => []

/-- How many records of the journal `seq_` does not count yet. -/
def SubmitPhase.uncounted : SubmitPhase → Nat
  | .journaled _ _ => 1
  | _ => 0

/-- The call in progress has the slot behind the `n` elements of the ring. -/
def SubmitPhase.Owns {capacity : Nat} (r : SpscRing Command capacity) (n : Nat) :
    SubmitPhase → Prop
  | .idle => True
  | .claimed _ _ slot => slot = r.head % capacity ∧ n < capacity
  | .journaled _ slot => slot = r.head % capacity ∧ n < capacity
  | .stored cmd => r.storage (r.head % capacity) = cmd ∧ n < capacity

/-- The other thread may consume. -/
theorem SubmitPhase.Owns.mono {capacity : Nat} {r r' : SpscRing Command capacity} {n n' : Nat}
    {phase : SubmitPhase} (h : phase.Owns r n) (hhead : r'.head = r.head)
    (hstorage : r'.storage = r.storage) (hn : n' ≤ n) : phase.Owns r' n' := by
  cases phase with
  | idle => trivial
  | claimed | journaled | stored =>
    simp only [Owns, hhead, hstorage] at h ⊢
    exact ⟨h.1, by omega⟩

namespace Pipeline

/-- The journal is what was consumed, what the ring holds and what is not published yet. -/
structure Lined (lastSeq : Int) (p : Pipeline capacity) (done xs : List Command) : Prop where
  holds : p.ring.Holds xs
  journal : p.sequencer.journal.map JournalEntry.command =
    done ++ xs ++ p.sequencer.phase.unpublished
  numbered : ∀ (j : Nat) e, p.sequencer.journal[j]? = some e → e.seq = lastSeq + (j + 1)
  seq : p.sequencer.seq + p.sequencer.phase.uncounted = lastSeq + p.sequencer.journal.length
  owns : p.sequencer.phase.Owns p.ring xs.length
  acknowledged : p.sequencer.journal.map (fun e => (e.command, e.seq)) =
    p.acknowledged ++
      p.sequencer.phase.unpublished.map (·, lastSeq + p.sequencer.journal.length)
  consumer : p.consumer ≠ .waiting → xs ≠ [] ∧ p.ring.tail < p.ring.cachedHead
  dispatched : p.dispatched.map Prod.fst =
    done ++ if p.consumer = .dispatched then xs.take 1 else []
  dispatchSeq : p.thread.dispatchSeq = lastSeq + p.dispatched.length
  events : ∀ (j : Nat) d, p.dispatched[j]? = some d → ∀ ev ∈ d.2, ev.globalSeq = lastSeq + (j + 1)

namespace Lined

variable {lastSeq : Int} {p p' : Pipeline capacity} {done xs : List Command}

theorem start (lastSeq : Int) (book : OrderBook) :
    Lined lastSeq (.start lastSeq book : Pipeline capacity) [] [] where
  holds := SpscRing.holds_create _
  journal := rfl
  numbered := nofun
  seq := rfl
  owns := trivial
  acknowledged := rfl
  consumer := fun h => absurd rfl h
  dispatched := rfl
  dispatchSeq := (Int.add_zero _).symm
  events := nofun

@[simp] theorem submitted_sequencer (p : Pipeline capacity) (cmd : Command)
    (r : Option TrySubmitResult × Sequencer capacity) : (p.submitted cmd r).sequencer = r.2 := rfl

theorem acknowledged_submitted (p : Pipeline capacity) (cmd : Command)
    (r : Option TrySubmitResult × Sequencer capacity) :
    (p.submitted cmd r).acknowledged =
      p.acknowledged ++ (r.1.bind TrySubmitResult.seq?).toList.map (cmd, ·) := by
  rw [Pipeline.acknowledged, submitted, List.filterMap_append]
  refine congrArg (p.acknowledged ++ ·) ?_
  cases r.1 with
  | none => rfl
  | some result => cases result <;> rfl

/-- A claim does not touch what the journal and the ring hold. -/
theorem trySubmit (h : Lined lastSeq p done xs) {kind : UInt8} {cmd : Command}
    (hs : p.step (.trySubmit kind cmd) = some p') : Lined lastSeq p' done xs := by
  rw [step] at hs
  split at hs
  · next hidle =>
    cases hs
    have hjournal := h.journal
    have hseq := h.seq
    have hack := h.acknowledged
    rw [hidle] at hjournal hseq hack
    rcases h.holds.tryClaim with ⟨hfull, hholds⟩ | ⟨r, hclaim, hroom, hholds, hr⟩
    · have hcall : p.sequencer.trySubmit kind cmd =
          (some .ringFull, { p.sequencer with ring := p.ring.reloadTail }) := by
        rw [Sequencer.trySubmit, show p.sequencer.ring.tryClaim = _ from hfull]
      rw [hcall]
      refine ⟨hholds, h.journal, h.numbered, h.seq, h.owns.mono rfl rfl (Nat.le_refl _), ?_,
        h.consumer, h.dispatched, h.dispatchSeq, h.events⟩
      rw [acknowledged_submitted]
      simpa [TrySubmitResult.seq?] using h.acknowledged
    · have hcall : p.sequencer.trySubmit kind cmd =
          (none, { p.sequencer with
            ring := r
            phase := .claimed kind cmd (p.ring.head % capacity) }) := by
        rw [Sequencer.trySubmit, show p.sequencer.ring.tryClaim = _ from hclaim]
      have hsame : r.head = p.ring.head ∧ r.tail = p.ring.tail ∧ r.cachedHead = p.ring.cachedHead := by
        rcases hr with rfl | rfl <;> exact ⟨rfl, rfl, rfl⟩
      rw [hcall]
      refine ⟨hholds, hjournal, h.numbered, hseq, ⟨congrArg (· % capacity) hsame.1.symm, hroom⟩, ?_,
        fun hc => ?_, h.dispatched, h.dispatchSeq, h.events⟩
      · rw [acknowledged_submitted]
        simpa [SubmitPhase.unpublished] using hack
      · have hseen := (h.consumer hc).2
        rw [← hsame.2.1, ← hsame.2.2] at hseen
        exact ⟨(h.consumer hc).1, hseen⟩
  · cases hs

/-- The record of the call is numbered next; the slot is written, and then published. -/
theorem resume (h : Lined lastSeq p done xs) (hs : p.step .resume = some p') :
    ∃ xs', Lined lastSeq p' done xs' := by
  obtain ⟨cmd, hcmd, rfl⟩ := Option.map_eq_some_iff.1 hs
  have hjournal := h.journal
  have hseq := h.seq
  have hack := h.acknowledged
  have howns := h.owns
  cases hphase : p.sequencer.phase with
  | idle =>
    rw [hphase] at hcmd
    cases hcmd
  | claimed kind cmd' slot =>
    rw [hphase] at hcmd hjournal hseq hack howns
    cases hcmd
    have hcall : p.sequencer.resume = (none, { p.sequencer with
        journal := p.sequencer.journal ++ [⟨p.sequencer.seq + 1, kind, cmd⟩]
        phase := .journaled cmd slot }) := by
      rw [Sequencer.resume, hphase]
    rw [hcall]
    have hnext : p.sequencer.seq + 1 = lastSeq + (p.sequencer.journal.length + 1) := by
      simp only [SubmitPhase.uncounted] at hseq
      omega
    refine ⟨xs, h.holds, ?_, ?_, ?_, howns, ?_, h.consumer, h.dispatched, h.dispatchSeq, h.events⟩
    · simp only [submitted_sequencer, List.map_append, hjournal]
      simp [SubmitPhase.unpublished]
    · exact forall_getElem?_concat.2 ⟨h.numbered, hnext⟩
    · simp only [submitted_sequencer, SubmitPhase.uncounted, List.length_append, List.length_singleton]
      omega
    · rw [acknowledged_submitted]
      simpa [SubmitPhase.unpublished, hnext] using hack
  | journaled cmd' slot =>
    rw [hphase] at hcmd hjournal hseq hack howns
    cases hcmd
    obtain ⟨rfl, hroom⟩ := howns
    have hcall : p.sequencer.resume = (none, { p.sequencer with
        seq := p.sequencer.seq + 1
        ring := p.ring.store (p.ring.head % capacity) cmd
        phase := .stored cmd }) := by
      rw [Sequencer.resume, hphase]
      rfl
    rw [hcall]
    refine ⟨xs, h.holds.store hroom cmd, hjournal, h.numbered, ?_, ?_, ?_, h.consumer, h.dispatched,
      h.dispatchSeq, h.events⟩
    · simp only [submitted_sequencer, SubmitPhase.uncounted] at hseq ⊢
      omega
    · exact ⟨Function.update_self .., hroom⟩
    · rw [acknowledged_submitted]
      simpa [SubmitPhase.unpublished] using hack
  | stored cmd' =>
    rw [hphase] at hcmd hjournal hseq hack howns
    cases hcmd
    have hcall : p.sequencer.resume = (some (.sequenced p.sequencer.seq),
        { p.sequencer with ring := p.ring.publish, phase := .idle }) := by
      rw [Sequencer.resume, hphase]
      rfl
    have hlast : p.sequencer.seq = lastSeq + p.sequencer.journal.length := by
      simp only [SubmitPhase.uncounted] at hseq
      omega
    have hfirst : p.consumer = .dispatched → xs ≠ [] := fun hc =>
      (h.consumer (by rw [hc]; decide)).1
    rw [hcall]
    refine ⟨xs ++ [cmd], h.holds.publish howns.2 howns.1, ?_, h.numbered, hseq, trivial, ?_,
      fun hc => ?_, ?_, h.dispatchSeq, h.events⟩
    · simpa [SubmitPhase.unpublished] using hjournal
    · rw [acknowledged_submitted]
      simpa [SubmitPhase.unpublished, TrySubmitResult.seq?, hlast] using hack
    · exact ⟨List.append_ne_nil_of_left_ne_nil (h.consumer hc).1 _, (h.consumer hc).2⟩
    · refine h.dispatched.trans (congrArg (done ++ ·) ?_)
      change _ = if p.consumer = .dispatched then _ else _
      split
      · next hc => rw [List.take_append_of_le_length (List.length_pos_of_ne_nil (hfirst hc))]
      · rfl

theorem peek (h : Lined lastSeq p done xs) (hs : p.step .peek = some p') :
    Lined lastSeq p' done xs := by
  rw [step] at hs
  split at hs
  · next hwaiting =>
    have hdispatched := h.dispatched
    rw [hwaiting, if_neg (by decide)] at hdispatched
    rcases h.holds.tryPeek with ⟨r, hpeek, hholds, hhead, hstorage, hempty⟩ |
        ⟨r, x, rest, hpeek, hholds, hhead, hstorage, hseen, hxs⟩
    · rw [hpeek] at hs
      cases hs
      refine ⟨hholds, h.journal, h.numbered, h.seq, h.owns.mono hhead hstorage (Nat.le_refl _),
        h.acknowledged, fun hc => absurd hwaiting hc, h.dispatched, h.dispatchSeq, h.events⟩
    · rw [hpeek] at hs
      cases hs
      refine ⟨hholds, h.journal, h.numbered, h.seq, h.owns.mono hhead hstorage (Nat.le_refl _),
        h.acknowledged, fun _ => ⟨hxs ▸ List.cons_ne_nil _ _, hseen⟩, ?_, h.dispatchSeq, h.events⟩
      rw [if_neg nofun]
      exact hdispatched
  · cases hs

/-- The thread numbers the command as the journal does. -/
theorem dispatch (h : Lined lastSeq p done xs) (hs : p.step .dispatch = some p') :
    Lined lastSeq p' done xs := by
  rw [step] at hs
  split at hs
  · next hpeeked =>
    obtain ⟨⟨events, t⟩, hd, hs⟩ := Option.bind_eq_some_iff.1 hs
    cases hs
    obtain ⟨hcount, hevents⟩ := MatchingThread.dispatch_globalSeq hd
    have hdispatched := h.dispatched
    rw [hpeeked, if_neg (by decide)] at hdispatched
    have hseq := h.dispatchSeq
    have hseen := h.consumer (by rw [hpeeked]; decide)
    obtain ⟨x, rest, rfl⟩ := List.exists_cons_of_ne_nil hseen.1
    refine ⟨h.holds, h.journal, h.numbered, h.seq, h.owns, h.acknowledged, fun _ => hseen, ?_, ?_, ?_⟩
    · rw [if_pos rfl, List.map_append, hdispatched, h.holds.head_slot]
      simp
    · rw [hcount, hseq, List.length_append, List.length_singleton]
      omega
    · refine forall_getElem?_concat.2 ⟨h.events, fun ev hev => ?_⟩
      rw [hevents ev hev, hseq, Int.add_assoc]
  · cases hs

theorem consume (h : Lined lastSeq p done xs) (hs : p.step .consume = some p') :
    ∃ done' xs', Lined lastSeq p' done' xs' := by
  rw [step] at hs
  split at hs
  · next hc =>
    cases hs
    obtain ⟨hne, hseen⟩ := h.consumer (by rw [hc]; decide)
    obtain ⟨x, rest, rfl⟩ := List.exists_cons_of_ne_nil hne
    have hdispatched := h.dispatched
    rw [hc, if_pos rfl] at hdispatched
    refine ⟨done ++ [x], rest, h.holds.consume hseen, ?_, h.numbered, h.seq, ?_, h.acknowledged,
      fun hc => absurd rfl hc, ?_, h.dispatchSeq, h.events⟩
    · rw [List.append_assoc done]
      exact h.journal
    · exact h.owns.mono rfl rfl (Nat.le_succ _)
    · rw [if_neg nofun, List.append_nil]
      exact hdispatched
  · cases hs

theorem step (h : Lined lastSeq p done xs) {m : Move} (hs : p.step m = some p') :
    ∃ done' xs', Lined lastSeq p' done' xs' := by
  cases m with
  | trySubmit kind cmd => exact ⟨done, xs, h.trySubmit hs⟩
  | resume => exact ⟨done, h.resume hs⟩
  | peek => exact ⟨done, xs, h.peek hs⟩
  | dispatch => exact ⟨done, xs, h.dispatch hs⟩
  | consume => exact h.consume hs

theorem run {ms : List Move} {p : Pipeline capacity} {done xs : List Command}
    (h : Lined lastSeq p done xs) (hs : p.run ms = some p') :
    ∃ done' xs', Lined lastSeq p' done' xs' := by
  induction ms generalizing p done xs with
  | nil =>
    cases hs
    exact ⟨done, xs, h⟩
  | cons m ms ih =>
    obtain ⟨p₁, hm, hms⟩ := Option.bind_eq_some_iff.1 hs
    obtain ⟨done₁, xs₁, h₁⟩ := h.step hm
    exact ih h₁ hms

/-- What is dispatched is consumed or first in the ring. -/
theorem dispatched_prefix (h : Lined lastSeq p done xs) :
    p.dispatched.map Prod.fst <+: p.sequencer.journal.map JournalEntry.command := by
  rw [h.dispatched, h.journal, List.append_assoc]
  refine List.prefix_append_right_inj done |>.2 ?_
  split
  · exact (List.take_prefix 1 xs).trans (List.prefix_append _ _)
  · exact List.nil_prefix

/-- A call that returns at the claim has only looked at the read cursor. -/
theorem full (h : Lined lastSeq p done xs) {kind : UInt8} {cmd : Command}
    (hs : p.step (.trySubmit kind cmd) = some p')
    (hfull : p'.results = p.results ++ [(cmd, .ringFull)]) :
    p' = { p.setRing p.ring.reloadTail with results := p.results ++ [(cmd, .ringFull)] } := by
  rw [Pipeline.step] at hs
  split at hs
  · cases hs
    rcases h.holds.tryClaim with ⟨hclaim, -⟩ | ⟨r, hclaim, -⟩
    · rw [Sequencer.trySubmit, show p.sequencer.ring.tryClaim = _ from hclaim]
      rfl
    · rw [Sequencer.trySubmit, show p.sequencer.ring.tryClaim = _ from hclaim] at hfull
      simp [submitted] at hfull
  · cases hs

end Lined

/-- **The journal, the ring and the events agree** in every run of the two threads, whatever was
recovered. -/
theorem numbers_agree (lastSeq : Int) (book : OrderBook) {ms : List Move} {p : Pipeline capacity}
    (h : (start lastSeq book).run ms = some p) : p.Agrees lastSeq := by
  obtain ⟨done, xs, hp⟩ := (Lined.start lastSeq book).run h
  exact {
    journal := hp.numbered
    dispatched := hp.dispatched_prefix
    events := hp.events
    acknowledged := by
      rw [hp.acknowledged]
      exact List.prefix_append _ _
    full := fun kind cmd p' => hp.full }

/-- Three commands for a ring of two slots: the second is published while the first is dispatched,
and the third is refused. -/
def threeCommands : List Move :=
  [.trySubmit 1 ⟨5, 0, 0, 0, 0, 1, .buy, .limit, 0⟩, .resume, .resume, .resume, .peek,
    .trySubmit 1 ⟨6, 0, 0, 0, 0, 1, .buy, .limit, 0⟩, .resume, .dispatch, .resume, .resume,
    .trySubmit 1 ⟨7, 0, 0, 0, 0, 1, .buy, .limit, 0⟩]

theorem numbers_agree_threeCommands : ∃ b p, OrderBook.create OrderBook.smallConfig = some b ∧
    (start 7 b : Pipeline 2).run threeCommands = some p ∧
    p.results.map Prod.snd = [.sequenced 8, .sequenced 9, .ringFull] ∧
    p.dispatched.map Prod.snd = [[.status 5 .rejectedUnknownOrder 8]] ∧ p.Agrees 7 := by
  have hrun : ((start 7 OrderBook.smallBook : Pipeline 2).run threeCommands).map
        (fun p => (p.results.map Prod.snd, p.dispatched.map Prod.snd)) =
      some ([.sequenced 8, .sequenced 9, .ringFull],
        [[.status 5 .rejectedUnknownOrder 8]]) := by
    decide +kernel
  obtain ⟨p, hp, hsum⟩ := Option.map_eq_some_iff.1 hrun
  obtain ⟨hresults, hdispatched⟩ := Prod.mk.inj hsum
  exact ⟨_, p, (Option.some_get _).symm, hp, hresults, hdispatched, numbers_agree 7 _ hp⟩

end Pipeline

end Velox
