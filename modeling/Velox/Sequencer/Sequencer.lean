import Velox.Ipc.Command
import Velox.Ipc.SpscRing

/-!
# The sequencer

Following `trySubmit` of `sequencer/sequencer.hpp`. It claims a slot of the ring, journals the
command under the next number, writes the slot and publishes it, and the other thread may look at
the ring between any two of these; a call is therefore cut there. A call that finds the ring full
ends at the claim. Here every append to the journal succeeds.
-/

namespace Velox

inductive TrySubmitResult where
  | sequenced (seq : Int)
  | ringFull
  | durabilityFailure
  deriving DecidableEq, Repr

def TrySubmitResult.seq? : TrySubmitResult → Option Int
  | .sequenced seq => some seq
  | _ => none

structure JournalEntry where
  seq : Int
  kind : UInt8
  command : Command
  deriving DecidableEq

/-- How far a call of `trySubmit` has come. -/
inductive SubmitPhase where
  | idle
  | claimed (kind : UInt8) (cmd : Command) (slot : Nat)
  | journaled (cmd : Command) (slot : Nat)
  | stored (cmd : Command)
  deriving DecidableEq

def SubmitPhase.command : SubmitPhase → Option Command
  | .idle => none
  | .claimed _ cmd _ => some cmd
  | .journaled cmd _ => some cmd
  | .stored cmd => some cmd

structure Sequencer (capacity : Nat) where
  journal : List JournalEntry
  seq : Int
  ring : SpscRing Command capacity
  phase : SubmitPhase

namespace Sequencer

variable {capacity : Nat}

/-- The slots of the ring are zero-initialised. -/
def create (startSeq : Int) : Sequencer capacity :=
  ⟨[], startSeq, .create ⟨0, 0, 0, 0, 0, 0, .buy, .limit, 0⟩, .idle⟩

/-- The call up to the claim. -/
def trySubmit (s : Sequencer capacity) (kind : UInt8) (cmd : Command) :
    Option TrySubmitResult × Sequencer capacity :=
  match s.ring.tryClaim with
  | (none, ring) => (some .ringFull, { s with ring := ring })
  | (some slot, ring) => (none, { s with ring := ring, phase := .claimed kind cmd slot })

/-- The next statement of the call. -/
def resume (s : Sequencer capacity) : Option TrySubmitResult × Sequencer capacity :=
  match s.phase with
  | .idle => (none, s)
  | .claimed kind cmd slot =>
    (none, { s with
      journal := s.journal ++ [⟨s.seq + 1, kind, cmd⟩]
      phase := .journaled cmd slot })
  | .journaled cmd slot =>
    (none, { s with seq := s.seq + 1, ring := s.ring.store slot cmd, phase := .stored cmd })
  | .stored _ => (some (.sequenced s.seq), { s with ring := s.ring.publish, phase := .idle })

end Sequencer

end Velox
