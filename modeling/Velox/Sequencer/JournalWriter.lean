import Velox.Sequencer.JournalReader

/-!
# The journal writer

Following `sequencer/journal_writer.hpp`, as programs of system calls. A record is appended to the
open segment, and a new segment is begun when the open one would grow beyond `rollBytes`. The segment
is flushed after every record or after every group of them.
-/

namespace Velox

open Storage Prog

inductive FsyncPolicy where
  | perRecord
  | group
  deriving DecidableEq

/-- The path of the open segment is its descriptor here. -/
structure JournalWriter where
  rollBytes : Nat
  policy : FsyncPolicy
  groupSize : Nat
  fd : Option FileName
  bytesInSegment : Nat
  pendingUnsynced : Nat
  createdCounter : UInt64
  lastSeq : Int
  deriving DecidableEq

/-- `seg-%016llu.jnl`. -/
def segmentName (firstSeq : Int) : FileName :=
  ['s', 'e', 'g', '-'] ++ (Digits.padded (u64OfSeq firstSeq).toNat ++ ['.', 'j', 'n', 'l'])

namespace JournalWriter

def create (rollBytes : Nat) (policy : FsyncPolicy) (groupSize : Nat) : JournalWriter :=
  ⟨rollBytes, policy, if groupSize = 0 then 1 else groupSize, none, 0, 0, 0, 0⟩

def sync (w : JournalWriter) : Prog FileName (Bool × JournalWriter) :=
  match w.fd with
  | none => pure (true, w)
  | some n => do
    if ← sys (.fsync n) then pure (true, { w with pendingUnsynced := 0 }) else pure (false, w)

def close (w : JournalWriter) : Prog FileName JournalWriter :=
  match w.fd with
  | none => pure w
  | some _ => do
    let (_, w) ← w.sync
    pure { w with fd := none }

/-- Continue the segment after recovery: what stands behind `validOffset` is cut off. -/
def resumeFrom (w : JournalWriter) (segmentPath : FileName) (validOffset : Nat)
    (createdCounter : UInt64) (lastSeq : Int) : Prog FileName (Bool × JournalWriter) := do
  let w ← w.close
  if ← sys (.reopen segmentPath) then
    if ← sys (.truncate segmentPath validOffset) then
      pure (true, { w with
        fd := some segmentPath
        bytesInSegment := validOffset
        createdCounter := createdCounter + 1
        lastSeq := lastSeq })
    else pure (false, w)
  else pure (false, w)

/-- The header itself is flushed. If that fails the segment stays open. -/
def openSegment (w : JournalWriter) (firstSeq : Int) : Prog FileName (Bool × JournalWriter) := do
  let n := segmentName firstSeq
  if ← sys (.create n) then
    let h : SegmentHeader := { firstSeq := u64OfSeq firstSeq, createdCounter := w.createdCounter }
    let w := { w with createdCounter := w.createdCounter + 1 }
    if ← sys (.write n h.encode) then
      let ok ← sys (.fsync n)
      pure (ok, { w with fd := some n, bytesInSegment := SegmentHeader.size })
    else pure (false, { w with fd := none })
  else pure (false, { w with fd := none })

def rollSegment (w : JournalWriter) (nextFirstSeq : Int) : Prog FileName (Bool × JournalWriter) := do
  let (ok, w) ← w.sync
  if ok then openSegment { w with fd := none } nextFirstSeq else pure (false, w)

/-- The second half of `append`, with a segment open. -/
def writeRecord (w : JournalWriter) (e : JournalEntry) : Prog FileName (Bool × JournalWriter) :=
  match w.fd with
  | none => pure (false, w)
  | some n => do
    if ← sys (.write n e.encode) then
      let w := { w with
        bytesInSegment := w.bytesInSegment + kRecordSize
        lastSeq := e.seq
        pendingUnsynced := w.pendingUnsynced + 1 }
      if w.policy = .perRecord ∨ w.groupSize ≤ w.pendingUnsynced then w.sync else pure (true, w)
    else pure (false, w)

def append (w : JournalWriter) (e : JournalEntry) : Prog FileName (Bool × JournalWriter) := do
  let (ok, w) ←
    if w.fd = none then w.openSegment e.seq
    else if w.rollBytes < w.bytesInSegment + kRecordSize then w.rollSegment e.seq
    else pure (true, w)
  if ok then w.writeRecord e else pure (false, w)

end JournalWriter

end Velox
