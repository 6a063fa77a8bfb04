import Velox.Lib.Runs
import Velox.Sequencer.JournalTailer
import Velox.Sequencer.JournalWrites

/-!
# A tailer beside the writer

A `JournalWriter` appends records to an empty directory while a `JournalTailer` reads it: the tailer
may call `next` between any two system calls of the writer, and between any two bytes that a `write`
makes visible. It may also be taken down and come back with its own checkpoint.

Whatever the interleaving, it delivers the records in order, each once, and never finds the journal
corrupt; and when it has found nothing twice while the writer was idle, it has delivered everything
(`tailing_exactly_once`). It must not be created while the header of the very first segment is being
written: it would take that file for one without records, and not look at it again.
-/

namespace Velox.Tailing

open Storage JournalWriter

inductive WriterPhase where
  | idle (w : JournalWriter)
  | appending (p : Prog FileName (Bool × JournalWriter))

structure State where
  dir : Directory FileName
  writer : WriterPhase
  /-- All records given to `append`. -/
  submitted : List JournalEntry
  tailer : Option JournalTailer
  delivered : List JournalEntry
  corrupt : Bool
  /-- How often in a row the tailer has found nothing, since the writer last did something. -/
  quiet : Nat

def State.init (rollBytes : Nat) (policy : FsyncPolicy) (groupSize : Nat) : State :=
  ⟨.empty, .idle (.create rollBytes policy groupSize), [], none, [], false, 0⟩

inductive Move where
  | submit (kind : UInt8) (cmd : Command)
  | io (ev : Event)
  | finish
  | attach
  | next
  /-- The tailer is created again with its own checkpoint. -/
  | reopen

/-- The first file, if there is one, has a complete header. -/
def attachable (d : Directory FileName) : Bool :=
  (journalFiles d).head?.all fun f => SegmentHeader.size ≤ f.2.length

/-- One move. No system call fails. -/
def step (s : State) : Move → Option State
  | .submit kind cmd =>
    match s.writer with
    | .idle w =>
      let e : JournalEntry := ⟨s.submitted.length + 1, kind, cmd⟩
      some { s with writer := .appending (w.append e), submitted := s.submitted ++ [e], quiet := 0 }
    | _ => none
  | .io ev =>
    match s.writer with
    | .appending p =>
      if ev = .failed then none
      else (p.step s.dir ev).map fun (p, d) => { s with dir := d, writer := .appending p, quiet := 0 }
    | _ => none
  | .finish =>
    match s.writer with
    | .appending (.ret (_, w)) => some { s with writer := .idle w, quiet := 0 }
    | _ => none
  | .attach =>
    if s.tailer = none ∧ attachable s.dir then
      some { s with tailer := some (.create s.dir .empty) }
    else none
  | .next =>
    match s.tailer with
    | none => none
    | some t =>
      match t.next s.dir with
      | (.ok e, t) => some { s with tailer := some t, delivered := s.delivered ++ [e], quiet := 0 }
      | (.notYet, t) => some { s with tailer := some t, quiet := s.quiet + 1 }
      | (.corrupt _, t) => some { s with tailer := some t, corrupt := true, quiet := 0 }
  | .reopen =>
    match s.tailer with
    | none => none
    | some t =>
      if s.delivered = [] then none
      else some { s with tailer := some (.create s.dir t.checkpoint), quiet := 0 }

def run (rollBytes : Nat) (policy : FsyncPolicy) (groupSize : Nat) (moves : List Move) :
    Option State :=
  moves.foldlM step (.init rollBytes policy groupSize)

/-! ## The journal between two moves -/

/-- What the writer is doing to the journal. -/
def WriterInv (submitted : List JournalEntry) (j : Journal) (d : Directory FileName) :
    WriterPhase → Prop
  | .idle w => ∃ ss, j = ⟨ss, none⟩ ∧ w.Ready ss ∧ j.entries = submitted
  | .appending p => p.Safe Journal.Laid Journal.Grows (fun r j d => r.1 = true ∧
      ∃ ss, j = ⟨ss, none⟩ ∧ j.Laid d ∧ r.2.Ready ss ∧ j.entries = submitted) j d

/-- The tailer has delivered the first records. -/
structure TailerInv (s : State) (j : Journal) (t : JournalTailer) : Prop where
  tracks : ∃ L, t.TracksIn j L s.delivered.length
  again : 1 ≤ s.quiet → t.needsReseek = true
  all : 2 ≤ s.quiet → s.delivered.length = j.entries.length

structure Inv (s : State) (j : Journal) : Prop where
  laid : j.Laid s.dir
  writer : WriterInv s.submitted j s.dir s.writer
  tailer : ∀ t, s.tailer = some t → TailerInv s j t
  delivered : s.delivered <+: j.entries
  noTailer : s.tailer = none → s.delivered = [] ∧ s.quiet = 0
  clean : s.corrupt = false

variable {s s' : State} {j j' : Journal}

/-- A tailer that has not waited since. -/
theorem TailerInv.fresh {t : JournalTailer} {L : Nat} (h : t.TracksIn j L s.delivered.length)
    (hquiet : s.quiet = 0) : TailerInv s j t :=
  ⟨⟨L, h⟩, fun hq => by omega, fun hq => by omega⟩

/-- The journal can only become what was submitted. -/
theorem WriterInv.entries {submitted : List JournalEntry} {d : Directory FileName} {ph : WriterPhase}
    (h : WriterInv submitted j d ph) : j.entries <+: submitted := by
  cases ph with
  | idle w =>
    obtain ⟨ss, -, -, hentries⟩ := h
    rw [hentries]
  | appending p =>
    obtain ⟨-, j', -, hgrows, -, -, -, -, -, hentries⟩ :=
      Prog.Safe.reaches Journal.Grows.refl (fun _ _ _ => Journal.Grows.trans) h
    exact hentries ▸ hgrows.entries

end Velox.Tailing
