import Velox.Recovery.Recover
import Velox.Sequencer.Contents

/-!
# Recovery as a function of the files

`recover` reads the journal with a `JournalReader` and applies records as they come. What it makes
of a directory is nevertheless a function of the contents of the files: the records beyond the
snapshot are applied, in the order of their numbers and without a gap, up to the first place where
the files do not go on (`replay_eq`). This holds for all files, whoever wrote or damaged them.
-/

namespace Velox

open Storage

def JournalEntry.submission (e : JournalEntry) : Submission := ⟨e.kind, e.command⟩

def Ending.status : Ending → RecoveryStatus
  | .clean => .ok
  | .torn => .tornTail
  | .gap => .corrupt

namespace Reading

/-- The records beyond a snapshot. -/
def tail (x : Reading) (snapshotSeq : Int) : List JournalEntry := x.records.drop snapshotSeq.toNat

/-- The number of the last record that is applied. -/
def lastSeq (x : Reading) (snapshotSeq : Int) : Int :=
  (x.tail snapshotSeq).getLast?.elim snapshotSeq JournalEntry.seq

/-- What recovery reports when it has read this. -/
def result (x : Reading) (snapshotSeq : Int) : RecoveryResult :=
  match x.resume with
  | some p => ⟨x.ending.status, x.lastSeq snapshotSeq, true, p.path, p.offset, p.createdCounter⟩
  | none => ⟨x.ending.status, x.lastSeq snapshotSeq, false, [], 0, 0⟩

theorem result_lastSeq (x : Reading) (snapshotSeq : Int) :
    (x.result snapshotSeq).lastSeq = x.lastSeq snapshotSeq := by
  rw [result]
  split <;> rfl

end Reading

namespace RecoveryManager

variable {d : Directory FileName} {r : JournalReader} {b : OrderBook}

theorem replayLoop_spec (snapshotSeq : Int) {n : Nat} (last : Int) (hsteady : r.Steady d)
    (hn : (r.rest d).records.length < n) :
    let es := (r.rest d).records.filter (snapshotSeq < ·.seq)
    ∃ r', r'.position = (r.rest d).resume ∧
      replayLoop d snapshotSeq n r b last =
        (b.applyAll buffers (es.map JournalEntry.submission)).map fun b' =>
          ((r.rest d).ending.status, es.getLast?.elim last JournalEntry.seq, r', b') := by
  induction n generalizing r b last with
  | zero => omega
  | succ n ih =>
    have hspec := JournalReader.next_spec hsteady
    generalize hrest : r.rest d = x at hspec hn ⊢
    generalize hnext : r.next d = res at hspec
    rw [replayLoop, hnext]
    cases hspec with
    | clean closed => exact ⟨_, by rw [JournalReader.position, closed]; rfl, rfl⟩
    | torn stands => exact ⟨_, stands, rfl⟩
    | gap stands => exact ⟨_, stands, rfl⟩
    | @record e left offset r₁ steady hleft =>
      have hlen : (r₁.rest d).records.length < n := by
        rw [hleft]
        exact Nat.lt_of_succ_lt_succ hn
      dsimp only
      by_cases hle : e.seq ≤ snapshotSeq
      · obtain ⟨r', hposition, heq⟩ := ih (b := b) last steady hlen
        rw [hleft] at hposition heq
        exact ⟨r', hposition, by rw [if_pos hle, heq, List.filter_cons_of_neg (by simpa using hle)]⟩
      · rw [if_neg hle, List.filter_cons_of_pos (by simpa using hle), List.map_cons,
          OrderBook.applyAll]
        simp only [JournalEntry.submission, List.getLast?_cons]
        cases hap : b.apply e.kind e.command buffers with
        | none =>
          obtain ⟨r', hposition, -⟩ := ih (b := b) e.seq steady hlen
          exact ⟨r', by rw [hposition, hleft], rfl⟩
        | some b₁ =>
          obtain ⟨r', hposition, heq⟩ := ih (b := b₁) e.seq steady hlen
          rw [hleft] at hposition heq
          refine ⟨r', hposition, ?_⟩
          rw [Option.bind_some, heq]
          cases (left.records.filter (snapshotSeq < ·.seq)).getLast? <;> rfl

/-! ## Recovery -/

theorem filter_numbered {first snapshotSeq : Int} {es : List JournalEntry}
    (h : Table.Numbered JournalEntry.seq first es) :
    es.filter (snapshotSeq < ·.seq) = es.drop (snapshotSeq + 1 - first).toNat := by
  induction es generalizing first with
  | nil => rw [List.filter_nil, List.drop_nil]
  | cons e es ih =>
    obtain ⟨hseq, htail⟩ := Table.numbered_cons.1 h
    rcases lt_or_ge snapshotSeq first with hlt | hge
    · have hall : ∀ e' ∈ e :: es, decide (snapshotSeq < e'.seq) = true := fun e' he' =>
        decide_eq_true (hlt.trans_le (h.bounds he').1)
      rw [List.filter_eq_self.2 hall, show (snapshotSeq + 1 - first).toNat = 0 by omega,
        List.drop_zero]
    · rw [List.filter_cons_of_neg (by simpa [hseq] using hge), ih htail,
        show (snapshotSeq + 1 - first).toNat = (snapshotSeq + 1 - (first + 1)).toNat + 1 by omega,
        List.drop_succ_cons]

theorem length_records_lt (hsteady : r.Steady d) : (r.rest d).records.length < r.left d + 1 := by
  generalize hleft : r.left d = left
  induction left using Nat.strong_induction_on generalizing r with
  | _ left ih =>
    have hspec := JournalReader.next_spec hsteady
    generalize hrest : r.rest d = x at hspec ⊢
    generalize hnext : r.next d = res at hspec
    cases hspec with
    | clean | torn | gap => exact Nat.succ_pos _
    | @record e left' offset r₁ steady hrest₁ =>
      have hlt := JournalReader.next_left hnext
      have hlen := ih _ (hleft ▸ hlt) steady rfl
      rw [hrest₁] at hlen
      rw [List.length_cons]
      omega

theorem replay_eq (d : Directory FileName) (snapshotSeq : Int) (b : OrderBook) :
    replay d snapshotSeq b = (b.applyAll buffers
      (((contents d).tail snapshotSeq).map JournalEntry.submission)).map fun b' =>
        ((contents d).result snapshotSeq, b') := by
  have hsteady := JournalReader.steady_create d
  have hlen := length_records_lt hsteady
  rw [JournalReader.left_create] at hlen
  obtain ⟨r', hposition, heq⟩ := replayLoop_spec (b := b) snapshotSeq snapshotSeq hsteady hlen
  rw [JournalReader.rest_create] at hposition heq
  rw [filter_numbered (numbered_contents d), add_sub_cancel_right, ← Reading.tail, ← Reading.lastSeq]
    at heq
  rw [replay, heq]
  cases b.applyAll buffers (((contents d).tail snapshotSeq).map JournalEntry.submission) with
  | none => rfl
  | some b' =>
    rw [JournalReader.position] at hposition
    rw [Option.map_some, Option.map_some, Reading.result, ← hposition]
    change some _ = some _
    rw [JournalReader.hasOpenSegment]
    cases r'.fd with
    | none => rfl
    | some n => rfl

theorem lastSeq_contents (d : Directory FileName) :
    (contents d).lastSeq 0 = (contents d).records.length := by
  rw [Reading.lastSeq, Reading.tail, Int.toNat_zero, List.drop_zero, List.getLast?_eq_getElem?]
  cases hlast : (contents d).records[(contents d).records.length - 1]? with
  | none =>
    rw [List.getElem?_eq_none_iff] at hlast
    rw [Option.elim_none]
    omega
  | some e =>
    have hlt := (List.getElem?_eq_some_iff.1 hlast).1
    rw [Option.elim_some, numbered_contents d _ e hlast]
    omega

theorem loadNewestValid_empty : SnapshotReader.loadNewestValid .empty = .rejected := rfl

/-- Without a snapshot, all records are replayed. -/
theorem recover_of_rejected {snapshotDir : Directory FileName}
    (hnone : SnapshotReader.loadNewestValid snapshotDir = .rejected) (d : Directory FileName)
    (b : OrderBook) : recover d snapshotDir b =
      (b.applyAll buffers ((contents d).records.map JournalEntry.submission)).map fun b' =>
        ((contents d).result 0, b') := by
  rw [recover, hnone]
  dsimp only
  rw [replay_eq]
  rfl

/-- Any records can be applied to a new book. -/
theorem exists_applyAll {cfg : BookConfig} {b₀ : OrderBook} (hb : OrderBook.create cfg = some b₀)
    (calls : List Submission) : ∃ b, b₀.applyAll buffers calls = some b := by
  obtain ⟨hrepr, hview⟩ := OrderBook.repr_create hb
  obtain ⟨b, -, happly, -⟩ :=
    OrderBook.applyAll_fits hrepr (hview ▸ OrderBook.fits_emptyView cfg) calls
  exact ⟨b, happly buffers⟩

/-- **Recovery of any files.** Whatever the journal directory holds, recovery returns; it has applied
the records `1, 2, …` as far as the files go on with intact records, and says why they do not go on
and where. -/
theorem recover_intact {cfg : BookConfig} {b₀ : OrderBook} (hb : OrderBook.create cfg = some b₀)
    (journalDir : Directory FileName) {snapshotDir : Directory FileName}
    (hnone : SnapshotReader.loadNewestValid snapshotDir = .rejected) :
    ∃ b, recover journalDir snapshotDir b₀ = some ((contents journalDir).result 0, b) ∧
      b₀.applyAll buffers ((contents journalDir).records.map JournalEntry.submission) = some b ∧
      Table.Numbered JournalEntry.seq 1 (contents journalDir).records ∧
      ((contents journalDir).result 0).lastSeq = (contents journalDir).records.length := by
  obtain ⟨b, happly⟩ :=
    exists_applyAll hb ((contents journalDir).records.map JournalEntry.submission)
  refine ⟨b, ?_, happly, numbered_contents journalDir, ?_⟩
  · rw [recover_of_rejected hnone, happly, Option.map_some]
  · rw [Reading.result_lastSeq, lastSeq_contents]

/-- A segment whose only record is damaged. -/
def damaged : Directory FileName :=
  SortedMap.empty.put (segmentName 1)
    ⟨(Segment.header ⟨1, 0, [], []⟩).encode ++ List.replicate kRecordSize 0, []⟩

theorem recover_intact_damaged : (contents damaged).ending = .torn ∧
    ∃ b, recover damaged .empty OrderBook.smallBook = some ((contents damaged).result 0, b) ∧
      OrderBook.smallBook.applyAll buffers ((contents damaged).records.map JournalEntry.submission) =
        some b ∧
      Table.Numbered JournalEntry.seq 1 (contents damaged).records ∧
      ((contents damaged).result 0).lastSeq = (contents damaged).records.length :=
  ⟨by decide +kernel, recover_intact OrderBook.create_smallConfig damaged rfl⟩

end RecoveryManager

end Velox
