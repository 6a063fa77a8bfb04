import Mathlib.Data.Nat.Bitwise
import Mathlib.Data.List.FinRange
import Velox.Ipc.SpscRing

/-!
# The ring with several consumers

Following `ipc/multicast_ring.hpp`: one producer, and `n` consumers that each read every event. The
producer waits for the consumers in `GatingMask` only. Another consumer copies the slot and looks at
the write cursor before and after; if it has come a whole ring behind in the meantime, the copy may
be anything and is thrown away.

Each function is one access to the shared memory, and a run is any interleaving of them
(`System.step`). The producer may write to the slot it has claimed more than once, so that a copy
can see a half-written event.

The argument is in `Inv.intact`: the slot of a position holds the event published there until the
producer claims the slot again, a whole ring further on. The copies of the cursors that either side
keeps are old values of cursors that only grow.

* `System.delivers_or_detects` — what the consumers get.
-/

namespace Velox

structure MulticastRing (α : Type) (k n : Nat) (mask : BitVec 32) where
  storage : Nat → α
  head : Nat
  tails : Fin n → Nat
  lappedCounts : Fin n → Nat
  cachedMinTail : Nat
  cachedHead : Fin n → Nat

namespace MulticastRing

variable {α : Type} {k n : Nat} {mask : BitVec 32}

/-- The slot of a position; the capacity is `2 ^ k`. -/
def slot (k p : Nat) : Nat := p &&& (2 ^ k - 1)

/-- The producer waits for this consumer. -/
def gates (mask : BitVec 32) (i : Fin n) : Bool := mask.getLsbD i

def create (x : α) : MulticastRing α k n mask :=
  ⟨fun _ => x, 0, fun _ => 0, fun _ => 0, 0, fun _ => 0⟩

/-- The least cursor of those the producer waits for, or its own if there are none. -/
def minConsumerCursor (r : MulticastRing α k n mask) : Nat :=
  ((((List.finRange n).filter (gates mask)).map r.tails).min?).getD r.head

def reloadMinTail (r : MulticastRing α k n mask) : MulticastRing α k n mask :=
  { r with cachedMinTail := r.minConsumerCursor }

/-- The slot to write, or nothing if a gating consumer has yet to read it. -/
def tryClaim (r : MulticastRing α k n mask) : Option Nat × MulticastRing α k n mask :=
  if 2 ^ k ≤ r.head - r.cachedMinTail then
    if 2 ^ k ≤ r.head - r.minConsumerCursor then (none, r.reloadMinTail)
    else (some (slot k r.head), r.reloadMinTail)
  else (some (slot k r.head), r)

def store (r : MulticastRing α k n mask) (j : Nat) (x : α) : MulticastRing α k n mask :=
  { r with storage := Function.update r.storage j x }

def publish (r : MulticastRing α k n mask) : MulticastRing α k n mask :=
  { r with head := r.head + 1 }

@[simp] def reloadHead (r : MulticastRing α k n mask) (i : Fin n) : MulticastRing α k n mask :=
  { r with cachedHead := Function.update r.cachedHead i r.head }

/-- The slot to read, or nothing if the consumer has read everything. `tryPeekChecked` begins in the
same way. -/
def tryPeek (r : MulticastRing α k n mask) (i : Fin n) : Option Nat × MulticastRing α k n mask :=
  if r.tails i = r.cachedHead i then
    if r.tails i = r.head then (none, r.reloadHead i)
    else (some (slot k (r.tails i)), r.reloadHead i)
  else (some (slot k (r.tails i)), r)

/-- The next event of a consumer is at `tail` from now on. -/
@[simp] def moveTail (r : MulticastRing α k n mask) (i : Fin n) (tail cachedHead : Nat) :
    MulticastRing α k n mask :=
  { r with
    tails := Function.update r.tails i tail
    cachedHead := Function.update r.cachedHead i cachedHead }

def consume (r : MulticastRing α k n mask) (i : Fin n) : MulticastRing α k n mask :=
  r.moveTail i (r.tails i + 1) (r.cachedHead i)

/-- The consumer is a whole ring behind: it goes on at the write cursor it has just seen. -/
def lapse (r : MulticastRing α k n mask) (i : Fin n) (newTail : Nat) : MulticastRing α k n mask :=
  { r.moveTail i newTail newTail with
    lappedCounts := Function.update r.lappedCounts i (r.lappedCounts i + 1) }

/-- Where a consumer is: between two calls, or in `tryPeekChecked`. -/
inductive Consumer (α : Type) where
  | idle
  /-- `tryPeek` has returned a slot. -/
  | peeked
  /-- The slot has been read. -/
  | read (x : α)
  /-- `tryPeekChecked` has found that there is an event. -/
  | entered
  /-- It has seen the write cursor less than a ring ahead. -/
  | passed
  /-- It has copied the slot. -/
  | copied (x : α)
  /-- It has seen the write cursor at `newTail`, a ring ahead or more. -/
  | lapsing (newTail : Nat)
  /-- It has returned `Ok` with a copy. -/
  | ok (x : α)
  deriving DecidableEq

/-- What a consumer has got: an event, or the report that it goes on at `newTail`. -/
inductive Entry (α : Type) where
  | event (x : α)
  | lapped (newTail : Nat)
  deriving DecidableEq

/-- The entries lead from position `p` to position `q` of what was published. -/
def Trail (capacity : Nat) (published : List α) : Nat → List (Entry α) → Nat → Prop
  | p, [], q => p = q
  | p, .event x :: es, q => published[p]? = some x ∧ Trail capacity published (p + 1) es q
  | p, .lapped newTail :: es, q =>
    p + capacity ≤ newTail ∧ newTail ≤ published.length ∧ Trail capacity published newTail es q

/-- The ring, where its users are, and what has happened: the events in the order of publication,
and what each consumer has got. -/
structure System (α : Type) (k n : Nat) (mask : BitVec 32) where
  ring : MulticastRing α k n mask
  claimed : Bool
  published : List α
  consumers : Fin n → Consumer α
  logs : Fin n → List (Entry α)

/-- The steps of the producer, then those of the consumers. -/
inductive Action (α : Type) (n : Nat) where
  | claim
  | write (x : α)
  | publish
  | peek (i : Fin n)
  | read (i : Fin n)
  | consume (i : Fin n)
  | enter (i : Fin n)
  | loadHead (i : Fin n)
  | copy (i : Fin n)
  | loadHeadAgain (i : Fin n)
  | lapse (i : Fin n)

namespace System

def create (x : α) : System α k n mask :=
  ⟨.create x, false, [], fun _ => .idle, fun _ => []⟩

@[simp] def setRing (s : System α k n mask) (r : MulticastRing α k n mask) : System α k n mask :=
  { s with ring := r }

@[simp] def setConsumer (s : System α k n mask) (i : Fin n) (c : Consumer α) : System α k n mask :=
  { s with consumers := Function.update s.consumers i c }

@[simp] def log (s : System α k n mask) (i : Fin n) (e : Entry α) : System α k n mask :=
  { s with logs := Function.update s.logs i (s.logs i ++ [e]) }

/-- The look at the write cursor that `tryPeekChecked` makes twice. -/
def checkHead (s : System α k n mask) (i : Fin n) (c : Consumer α) : System α k n mask :=
  s.setConsumer i (if 2 ^ k ≤ s.ring.head - s.ring.tails i then .lapsing s.ring.head else c)

/-- `tryPeek`, or the beginning of `tryPeekChecked`: `c` is where it leads if there is an event. -/
def peekOr (s : System α k n mask) (i : Fin n) (c : Consumer α) : System α k n mask :=
  (s.setRing (s.ring.tryPeek i).2).setConsumer i (if (s.ring.tryPeek i).1.isSome then c else .idle)

/-- One step. Gating consumers use `tryPeek` and `consume`, the others `tryPeekChecked` and
`consume`. -/
def step (s : System α k n mask) : Action α n → Option (System α k n mask)
  | .claim =>
    if s.claimed then none
    else some { s with ring := s.ring.tryClaim.2, claimed := s.ring.tryClaim.1.isSome }
  | .write x =>
    if s.claimed then some (s.setRing (s.ring.store (slot k s.ring.head) x)) else none
  | .publish =>
    if s.claimed then
      some { s with
        ring := s.ring.publish
        claimed := false
        published := s.published ++ [s.ring.storage (slot k s.ring.head)] }
    else none
  | .peek i =>
    match gates mask i, s.consumers i with
    | true, .idle | true, .peeked | true, .read _ => some (s.peekOr i .peeked)
    | _, _ => none
  | .read i =>
    match s.consumers i with
    | .peeked | .read _ =>
      some (s.setConsumer i (.read (s.ring.storage (slot k (s.ring.tails i)))))
    | _ => none
  | .consume i =>
    match s.consumers i with
    | .read x | .ok x =>
      some (((s.setRing (s.ring.consume i)).setConsumer i .idle).log i (.event x))
    | _ => none
  | .enter i =>
    match gates mask i, s.consumers i with
    | false, .idle | false, .ok _ => some (s.peekOr i .entered)
    | _, _ => none
  | .loadHead i =>
    match s.consumers i with
    | .entered => some (s.checkHead i .passed)
    | _ => none
  | .copy i =>
    match s.consumers i with
    | .passed => some (s.setConsumer i (.copied (s.ring.storage (slot k (s.ring.tails i)))))
    | _ => none
  | .loadHeadAgain i =>
    match s.consumers i with
    | .copied x => some (s.checkHead i (.ok x))
    | _ => none
  | .lapse i =>
    match s.consumers i with
    | .lapsing newTail =>
      some (((s.setRing (s.ring.lapse i newTail)).setConsumer i .idle).log i (.lapped newTail))
    | _ => none

def run (s : System α k n mask) : List (Action α n) → Option (System α k n mask)
  | [] => some s
  | a :: as => do
    let s ← s.step a
    run s as

end System

/-! ## Slots and cursors -/

theorem slot_eq (k p : Nat) : slot k p = p % 2 ^ k := Nat.and_two_pow_sub_one_eq_mod p k

/-- Positions less than a ring apart have different slots. -/
theorem slot_ne {k p q : Nat} (hlt : p < q) (hnear : q < p + 2 ^ k) : slot k p ≠ slot k q := by
  have hne := @SpscRing.Holds.slot_ne 0 (q - p) p (2 ^ k) (by omega) (by omega)
  rwa [Nat.add_zero, Nat.add_sub_cancel' hlt.le, ← slot_eq, ← slot_eq] at hne

/-- The least cursor is not beyond that of any consumer the producer waits for. -/
theorem minConsumerCursor_le (r : MulticastRing α k n mask) {i : Fin n}
    (hi : gates mask i = true) : r.minConsumerCursor ≤ r.tails i := by
  have hmem : r.tails i ∈ ((List.finRange n).filter (gates mask)).map r.tails :=
    List.mem_map.2 ⟨i, List.mem_filter.2 ⟨List.mem_finRange i, hi⟩, rfl⟩
  rw [minConsumerCursor]
  cases hmin : (((List.finRange n).filter (gates mask)).map r.tails).min? with
  | none =>
    rw [List.min?_eq_none_iff] at hmin
    rw [hmin] at hmem
    cases hmem
  | some m => exact (List.min?_eq_some_iff.1 hmin).2 _ hmem

theorem minConsumerCursor_le_head (r : MulticastRing α k n mask)
    (h : ∀ i, r.tails i ≤ r.head) : r.minConsumerCursor ≤ r.head := by
  rw [minConsumerCursor]
  cases hmin : (((List.finRange n).filter (gates mask)).map r.tails).min? with
  | none => exact le_rfl
  | some m =>
    obtain ⟨i, -, hi⟩ := List.mem_map.1 (List.min?_eq_some_iff.1 hmin).1
    exact hi ▸ h i

theorem le_minConsumerCursor (r : MulticastRing α k n mask) {m : Nat} (hm : m ≤ r.head)
    (h : ∀ i, gates mask i = true → m ≤ r.tails i) : m ≤ r.minConsumerCursor := by
  rw [minConsumerCursor]
  cases hmin : (((List.finRange n).filter (gates mask)).map r.tails).min? with
  | none => exact hm
  | some m' =>
    obtain ⟨i, hi, heq⟩ := List.mem_map.1 (List.min?_eq_some_iff.1 hmin).1
    exact heq ▸ h i (List.mem_filter.1 hi).2

/-! ## Trails -/

section Trail

variable {c p q newTail : Nat} {published published' : List α} {es : List (Entry α)} {x : α}

/-- What was published stays where it is. -/
theorem getElem?_grow (hg : published <+: published') (hx : published[p]? = some x) :
    published'[p]? = some x := by
  obtain ⟨hlt, rfl⟩ := List.getElem?_eq_some_iff.1 hx
  exact List.prefix_iff_getElem?.1 hg p hlt

theorem Trail.grow (h : Trail c published p es q) (hg : published <+: published') :
    Trail c published' p es q := by
  induction es generalizing p with
  | nil => exact h
  | cons e es ih =>
    cases e with
    | event x => exact ⟨getElem?_grow hg h.1, ih h.2⟩
    | lapped newTail => exact ⟨h.1, h.2.1.trans hg.length_le, ih h.2.2⟩

theorem Trail.event (h : Trail c published p es q) (hx : published[q]? = some x) :
    Trail c published p (es ++ [.event x]) (q + 1) := by
  induction es generalizing p with
  | nil =>
    obtain rfl : p = q := h
    exact ⟨hx, rfl⟩
  | cons e es ih =>
    cases e with
    | event y => exact ⟨h.1, ih h.2⟩
    | lapped m => exact ⟨h.1, h.2.1, ih h.2.2⟩

theorem Trail.lapped (h : Trail c published p es q) (hfar : q + c ≤ newTail)
    (hle : newTail ≤ published.length) :
    Trail c published p (es ++ [.lapped newTail]) newTail := by
  induction es generalizing p with
  | nil =>
    obtain rfl : p = q := h
    exact ⟨hfar, hle, rfl⟩
  | cons e es ih =>
    cases e with
    | event y => exact ⟨h.1, ih h.2⟩
    | lapped m => exact ⟨h.1, h.2.1, ih h.2.2⟩

/-- Without a report of a lapse, the entries are all the events on the way. -/
theorem Trail.eq_map (h : Trail c published p es q) (hall : ∀ m, .lapped m ∉ es) :
    p ≤ q ∧ es = ((published.drop p).take (q - p)).map .event := by
  induction es generalizing p with
  | nil =>
    obtain rfl : p = q := h
    rw [Nat.sub_self]
    exact ⟨le_rfl, rfl⟩
  | cons e es ih =>
    cases e with
    | event x =>
      obtain ⟨hle, heq⟩ := ih h.2 fun m hm => hall m (List.mem_cons_of_mem _ hm)
      obtain ⟨hlt, hget⟩ := List.getElem?_eq_some_iff.1 h.1
      refine ⟨by omega, ?_⟩
      rw [List.drop_eq_getElem_cons hlt, hget, show q - p = q - (p + 1) + 1 by omega,
        List.take_succ_cons, List.map_cons, ← heq]
    | lapped m => exact absurd List.mem_cons_self (hall m)

end Trail

/-! ## The invariant -/

/-- What a consumer can rely on where it is. -/
def Consumer.Holds (capacity : Nat) (published : List α) (gating : Bool) (tail cachedHead : Nat) :
    Consumer α → Prop
  | .idle => True
  | .peeked => gating = true ∧ tail < cachedHead
  | .read x => gating = true ∧ tail < cachedHead ∧ published[tail]? = some x
  | .entered => gating = false ∧ tail < cachedHead
  | .passed => gating = false ∧ tail < cachedHead
  -- the copy is right unless the write cursor has come too close, and then it is still there
  | .copied x => gating = false ∧ tail < cachedHead ∧
    (published[tail]? = some x ∨ tail + capacity ≤ published.length)
  | .lapsing newTail =>
    gating = false ∧ tail + capacity ≤ newTail ∧ newTail ≤ published.length
  | .ok x => gating = false ∧ tail < cachedHead ∧ published[tail]? = some x

theorem Consumer.Holds.grow {c tail cachedHead cachedHead' : Nat} {published published' : List α}
    {gating : Bool} {u : Consumer α} (h : u.Holds c published gating tail cachedHead)
    (hg : published <+: published') (hc : cachedHead ≤ cachedHead') :
    u.Holds c published' gating tail cachedHead' := by
  have hlen := hg.length_le
  cases u with
  | idle => trivial
  | peeked => exact ⟨h.1, h.2.trans_le hc⟩
  | read x => exact ⟨h.1, h.2.1.trans_le hc, getElem?_grow hg h.2.2⟩
  | entered => exact ⟨h.1, h.2.trans_le hc⟩
  | passed => exact ⟨h.1, h.2.trans_le hc⟩
  | copied x =>
    exact ⟨h.1, h.2.1.trans_le hc, h.2.2.imp (getElem?_grow hg) hlen.trans'⟩
  | lapsing newTail => exact ⟨h.1, h.2.1, h.2.2.trans hlen⟩
  | ok x => exact ⟨h.1, h.2.1.trans_le hc, getElem?_grow hg h.2.2⟩

namespace System

variable {s s' : System α k n mask} {i : Fin n}

structure Inv (s : System α k n mask) : Prop where
  head : s.ring.head = s.published.length
  tail_le : ∀ i, s.ring.tails i ≤ s.ring.cachedHead i
  cachedHead_le : ∀ i, s.ring.cachedHead i ≤ s.ring.head
  minTail_le : s.ring.cachedMinTail ≤ s.ring.head
  minTail_gates : ∀ i, gates mask i = true → s.ring.cachedMinTail ≤ s.ring.tails i
  room : s.ring.head + s.claimed.toNat ≤ s.ring.cachedMinTail + 2 ^ k
  intact : ∀ p x, s.published[p]? = some x → s.ring.head + s.claimed.toNat ≤ p + 2 ^ k →
    s.ring.storage (slot k p) = x
  consumer : ∀ i, (s.consumers i).Holds (2 ^ k) s.published (gates mask i) (s.ring.tails i)
    (s.ring.cachedHead i)
  trail : ∀ i, Trail (2 ^ k) s.published 0 (s.logs i) (s.ring.tails i)
  whole : ∀ i, gates mask i = true → ∀ m, .lapped m ∉ s.logs i

theorem inv_create (x : α) : (create x : System α k n mask).Inv where
  head := rfl
  tail_le _ := le_rfl
  cachedHead_le _ := le_rfl
  minTail_le := le_rfl
  minTail_gates _ _ := le_rfl
  room := Nat.zero_le _
  intact _ _ h := by cases h
  consumer _ := trivial
  trail _ := rfl
  whole _ _ _ h := by cases h

namespace Inv

/-- Nothing that a gating consumer has yet to consume is overwritten. -/
theorem intact_of_gates (h : s.Inv) (hi : gates mask i = true) {p : Nat} {x : α}
    (hp : s.ring.tails i ≤ p) (hx : s.published[p]? = some x) : s.ring.storage (slot k p) = x := by
  have hroom := h.room
  have hmin := h.minTail_gates i hi
  exact h.intact p x hx (by omega)

/-- There is an event at the cursor of a consumer that is not at the write cursor. -/
theorem exists_event (h : s.Inv) (hlt : s.ring.tails i < s.ring.cachedHead i) :
    ∃ x, s.published[s.ring.tails i]? = some x := by
  have hle := h.cachedHead_le i
  rw [h.head] at hle
  exact ⟨_, List.getElem?_eq_getElem (hlt.trans_le hle)⟩

/-! ### The producer -/

theorem reloadMinTail (h : s.Inv) : (s.setRing s.ring.reloadMinTail).Inv where
  head := h.head
  tail_le := h.tail_le
  cachedHead_le := h.cachedHead_le
  minTail_le := s.ring.minConsumerCursor_le_head fun i => (h.tail_le i).trans (h.cachedHead_le i)
  minTail_gates _ hi := s.ring.minConsumerCursor_le hi
  room := by
    have hroom := h.room
    have hle := s.ring.le_minConsumerCursor h.minTail_le h.minTail_gates
    exact hroom.trans (Nat.add_le_add_right hle _)
  intact := h.intact
  consumer := h.consumer
  trail := h.trail
  whole := h.whole

theorem claimed (h : s.Inv) (hroom : s.ring.head < s.ring.cachedMinTail + 2 ^ k) :
    ({ s with claimed := true } : System α k n mask).Inv where
  head := h.head
  tail_le := h.tail_le
  cachedHead_le := h.cachedHead_le
  minTail_le := h.minTail_le
  minTail_gates := h.minTail_gates
  room := hroom
  intact p x hx hp := h.intact p x hx ((Nat.add_le_add_left (Bool.toNat_le _) _).trans hp)
  consumer := h.consumer
  trail := h.trail
  whole := h.whole

theorem claim (h : s.Inv) (hclaimed : s.claimed = false) : ({ s with
    ring := s.ring.tryClaim.2, claimed := s.ring.tryClaim.1.isSome } : System α k n mask).Inv := by
  have hreload := h.reloadMinTail
  have hsame : ∀ r : MulticastRing α k n mask,
      ({ s with ring := r, claimed := false } : System α k n mask) = s.setRing r := by
    intro r
    rw [← hclaimed]
    rfl
  rw [tryClaim]
  split
  · split
    · exact (hsame _).symm ▸ hreload
    · next hfree =>
      refine hreload.claimed ?_
      change s.ring.head < s.ring.minConsumerCursor + 2 ^ k
      omega
  · next hfree => exact h.claimed (by omega)

theorem write (h : s.Inv) (hclaimed : s.claimed = true) (x : α) :
    (s.setRing (s.ring.store (slot k s.ring.head) x)).Inv where
  head := h.head
  tail_le := h.tail_le
  cachedHead_le := h.cachedHead_le
  minTail_le := h.minTail_le
  minTail_gates := h.minTail_gates
  room := h.room
  intact p y hy hp := by
    have hlt : p < s.ring.head := by
      rw [h.head]
      exact (List.getElem?_eq_some_iff.1 hy).1
    have hp' : s.ring.head + s.claimed.toNat ≤ p + 2 ^ k := hp
    have hold := h.intact p y hy hp'
    rw [hclaimed, Bool.toNat_true] at hp'
    exact (Function.update_of_ne (slot_ne hlt (by omega)) _ _).trans hold
  consumer := h.consumer
  trail := h.trail
  whole := h.whole

theorem publish (h : s.Inv) (hclaimed : s.claimed = true) : ({ s with
    ring := s.ring.publish, claimed := false,
    published := s.published ++ [s.ring.storage (slot k s.ring.head)] } :
      System α k n mask).Inv where
  head := by
    rw [List.length_append, List.length_singleton, ← h.head]
    rfl
  tail_le := h.tail_le
  cachedHead_le i := (h.cachedHead_le i).trans (Nat.le_succ _)
  minTail_le := h.minTail_le.trans (Nat.le_succ _)
  minTail_gates := h.minTail_gates
  room := by
    have hroom := h.room
    rwa [hclaimed] at hroom
  intact p x hx hp := by
    rcases Nat.lt_trichotomy p s.published.length with hlt | rfl | hlt
    · rw [List.getElem?_append_left hlt] at hx
      exact h.intact p x hx (by rw [hclaimed]; exact hp)
    · rw [List.getElem?_concat_length] at hx
      rw [← h.head]
      exact Option.some.inj hx
    · rw [List.getElem?_eq_none (by rw [List.length_append, List.length_singleton]; omega)] at hx
      cases hx
  consumer i := (h.consumer i).grow (List.prefix_append ..) le_rfl
  trail i := (h.trail i).grow (List.prefix_append ..)
  whole := h.whole

/-! ### The consumers -/

theorem setConsumer (h : s.Inv) {c : Consumer α} (hc : c.Holds (2 ^ k) s.published (gates mask i)
    (s.ring.tails i) (s.ring.cachedHead i)) : (s.setConsumer i c).Inv where
  head := h.head
  tail_le := h.tail_le
  cachedHead_le := h.cachedHead_le
  minTail_le := h.minTail_le
  minTail_gates := h.minTail_gates
  room := h.room
  intact := h.intact
  consumer j := by
    by_cases hj : j = i
    · subst hj
      simpa using hc
    · simpa [hj] using h.consumer j
  trail := h.trail
  whole := h.whole

theorem reloadHead (h : s.Inv) (i : Fin n) : (s.setRing (s.ring.reloadHead i)).Inv where
  head := h.head
  tail_le j := by
    by_cases hj : j = i
    · subst hj
      simpa using (h.tail_le j).trans (h.cachedHead_le j)
    · simpa [hj] using h.tail_le j
  cachedHead_le j := by
    by_cases hj : j = i
    · simp [hj]
    · simpa [hj] using h.cachedHead_le j
  minTail_le := h.minTail_le
  minTail_gates := h.minTail_gates
  room := h.room
  intact := h.intact
  consumer j := by
    refine (h.consumer j).grow (List.prefix_refl _) ?_
    by_cases hj : j = i
    · subst hj
      simpa using h.cachedHead_le j
    · simp [hj]
  trail := h.trail
  whole := h.whole

/-- **A look at the ring** finds an event unless the consumer is at the write cursor. -/
theorem tryPeek (h : s.Inv) (i : Fin n) : (s.setRing (s.ring.tryPeek i).2).Inv ∧
    ((s.ring.tryPeek i).1 = none ↔ s.ring.tails i = s.ring.head) ∧
    (s.ring.tryPeek i).2.tails = s.ring.tails ∧
    ((s.ring.tryPeek i).1.isSome = true → s.ring.tails i < (s.ring.tryPeek i).2.cachedHead i) := by
  have htail := h.tail_le i
  have hhead := h.cachedHead_le i
  have hcached : (s.ring.reloadHead i).cachedHead i = s.ring.head := Function.update_self ..
  rw [MulticastRing.tryPeek]
  split
  · split
    · next hat => exact ⟨h.reloadHead i, iff_of_true rfl hat, rfl, fun h => by cases h⟩
    · next hnot =>
      refine ⟨h.reloadHead i, iff_of_false (fun h => by cases h) hnot, rfl, fun _ => ?_⟩
      rw [hcached]
      omega
  · next hnot =>
    refine ⟨h, iff_of_false (fun h => by cases h) ?_, rfl, fun _ => ?_⟩
    · omega
    · dsimp only
      omega

theorem peekOr (h : s.Inv) {c : Consumer α} (hc : ∀ cachedHead, s.ring.tails i < cachedHead →
      c.Holds (2 ^ k) s.published (gates mask i) (s.ring.tails i) cachedHead) :
    (s.peekOr i c).Inv := by
  obtain ⟨hinv, -, htails, hsome⟩ := h.tryPeek i
  refine hinv.setConsumer ?_
  split
  · next hsome' =>
    have htail : (s.setRing (s.ring.tryPeek i).2).ring.tails i = s.ring.tails i :=
      congrFun htails i
    rw [htail]
    exact hc _ (hsome hsome')
  · trivial

/-- The look at the write cursor: a whole ring ahead, or not. -/
theorem checkHead (h : s.Inv) {c : Consumer α} (hgates : gates mask i = false)
    (hc : s.ring.head < s.ring.tails i + 2 ^ k → c.Holds (2 ^ k) s.published (gates mask i)
      (s.ring.tails i) (s.ring.cachedHead i)) : (s.checkHead i c).Inv := by
  have htail := (h.tail_le i).trans (h.cachedHead_le i)
  have hpos : 0 < 2 ^ k := Nat.two_pow_pos k
  refine h.setConsumer ?_
  split
  · next hfar => exact ⟨hgates, by omega, h.head.le⟩
  · exact hc (by omega)

/-- A consumer moves on, and its log says how. -/
theorem moveTail (h : s.Inv) {tail cachedHead : Nat} {e : Entry α} (lappedCounts : Fin n → Nat)
    (hle : s.ring.tails i ≤ tail) (hcached : tail ≤ cachedHead) (hhead : cachedHead ≤ s.ring.head)
    (htrail : Trail (2 ^ k) s.published 0 (s.logs i ++ [e]) tail)
    (hwhole : gates mask i = true → ∀ m, e ≠ .lapped m) :
    (((s.setRing { s.ring.moveTail i tail cachedHead with
      lappedCounts := lappedCounts }).setConsumer i .idle).log i e).Inv where
  head := h.head
  tail_le j := by
    by_cases hj : j = i
    · subst hj
      simpa using hcached
    · simpa [hj] using h.tail_le j
  cachedHead_le j := by
    by_cases hj : j = i
    · subst hj
      simpa using hhead
    · simpa [hj] using h.cachedHead_le j
  minTail_le := h.minTail_le
  minTail_gates j hgates := by
    have hmin := h.minTail_gates j hgates
    by_cases hj : j = i
    · subst hj
      simpa using hmin.trans hle
    · simpa [hj] using hmin
  room := h.room
  intact := h.intact
  consumer j := by
    by_cases hj : j = i
    · subst hj
      simp [Consumer.Holds]
    · simpa [hj] using h.consumer j
  trail j := by
    by_cases hj : j = i
    · subst hj
      simpa using htrail
    · simpa [hj] using h.trail j
  whole j hgates m := by
    have hold := h.whole j hgates m
    by_cases hj : j = i
    · subst hj
      simpa using ⟨hold, (hwhole hgates m).symm⟩
    · simpa [hj] using hold

theorem consume (h : s.Inv) {x : α} (hlt : s.ring.tails i < s.ring.cachedHead i)
    (hx : s.published[s.ring.tails i]? = some x) :
    (((s.setRing (s.ring.consume i)).setConsumer i .idle).log i (.event x)).Inv :=
  h.moveTail s.ring.lappedCounts (Nat.le_succ _) hlt (h.cachedHead_le i) ((h.trail i).event hx)
    fun _ _ => nofun

/-- **A step keeps the invariant.** -/
theorem step (h : s.Inv) {a : Action α n} (hstep : s.step a = some s') : s'.Inv := by
  cases a with
  | claim =>
    simp only [System.step] at hstep
    split at hstep
    · cases hstep
    · next hclaimed =>
      cases hstep
      exact h.claim (Bool.eq_false_of_not_eq_true hclaimed)
  | write x =>
    simp only [System.step] at hstep
    split at hstep
    · next hclaimed =>
      cases hstep
      exact h.write hclaimed x
    · cases hstep
  | publish =>
    simp only [System.step] at hstep
    split at hstep
    · next hclaimed =>
      cases hstep
      exact h.publish hclaimed
    · cases hstep
  | peek i =>
    simp only [System.step] at hstep
    split at hstep
    case h_4 => cases hstep
    all_goals
      next hgates _ =>
      cases hstep
      exact h.peekOr fun _ hlt => ⟨hgates, hlt⟩
  | read i =>
    have hi := h.consumer i
    have hread : gates mask i = true → s.ring.tails i < s.ring.cachedHead i →
        (s.setConsumer i (.read (s.ring.storage (slot k (s.ring.tails i))))).Inv := by
      intro hgates hlt
      obtain ⟨x, hx⟩ := h.exists_event hlt
      rw [h.intact_of_gates hgates le_rfl hx]
      exact h.setConsumer ⟨hgates, hlt, hx⟩
    simp only [System.step] at hstep
    split at hstep
    · next hc =>
      cases hstep
      rw [hc] at hi
      exact hread hi.1 hi.2
    · next hc =>
      cases hstep
      rw [hc] at hi
      exact hread hi.1 hi.2.1
    · cases hstep
  | consume i =>
    have hi := h.consumer i
    simp only [System.step] at hstep
    split at hstep
    · next hc =>
      cases hstep
      rw [hc] at hi
      exact h.consume hi.2.1 hi.2.2
    · next hc =>
      cases hstep
      rw [hc] at hi
      exact h.consume hi.2.1 hi.2.2
    · cases hstep
  | enter i =>
    simp only [System.step] at hstep
    split at hstep
    case h_3 => cases hstep
    all_goals
      next hgates _ =>
      cases hstep
      exact h.peekOr fun _ hlt => ⟨hgates, hlt⟩
  | loadHead i =>
    have hi := h.consumer i
    simp only [System.step] at hstep
    split at hstep
    · next hc =>
      cases hstep
      rw [hc] at hi
      exact h.checkHead hi.1 fun _ => hi
    · cases hstep
  | copy i =>
    have hi := h.consumer i
    simp only [System.step] at hstep
    split at hstep
    · next hc =>
      cases hstep
      rw [hc] at hi
      obtain ⟨x, hx⟩ := h.exists_event hi.2
      refine h.setConsumer ⟨hi.1, hi.2, ?_⟩
      -- the slot is the event's unless the producer may be writing to it
      by_cases hnear : s.ring.head + s.claimed.toNat ≤ s.ring.tails i + 2 ^ k
      · exact Or.inl (by rw [h.intact _ x hx hnear]; exact hx)
      · have := Bool.toNat_le s.claimed
        have := h.head
        exact Or.inr (by omega)
    · cases hstep
  | loadHeadAgain i =>
    have hi := h.consumer i
    simp only [System.step] at hstep
    split at hstep
    · next hc =>
      cases hstep
      rw [hc] at hi
      refine h.checkHead hi.1 fun hnear => ⟨hi.1, hi.2.1, hi.2.2.resolve_right ?_⟩
      rw [← h.head]
      omega
    · cases hstep
  | lapse i =>
    have hi := h.consumer i
    simp only [System.step] at hstep
    split at hstep
    · next newTail hc =>
      cases hstep
      rw [hc] at hi
      obtain ⟨hgates, hfar, hle⟩ := hi
      refine h.moveTail _ ((Nat.le_add_right ..).trans hfar) le_rfl (by rw [h.head]; exact hle)
        ((h.trail i).lapped hfar hle) fun hyes => ?_
      rw [hgates] at hyes
      cases hyes
    · cases hstep

theorem run (h : s.Inv) {acts : List (Action α n)} (hrun : s.run acts = some s') : s'.Inv := by
  induction acts generalizing s with
  | nil =>
    cases hrun
    exact h
  | cons a acts ih =>
    obtain ⟨s₁, hstep, hrest⟩ := Option.bind_eq_some_iff.1 hrun
    exact ih (h.step hstep) hrest

end Inv

/-- **Delivered or detected**, in every interleaving. What a gating consumer has consumed is what
was published, in order and up to its cursor, and what it has not consumed is still in its slot. To
another consumer `Ok` brings the event at its cursor, and its log leads from the first event to its
cursor, with an entry for each event or for a gap of at least a whole ring. Either kind is told that
there is nothing only when it has come to the write cursor. -/
theorem delivers_or_detects {x : α} {acts : List (Action α n)}
    (h : (create x : System α k n mask).run acts = some s) (i : Fin n) :
    s.published.length = s.ring.head ∧ s.ring.tails i ≤ s.ring.head ∧
    ((s.ring.tryPeek i).1 = none ↔ s.ring.tails i = s.ring.head) ∧
    (gates mask i = true →
      s.logs i = (s.published.take (s.ring.tails i)).map .event ∧
      ∀ p y, s.ring.tails i ≤ p → s.published[p]? = some y → s.ring.storage (slot k p) = y) ∧
    (gates mask i = false →
      (∀ y, s.consumers i = .ok y → s.published[s.ring.tails i]? = some y) ∧
      Trail (2 ^ k) s.published 0 (s.logs i) (s.ring.tails i)) := by
  have hinv := (inv_create x).run h
  refine ⟨hinv.head.symm, (hinv.tail_le i).trans (hinv.cachedHead_le i), (hinv.tryPeek i).2.1,
    fun hgates => ⟨?_, fun p y hp hy => hinv.intact_of_gates hgates hp hy⟩, fun _ => ⟨?_, ?_⟩⟩
  · exact ((hinv.trail i).eq_map (hinv.whole i hgates)).2
  · intro y hy
    have hi := hinv.consumer i
    rw [hy] at hi
    exact hi.2.2
  · exact hinv.trail i

/-- A ring of two slots: three events, of which the gating consumer 0 reads the first; consumer 1 is
a whole ring behind while it copies. -/
def overtaken : List (Action Nat 2) :=
  [.claim, .write 10, .publish, .enter 1, .loadHead 1, .claim, .write 11, .publish,
    .peek 0, .read 0, .consume 0, .claim, .write 12, .copy 1, .publish, .loadHeadAgain 1, .lapse 1]

theorem delivers_or_detects_overtaken :
    ∃ s : System Nat 1 2 1#32, (create 0 : System Nat 1 2 1#32).run overtaken = some s ∧
      s.logs 0 = (s.published.take (s.ring.tails 0)).map .event ∧
      Trail 2 s.published 0 (s.logs 1) (s.ring.tails 1) := by
  have hrun : (create 0 : System Nat 1 2 1#32).run overtaken =
      some (((create 0 : System Nat 1 2 1#32).run overtaken).get (by decide)) :=
    (Option.some_get _).symm
  exact ⟨_, hrun, ((delivers_or_detects hrun 0).2.2.2.1 (by decide)).1,
    ((delivers_or_detects hrun 1).2.2.2.2 (by decide)).2⟩

end System

end MulticastRing

end Velox
