import Mathlib.Data.Nat.Bitwise
import Velox.Ipc.SpscRing

/-!
# The two threads of a ring

`ipc/spsc_ring.hpp` again, with the cursors as the 64-bit numbers that they are, and in steps of one
access to the shared memory: a load or a store of a cursor, or an access to a slot. So `tryClaim` is
up to two steps, and the other thread may take any number of steps between them; a claimed slot is
written, as often as the producer likes, before it is published; and a claim may be given up for
another one, as the sequencer does when the journal refuses a command.

What the threads have learnt is old, but the cursors only grow: the invariant (`Inv`) is that of
`SpscRing.Holds`, at the numbers that the cursors stand for, and says of each thread what it may
rely on where it is.

* `fifo`: the ring is a bounded queue, in every state of every run.
-/

namespace Velox.SpscThreads

/-- The capacity of the ring. -/
def capacity (k : Fin 64) : UInt64 := UInt64.ofNat (2 ^ k.val)

/-- `cursor & (Capacity - 1)`. -/
def slot (k : Fin 64) (cursor : UInt64) : UInt64 := cursor &&& (capacity k - 1)

/-- Where the producer is. -/
inductive Producer where
  | idle
  /-- `tryClaim` has returned nothing. -/
  | full
  /-- `tryClaim` has loaded `head`; its copy of the read cursor says that the ring is full. -/
  | reloading (head : UInt64)
  /-- `tryClaim` has returned a slot. -/
  | claimed (slot : UInt64)
  /-- `publish` has loaded `head`. -/
  | publishing (head : UInt64)
  deriving DecidableEq, Repr

/-- Where the consumer is. -/
inductive Consumer (α : Type) where
  | idle
  /-- `tryPeek` has returned nothing. -/
  | empty
  /-- `tryPeek` has loaded `tail`; its copy of the write cursor says that the ring is empty. -/
  | reloading (tail : UInt64)
  /-- `tryPeek` has returned a slot. -/
  | peeked (slot : UInt64)
  /-- The slot has been read. -/
  | read (slot : UInt64) (x : α)
  /-- `consume` has loaded `tail`. -/
  | consuming (tail : UInt64) (x : α)
  deriving DecidableEq, Repr

/-- The shared memory, the two threads, and the values that were published and consumed. -/
structure System (α : Type) (k : Fin 64) where
  storage : UInt64 → α
  head : UInt64
  tail : UInt64
  cachedTail : UInt64
  cachedHead : UInt64
  producer : Producer
  consumer : Consumer α
  published : List α
  consumed : List α

/-- The steps of the producer, then those of the consumer. -/
inductive Action (α : Type) where
  | claimLoad
  | claimReload
  | write (x : α)
  | publishLoad
  | publishStore
  | peekLoad
  | peekReload
  | read
  | consumeLoad
  | consumeStore
  deriving DecidableEq, Repr

namespace System

variable {α : Type} {k : Fin 64}

def create (x : α) : System α k := ⟨fun _ => x, 0, 0, 0, 0, .idle, .idle, [], []⟩

/-- `tryClaim` loads its own cursor. -/
def claimLoad (s : System α k) : System α k :=
  { s with producer :=
      if capacity k ≤ s.head - s.cachedTail then .reloading s.head else .claimed (slot k s.head) }

/-- `tryClaim` loads the consumer's cursor. -/
def claimReload (s : System α k) (head : UInt64) : System α k :=
  { s with
    cachedTail := s.tail
    producer := if capacity k ≤ head - s.tail then .full else .claimed (slot k head) }

def peekLoad (s : System α k) : System α k :=
  { s with consumer :=
      if s.tail = s.cachedHead then .reloading s.tail else .peeked (slot k s.tail) }

def peekReload (s : System α k) (tail : UInt64) : System α k :=
  { s with
    cachedHead := s.head
    consumer := if tail = s.head then .empty else .peeked (slot k tail) }

def step (s : System α k) : Action α → Option (System α k)
  | .claimLoad =>
    match s.producer with
    | .idle | .full | .claimed _ => some s.claimLoad
    | _ => none
  | .claimReload =>
    match s.producer with
    | .reloading head => some (s.claimReload head)
    | _ => none
  | .write x =>
    match s.producer with
    | .claimed slot => some { s with storage := Function.update s.storage slot x }
    | _ => none
  | .publishLoad =>
    match s.producer with
    | .claimed _ => some { s with producer := .publishing s.head }
    | _ => none
  | .publishStore =>
    match s.producer with
    | .publishing head =>
      some { s with
        head := head + 1
        producer := .idle
        published := s.published ++ [s.storage (slot k head)] }
    | _ => none
  | .peekLoad =>
    match s.consumer with
    | .idle | .empty | .peeked _ | .read _ _ => some s.peekLoad
    | _ => none
  | .peekReload =>
    match s.consumer with
    | .reloading tail => some (s.peekReload tail)
    | _ => none
  | .read =>
    match s.consumer with
    | .peeked slot | .read slot _ => some { s with consumer := .read slot (s.storage slot) }
    | _ => none
  | .consumeLoad =>
    match s.consumer with
    | .read _ x => some { s with consumer := .consuming s.tail x }
    | _ => none
  | .consumeStore =>
    match s.consumer with
    | .consuming tail x =>
      some { s with tail := tail + 1, consumer := .idle, consumed := s.consumed ++ [x] }
    | _ => none

def run (s : System α k) : List (Action α) → Option (System α k)
  | [] => some s
  | a :: as => (s.step a).bind fun s => s.run as

/-! ## Cursors -/

theorem toNat_capacity (k : Fin 64) : (capacity k).toNat = 2 ^ k.val := by
  have hlt : 2 ^ k.val < 2 ^ 64 := Nat.pow_lt_pow_right (by decide) k.isLt
  rw [capacity, UInt64.toNat_ofNat', Nat.mod_eq_of_lt hlt]

theorem toNat_slot (k : Fin 64) (cursor : UInt64) :
    (slot k cursor).toNat = cursor.toNat % 2 ^ k.val := by
  have hpos : (1 : UInt64) ≤ capacity k := by
    rw [UInt64.le_iff_toNat_le, toNat_capacity]
    exact Nat.one_le_two_pow
  rw [slot, UInt64.toNat_and, UInt64.toNat_sub_of_le _ _ hpos, toNat_capacity]
  exact Nat.and_two_pow_sub_one_eq_mod _ _

theorem toNat_succ {c : UInt64} (h : c.toNat + 1 < 2 ^ 64) : (c + 1).toNat = c.toNat + 1 := by
  rw [UInt64.toNat_add, UInt64.toNat_one, Nat.mod_eq_of_lt h]

/-- The ring, with the numbers that the cursors stand for. -/
def ring (s : System α k) : SpscRing α (2 ^ k.val) :=
  ⟨fun n => s.storage (UInt64.ofNat n), s.head.toNat, s.tail.toNat, s.cachedTail.toNat,
    s.cachedHead.toNat⟩

theorem ring_storage (s : System α k) (cursor : UInt64) :
    s.ring.storage (cursor.toNat % 2 ^ k.val) = s.storage (slot k cursor) := by
  rw [← toNat_slot]
  exact congrArg s.storage UInt64.ofNat_toNat

/-! ## The invariant -/

/-- There is room behind the write cursor, and a slot that is claimed is there. -/
def ProducerOk (s : System α k) : Prop :=
  match s.producer with
  | .idle | .full => True
  | .reloading head => head = s.head
  | .claimed j => j = slot k s.head ∧ s.head.toNat < s.tail.toNat + 2 ^ k.val
  | .publishing head => head = s.head ∧ s.head.toNat < s.tail.toNat + 2 ^ k.val

/-- There is a value at the read cursor, and it is the one that was read. -/
def ConsumerOk (s : System α k) : Prop :=
  match s.consumer with
  | .idle | .empty => True
  | .reloading tail => tail = s.tail
  | .peeked j => j = slot k s.tail ∧ s.tail.toNat < s.cachedHead.toNat
  | .read j x => j = slot k s.tail ∧ s.tail.toNat < s.cachedHead.toNat ∧
      s.published[s.tail.toNat]? = some x
  | .consuming tail x => tail = s.tail ∧ s.tail.toNat < s.cachedHead.toNat ∧
      s.published[s.tail.toNat]? = some x

structure Inv (s : System α k) : Prop where
  head_eq : s.head.toNat = s.published.length
  tail_eq : s.tail.toNat = s.consumed.length
  consumed : s.consumed <+: s.published
  holds : s.ring.Holds (s.published.drop s.consumed.length)
  producer : s.ProducerOk
  consumer : s.ConsumerOk

theorem inv_create (x : α) : (create x : System α k).Inv :=
  ⟨rfl, rfl, List.prefix_rfl, SpscRing.holds_create x, trivial, trivial⟩

namespace Inv

variable {s s' : System α k}

theorem tail_le_head (h : s.Inv) : s.tail.toNat ≤ s.head.toNat := by
  have hhead : s.head.toNat = s.tail.toNat + _ := h.holds.head_eq
  omega

/-! ## The producer -/

theorem claimLoad (h : s.Inv) : s.claimLoad.Inv := by
  refine ⟨h.head_eq, h.tail_eq, h.consumed, h.holds, ?_, h.consumer⟩
  have hcached : s.cachedTail.toNat ≤ s.tail.toNat := h.holds.cachedTail_le
  have hle : s.cachedTail ≤ s.head :=
    UInt64.le_iff_toNat_le.2 (Nat.le_trans hcached h.tail_le_head)
  by_cases hfull : capacity k ≤ s.head - s.cachedTail
  · simp [ProducerOk, System.claimLoad, hfull]
  · simp only [ProducerOk, System.claimLoad, if_neg hfull, true_and]
    rw [UInt64.le_iff_toNat_le, toNat_capacity, UInt64.toNat_sub_of_le _ _ hle] at hfull
    omega

theorem claimReload {head : UInt64} (h : s.Inv) (hat : s.producer = .reloading head) :
    (s.claimReload head).Inv := by
  have hhead : head = s.head := by
    have hok := h.producer
    rwa [ProducerOk, hat] at hok
  subst hhead
  refine ⟨h.head_eq, h.tail_eq, h.consumed, h.holds.reloadTail, ?_, h.consumer⟩
  have hle : s.tail ≤ s.head := UInt64.le_iff_toNat_le.2 h.tail_le_head
  by_cases hfull : capacity k ≤ s.head - s.tail
  · simp [ProducerOk, System.claimReload, hfull]
  · simp only [ProducerOk, System.claimReload, if_neg hfull, true_and]
    rw [UInt64.le_iff_toNat_le, toNat_capacity, UInt64.toNat_sub_of_le _ _ hle] at hfull
    omega

/-- A claimed slot holds no value that is still to be consumed. -/
theorem claimed_ne {j : UInt64} (h : s.Inv) (hat : s.producer = .claimed j) {i : Nat}
    (htail : s.consumed.length ≤ i) (hhead : i < s.published.length) :
    j.toNat ≠ i % 2 ^ k.val := by
  have hok := h.producer
  rw [ProducerOk, hat] at hok
  obtain ⟨rfl, hroom⟩ := hok
  rw [← h.tail_eq] at htail
  rw [← h.head_eq] at hhead
  have hne : (s.tail.toNat + (i - s.tail.toNat)) % 2 ^ k.val ≠
      (s.tail.toNat + (s.head.toNat - s.tail.toNat)) % 2 ^ k.val :=
    SpscRing.Holds.slot_ne (by omega) (by omega)
  rw [show s.tail.toNat + (i - s.tail.toNat) = i by omega,
    show s.tail.toNat + (s.head.toNat - s.tail.toNat) = s.head.toNat by omega] at hne
  rw [toNat_slot]
  exact hne.symm

theorem write {j : UInt64} (h : s.Inv) (hat : s.producer = .claimed j) (x : α) :
    ({ s with storage := Function.update s.storage j x } : System α k).Inv := by
  refine ⟨h.head_eq, h.tail_eq, h.consumed, ⟨h.holds.head_eq, h.holds.length_le, ?_,
    h.holds.cachedTail_le, h.holds.cachedHead_ge, h.holds.cachedHead_le⟩, h.producer, h.consumer⟩
  intro i y hy
  have hi : i < (s.published.drop s.consumed.length).length := (List.getElem?_eq_some_iff.1 hy).1
  rw [List.length_drop] at hi
  have hne := h.claimed_ne (i := s.tail.toNat + i) hat (by rw [h.tail_eq]; omega)
    (by rw [h.tail_eq]; omega)
  have hlt : (s.tail.toNat + i) % 2 ^ k.val < 2 ^ 64 :=
    Nat.lt_trans (Nat.mod_lt _ (Nat.two_pow_pos _)) (Nat.pow_lt_pow_right (by decide) k.isLt)
  have hj : UInt64.ofNat ((s.tail.toNat + i) % 2 ^ k.val) ≠ j := by
    intro heq
    rw [← heq, UInt64.toNat_ofNat', Nat.mod_eq_of_lt hlt] at hne
    exact hne rfl
  exact (Function.update_of_ne hj x s.storage).trans (h.holds.slot i y hy)

theorem publishLoad {j : UInt64} (h : s.Inv) (hat : s.producer = .claimed j) :
    ({ s with producer := .publishing s.head } : System α k).Inv := by
  refine ⟨h.head_eq, h.tail_eq, h.consumed, h.holds, ?_, h.consumer⟩
  have hok := h.producer
  rw [ProducerOk, hat] at hok
  exact ⟨rfl, hok.2⟩

theorem publishStore {head : UInt64} (h : s.Inv) (hat : s.producer = .publishing head)
    (hcount : s.published.length + 1 < 2 ^ 64) :
    ({ s with
      head := head + 1
      producer := .idle
      published := s.published ++ [s.storage (slot k head)] } : System α k).Inv := by
  have hok := h.producer
  rw [ProducerOk, hat] at hok
  obtain ⟨rfl, hroom⟩ := hok
  have hhead := h.head_eq
  have hring : s.head.toNat = s.tail.toNat + _ := h.holds.head_eq
  have hsucc : (s.head + 1).toNat = s.head.toNat + 1 := toNat_succ (by omega)
  have hdrop : (s.published ++ [s.storage (slot k s.head)]).drop s.consumed.length =
      s.published.drop s.consumed.length ++ [s.storage (slot k s.head)] :=
    List.drop_append_of_le_length h.consumed.length_le
  refine ⟨?_, h.tail_eq, h.consumed.trans (List.prefix_append ..), ?_, trivial, ?_⟩
  · rw [List.length_append, List.length_singleton, ← hhead]
    exact hsucc
  · rw [hdrop]
    have hpublish := h.holds.publish (by omega) (ring_storage s s.head)
    rwa [SpscRing.publish, show s.ring.head + 1 = (s.head + 1).toNat from hsucc.symm] at hpublish
  · -- What the consumer has read is still there.
    have hkeep : ∀ x, s.published[s.tail.toNat]? = some x →
        (s.published ++ [s.storage (slot k s.head)])[s.tail.toNat]? = some x := by
      intro x hx
      rw [List.getElem?_append_left (List.getElem?_eq_some_iff.1 hx).1, hx]
    have hok := h.consumer
    simp only [ConsumerOk] at hok ⊢
    cases hcons : s.consumer with
    | read j x =>
      rw [hcons] at hok
      exact ⟨hok.1, hok.2.1, hkeep x hok.2.2⟩
    | consuming tail x =>
      rw [hcons] at hok
      exact ⟨hok.1, hok.2.1, hkeep x hok.2.2⟩
    | _ => rwa [hcons] at hok

/-! ## The consumer -/

theorem peekLoad (h : s.Inv) : s.peekLoad.Inv := by
  refine ⟨h.head_eq, h.tail_eq, h.consumed, h.holds, h.producer, ?_⟩
  have hge : s.tail.toNat ≤ s.cachedHead.toNat := h.holds.cachedHead_ge
  by_cases hempty : s.tail = s.cachedHead
  · simp [ConsumerOk, System.peekLoad, hempty]
  · simp only [ConsumerOk, System.peekLoad, if_neg hempty, true_and]
    exact lt_of_le_of_ne hge fun heq => hempty (UInt64.toNat_inj.1 heq)

theorem peekReload {tail : UInt64} (h : s.Inv) (hat : s.consumer = .reloading tail) :
    (s.peekReload tail).Inv := by
  have htail : tail = s.tail := by
    have hok := h.consumer
    rwa [ConsumerOk, hat] at hok
  subst htail
  refine ⟨h.head_eq, h.tail_eq, h.consumed, h.holds.reloadHead, h.producer, ?_⟩
  by_cases hempty : s.tail = s.head
  · simp [ConsumerOk, System.peekReload, hempty]
  · simp only [ConsumerOk, System.peekReload, if_neg hempty, true_and]
    exact lt_of_le_of_ne h.tail_le_head fun heq => hempty (UInt64.toNat_inj.1 heq)

/-- The first value that is still to be consumed is in the slot of the read cursor. -/
theorem next_value (h : s.Inv) (hseen : s.tail.toNat < s.cachedHead.toNat) :
    ∃ x, s.published[s.tail.toNat]? = some x ∧ s.storage (slot k s.tail) = x ∧
      s.published.drop s.consumed.length = x :: s.published.drop (s.consumed.length + 1) := by
  have hle : s.cachedHead.toNat ≤ s.head.toNat := h.holds.cachedHead_le
  have hlt : s.consumed.length < s.published.length := by
    rw [← h.tail_eq, ← h.head_eq]
    omega
  have hdrop := List.drop_eq_getElem_cons hlt
  refine ⟨s.published[s.consumed.length], ?_, ?_, hdrop⟩
  · rw [h.tail_eq, List.getElem?_eq_getElem hlt]
  · have hholds := h.holds
    rw [hdrop] at hholds
    rw [← ring_storage]
    exact hholds.head_slot

theorem read {j : UInt64} (h : s.Inv) (hslot : j = slot k s.tail)
    (hseen : s.tail.toNat < s.cachedHead.toNat) :
    ({ s with consumer := .read j (s.storage j) } : System α k).Inv := by
  obtain ⟨x, hx, hstored, -⟩ := h.next_value hseen
  refine ⟨h.head_eq, h.tail_eq, h.consumed, h.holds, h.producer, hslot, hseen, ?_⟩
  rw [hslot, hstored]
  exact hx

theorem consumeLoad {j : UInt64} {x : α} (h : s.Inv) (hat : s.consumer = .read j x) :
    ({ s with consumer := .consuming s.tail x } : System α k).Inv := by
  refine ⟨h.head_eq, h.tail_eq, h.consumed, h.holds, h.producer, ?_⟩
  have hok := h.consumer
  rw [ConsumerOk, hat] at hok
  exact ⟨rfl, hok.2⟩

theorem consumeStore {tail : UInt64} {x : α} (h : s.Inv) (hat : s.consumer = .consuming tail x) :
    ({ s with tail := tail + 1, consumer := .idle, consumed := s.consumed ++ [x] } :
      System α k).Inv := by
  have hok := h.consumer
  rw [ConsumerOk, hat] at hok
  obtain ⟨rfl, hseen, hread⟩ := hok
  obtain ⟨y, hy, -, hdrop⟩ := h.next_value hseen
  obtain rfl : x = y := Option.some.inj (hread.symm.trans hy)
  have hle : s.cachedHead.toNat ≤ s.head.toNat := h.holds.cachedHead_le
  have hbound := s.cachedHead.toNat_lt
  have hsucc : (s.tail + 1).toNat = s.tail.toNat + 1 := toNat_succ (by omega)
  have hlen : (s.consumed ++ [x]).length = s.consumed.length + 1 := by simp
  refine ⟨h.head_eq, ?_, ?_, ?_, ?_, trivial⟩
  · rw [hlen, ← h.tail_eq]
    exact hsucc
  · refine ⟨s.published.drop (s.consumed.length + 1), ?_⟩
    rw [List.append_assoc, List.singleton_append, ← hdrop]
    conv_lhs =>
      rw [List.prefix_iff_eq_take.1 h.consumed, List.length_take_of_le h.consumed.length_le]
    exact List.take_append_drop ..
  · rw [hlen]
    have hholds := h.holds
    rw [hdrop] at hholds
    have hconsume := hholds.consume hseen
    rwa [SpscRing.consume, show s.ring.tail + 1 = (s.tail + 1).toNat from hsucc.symm] at hconsume
  · have hok := h.producer
    simp only [ProducerOk] at hok ⊢
    cases hprod : s.producer with
    | claimed j =>
      rw [hprod] at hok
      exact ⟨hok.1, by rw [hsucc]; omega⟩
    | publishing head =>
      rw [hprod] at hok
      exact ⟨hok.1, by rw [hsucc]; omega⟩
    | _ => rwa [hprod] at hok

/-! ## Runs -/

theorem step {a : Action α} (h : s.Inv) (hstep : s.step a = some s')
    (hcount : s'.published.length < 2 ^ 64) : s'.Inv := by
  cases a with
  | claimLoad =>
    simp only [System.step] at hstep
    split at hstep <;> cases hstep <;> exact h.claimLoad
  | claimReload =>
    simp only [System.step] at hstep
    split at hstep
    · next head hat =>
      cases hstep
      exact h.claimReload hat
    · cases hstep
  | write x =>
    simp only [System.step] at hstep
    split at hstep
    · next j hat =>
      cases hstep
      exact h.write hat x
    · cases hstep
  | publishLoad =>
    simp only [System.step] at hstep
    split at hstep
    · next j hat =>
      cases hstep
      exact h.publishLoad hat
    · cases hstep
  | publishStore =>
    simp only [System.step] at hstep
    split at hstep
    · next head hat =>
      cases hstep
      exact h.publishStore hat (by simpa using hcount)
    · cases hstep
  | peekLoad =>
    simp only [System.step] at hstep
    split at hstep <;> cases hstep <;> exact h.peekLoad
  | peekReload =>
    simp only [System.step] at hstep
    split at hstep
    · next tail hat =>
      cases hstep
      exact h.peekReload hat
    · cases hstep
  | read =>
    have hok := h.consumer
    simp only [System.step] at hstep
    split at hstep
    · next j hat =>
      cases hstep
      rw [ConsumerOk, hat] at hok
      exact h.read hok.1 hok.2
    · next j x hat =>
      cases hstep
      rw [ConsumerOk, hat] at hok
      exact h.read hok.1 hok.2.1
    · cases hstep
  | consumeLoad =>
    simp only [System.step] at hstep
    split at hstep
    · next j x hat =>
      cases hstep
      exact h.consumeLoad hat
    · cases hstep
  | consumeStore =>
    simp only [System.step] at hstep
    split at hstep
    · next tail x hat =>
      cases hstep
      exact h.consumeStore hat
    · cases hstep

end Inv

/-- What was published stays published. -/
theorem step_published {s s' : System α k} {a : Action α} (h : s.step a = some s') :
    s.published <+: s'.published := by
  cases a <;> simp only [step] at h <;> split at h <;> cases h
  all_goals first | exact List.prefix_rfl | exact List.prefix_append ..

theorem run_published {s s' : System α k} {as : List (Action α)} (h : s.run as = some s') :
    s.published <+: s'.published := by
  induction as generalizing s with
  | nil =>
    cases h
    exact List.prefix_rfl
  | cons a as ih =>
    obtain ⟨s₁, hstep, hrun⟩ := Option.bind_eq_some_iff.1 h
    exact (step_published hstep).trans (ih hrun)

theorem Inv.run {s s' : System α k} {as : List (Action α)} (h : s.Inv) (hrun : s.run as = some s')
    (hcount : s'.published.length < 2 ^ 64) : s'.Inv := by
  induction as generalizing s with
  | nil =>
    cases hrun
    exact h
  | cons a as ih =>
    obtain ⟨s₁, hstep, hrun⟩ := Option.bind_eq_some_iff.1 hrun
    have hle := (run_published hrun).length_le
    exact ih (h.step hstep (by omega)) hrun

namespace Inv

variable {s s' : System α k}

theorem head_le (h : s.Inv) : s.head.toNat ≤ s.tail.toNat + 2 ^ k.val := by
  have hhead : s.head.toNat = s.tail.toNat + _ := h.holds.head_eq
  have hlen := h.holds.length_le
  omega

/-- A value stays in its slot until it is consumed, and the producer has not claimed the slot. -/
theorem kept {i : Nat} {x : α} (h : s.Inv) (hcount : s.published.length < 2 ^ 64)
    (hi : s.consumed.length ≤ i) (hx : s.published[i]? = some x) :
    s.storage (slot k (UInt64.ofNat i)) = x ∧ s.producer ≠ .claimed (slot k (UInt64.ofNat i)) := by
  have hlt : i < s.published.length := (List.getElem?_eq_some_iff.1 hx).1
  have hcursor : (UInt64.ofNat i).toNat = i := by
    rw [UInt64.toNat_ofNat', Nat.mod_eq_of_lt (by omega)]
  constructor
  · have hdrop : (s.published.drop s.consumed.length)[i - s.consumed.length]? = some x := by
      rw [List.getElem?_drop, show s.consumed.length + (i - s.consumed.length) = i by omega, hx]
    have hslot := h.holds.slot _ x hdrop
    have hplace : s.ring.tail + (i - s.consumed.length) = (UInt64.ofNat i).toNat := by
      rw [hcursor, show s.ring.tail = s.consumed.length from h.tail_eq]
      omega
    rwa [hplace, ring_storage] at hslot
  · intro hat
    have hne := h.claimed_ne hat hi hlt
    rw [toNat_slot, hcursor] at hne
    exact hne rfl

theorem full (h : s.Inv) (hstep : s.step .claimReload = some s') (hfull : s'.producer = .full) :
    s.published.length = s.consumed.length + 2 ^ k.val := by
  have hok := h.producer
  simp only [System.step] at hstep
  split at hstep
  · next head hat =>
    cases hstep
    rw [ProducerOk, hat] at hok
    subst hok
    have hle : s.tail ≤ s.head := UInt64.le_iff_toNat_le.2 h.tail_le_head
    by_cases hcap : capacity k ≤ s.head - s.tail
    · rw [UInt64.le_iff_toNat_le, toNat_capacity, UInt64.toNat_sub_of_le _ _ hle] at hcap
      have hhead := h.head_le
      have htail := h.tail_le_head
      rw [← h.head_eq, ← h.tail_eq]
      omega
    · simp [System.claimReload, hcap] at hfull
  · cases hstep

theorem empty (h : s.Inv) (hstep : s.step .peekReload = some s') (hempty : s'.consumer = .empty) :
    s.consumed = s.published := by
  have hok := h.consumer
  simp only [System.step] at hstep
  split at hstep
  · next tail hat =>
    cases hstep
    rw [ConsumerOk, hat] at hok
    subst hok
    by_cases heq : s.tail = s.head
    · refine h.consumed.eq_of_length ?_
      rw [← h.tail_eq, ← h.head_eq, heq]
    · simp [System.peekReload, heq] at hempty
  · cases hstep

end Inv

/-- A bounded queue. -/
structure IsQueue (s : System α k) : Prop where
  in_order : s.consumed <+: s.published
  cachedTail_le : s.cachedTail ≤ s.tail
  tail_le : s.tail ≤ s.cachedHead
  cachedHead_le : s.cachedHead ≤ s.head
  head_le : s.head.toNat ≤ s.tail.toNat + 2 ^ k.val
  /-- A value that is not consumed is in its slot, and this is not the slot that may be written. -/
  kept : ∀ i x, s.consumed.length ≤ i → s.published[i]? = some x →
    s.storage (slot k (UInt64.ofNat i)) = x ∧ s.producer ≠ .claimed (slot k (UInt64.ofNat i))
  full : ∀ s', s.step .claimReload = some s' → s'.producer = .full →
    s.published.length = s.consumed.length + 2 ^ k.val
  empty : ∀ s', s.step .peekReload = some s' → s'.consumer = .empty → s.consumed = s.published

/-- **The ring is a bounded queue**, in every state that the two threads can reach while fewer than
2^64 values are published. -/
theorem fifo {x : α} {as : List (Action α)} {s : System α k} (hrun : (create x).run as = some s)
    (hcount : s.published.length < 2 ^ 64) : s.IsQueue := by
  have h : s.Inv := (inv_create x).run hrun hcount
  exact {
    in_order := h.consumed
    cachedTail_le := UInt64.le_iff_toNat_le.2 h.holds.cachedTail_le
    tail_le := UInt64.le_iff_toNat_le.2 h.holds.cachedHead_ge
    cachedHead_le := UInt64.le_iff_toNat_le.2 h.holds.cachedHead_le
    head_le := h.head_le
    kept := fun _ _ hi hx => h.kept hcount hi hx
    full := fun _ hstep hfull => h.full hstep hfull
    empty := fun _ hstep hempty => h.empty hstep hempty }

/-- A claim between the steps of a look at the ring. -/
def interleaved : List (Action Nat) :=
  [.claimLoad, .peekLoad, .write 7, .publishLoad, .publishStore, .peekReload, .claimLoad, .read,
    .write 8, .consumeLoad, .publishLoad, .consumeStore]

theorem fifo_interleaved : ∃ s : System Nat 1,
    (create 0).run interleaved = some s ∧ s.consumed = [7] ∧ s.IsQueue :=
  ⟨_, rfl, rfl, @fifo Nat 1 0 interleaved _ rfl (by decide)⟩

end System

end Velox.SpscThreads
