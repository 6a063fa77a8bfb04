import Velox.Lib.Chain

/-!
# The object pool

Following `common/object_pool.hpp`: a fixed block of slots with a free list threaded through it.
A pointer to a pooled object is the number of its slot. The source overlays the free-list link
and the object in a union; here they are two maps over the slots, since no live object is ever
read as a link or the other way round.

`Live pool ps` says that exactly the slots `ps` are handed out. `acquire` and `release` keep it,
and `acquire` fails only when every slot is in use.
-/

namespace Velox

structure ObjectPool (T : Type) where
  value : Nat → T
  next : Nat → Option Nat
  free : Option Nat
  capacity : Nat
  inUse : Nat

namespace ObjectPool

variable {T : Type}

/-- The constructor threads the free list through the slots in order. -/
def create (blank : T) (capacity : Nat) : ObjectPool T where
  value := fun _ => blank
  next := fun i => if i + 1 < capacity then some (i + 1) else none
  free := if 0 < capacity then some 0 else none
  capacity := capacity
  inUse := 0

/-- Take a slot off the free list; no pointer when there is none. -/
def acquire (pool : ObjectPool T) : Option Nat × ObjectPool T :=
  match pool.free with
  | none => (none, pool)
  | some s => (some s, { pool with free := pool.next s, inUse := pool.inUse + 1 })

/-- Put a slot back at the front of the free list. -/
def release (pool : ObjectPool T) (p : Nat) : ObjectPool T :=
  { pool with
    next := Function.update pool.next p pool.free
    free := some p
    inUse := pool.inUse - 1 }

/-- The slots `ps` are handed out and the others form the free list. -/
structure Live (pool : ObjectPool T) (ps : List Nat) : Prop where
  slots : ∃ fs, Chain.SList pool.next pool.free fs ∧ (ps ++ fs).Perm (List.range pool.capacity)
  inUse : pool.inUse = ps.length

section Live

variable {pool pool' : ObjectPool T} {ps : List Nat}

theorem Live.nodup (h : pool.Live ps) : ps.Nodup := by
  obtain ⟨fs, -, hperm⟩ := h.slots
  exact (List.nodup_append.1 (hperm.nodup_iff.2 List.nodup_range)).1

theorem Live.length_le (h : pool.Live ps) : ps.length ≤ pool.capacity := by
  obtain ⟨fs, -, hperm⟩ := h.slots
  have := hperm.length_eq
  rw [List.length_append, List.length_range] at this
  omega

/-- Only the links matter, not what the slots hold. -/
theorem Live.congr (h : pool.Live ps) (hnext : pool'.next = pool.next) (hfree : pool'.free = pool.free)
    (hcap : pool'.capacity = pool.capacity) (huse : pool'.inUse = pool.inUse) : pool'.Live ps where
  slots := by
    rw [hnext, hfree, hcap]
    exact h.slots
  inUse := huse.trans h.inUse

/-- Slots `i .. capacity - 1` of a fresh pool form a list. -/
theorem slist_create (blank : T) (capacity : Nat) : ∀ n i, i + n = capacity →
    Chain.SList (create blank capacity).next (if i < capacity then some i else none)
      (List.range' i n) := by
  intro n
  induction n with
  | zero =>
    intro i hi
    rw [if_neg (by omega)]
    rfl
  | succ n ih =>
    intro i hi
    rw [if_pos (by omega), List.range'_succ]
    exact ⟨rfl, ih (i + 1) (by omega)⟩

theorem live_create (blank : T) (capacity : Nat) : (create blank capacity).Live [] where
  slots := ⟨List.range' 0 capacity, slist_create blank capacity capacity 0 (by omega),
    by rw [List.nil_append, List.range_eq_range']; exact List.Perm.refl _⟩
  inUse := rfl

/-- The pool is exhausted exactly when all slots are handed out. -/
theorem acquire_exhausted (h : pool.Live ps) (hfull : pool.capacity ≤ ps.length) :
    pool.acquire = (none, pool) := by
  obtain ⟨fs, hlist, hperm⟩ := h.slots
  have hlen := hperm.length_eq
  rw [List.length_append, List.length_range] at hlen
  have hnil : fs = [] := List.eq_nil_of_length_eq_zero (by omega)
  subst hnil
  rw [acquire, show pool.free = none from hlist]

theorem acquire_available (h : pool.Live ps) (hroom : ps.length < pool.capacity) :
    ∃ p pool', pool.acquire = (some p, pool') ∧ p ∉ ps ∧ pool'.Live (ps ++ [p]) ∧
      pool'.value = pool.value ∧ pool'.capacity = pool.capacity := by
  obtain ⟨fs, hlist, hperm⟩ := h.slots
  have hlen := hperm.length_eq
  rw [List.length_append, List.length_range] at hlen
  cases fs with
  | nil => rw [List.length_nil] at hlen; omega
  | cons p fs =>
    obtain ⟨hfree, hrest⟩ := hlist
    have hnd := hperm.nodup_iff.2 List.nodup_range
    refine ⟨p, { pool with free := pool.next p, inUse := pool.inUse + 1 }, by rw [acquire, hfree],
      ?_, ⟨⟨fs, hrest, ?_⟩, ?_⟩, rfl, rfl⟩
    · intro hp
      exact (List.nodup_append.1 hnd).2.2 p hp p (by simp) rfl
    · simpa using hperm
    · simp [h.inUse]

theorem release_live (h : pool.Live ps) {p : Nat} (hp : p ∈ ps) :
    (pool.release p).Live (ps.filter (· ≠ p)) := by
  obtain ⟨fs, hlist, hperm⟩ := h.slots
  have hnd := hperm.nodup_iff.2 List.nodup_range
  have herase : ps.filter (· ≠ p) = ps.erase p := by
    rw [h.nodup.erase_eq_filter]
    exact List.filter_congr fun q _ => by by_cases hq : q = p <;> simp [hq]
  have hpf : p ∉ fs := fun hf => (List.nodup_append.1 hnd).2.2 p hp p hf rfl
  refine ⟨⟨p :: fs, ⟨rfl, ?_⟩, ?_⟩, ?_⟩
  · have hself : (pool.release p).next p = pool.free := Function.update_self ..
    rw [hself]
    refine Chain.SList.congr (fun x hx => Function.update_of_ne ?_ ..) hlist
    rintro rfl
    exact hpf hx
  · rw [herase]
    refine List.Perm.trans ?_ hperm
    refine List.perm_middle.trans ?_
    rw [← List.cons_append]
    exact (List.perm_cons_erase hp).symm.append_right fs
  · rw [herase, List.length_erase_of_mem hp, release, h.inUse]

end Live

end ObjectPool

end Velox
