import Mathlib.Tactic
import Mathlib.Data.Finset.Card
import Mathlib.Order.Interval.Finset.Nat

/-!
# Linear probing with backward-shift deletion

An open-addressed table of `2 ^ n` slots. A key's probe sequence starts at its home slot and
moves one slot at a time, wrapping at the end. There are no tombstones: a deletion walks the
cluster behind the hole and pulls back every entry whose probe sequence runs through it.

Nothing here knows what the keys are or how they hash; the home slot comes from a parameter
`hash`.

* `Inv` — every entry is reachable: the slots its probe sequence passes are all occupied.
* `find_iff`, `insert_fresh`, `insert_dup`, `erase_present` — the operations are those of a
  finite map.
-/

namespace Velox.Probing

/-- The table. A slot is empty or holds one key with its value. -/
structure Table (K V : Type) where
  capacity : Nat
  slots : Nat → Option (K × V)
  size : Nat

namespace Table

variable {K V : Type}

/-- The table with every slot empty. -/
def empty (capacity : Nat) : Table K V := ⟨capacity, fun _ => none, 0⟩

/-- Slot numbers wrap by masking, which is why the capacity must be a power of two. -/
def wrap (t : Table K V) (i : Nat) : Nat := i &&& (t.capacity - 1)

/-- The home slot of a key. -/
def home (hash : K → Nat) (t : Table K V) (k : K) : Nat := t.wrap (hash k)

/-! ## The operations -/

section Operations

variable [DecidableEq K]

/-- The probe the three operations share: from slot `i`, at most `n` slots, up to the first one
that is empty or holds `k`. It returns that slot, with the value found there. -/
def probe (t : Table K V) (k : K) : Nat → Nat → Option (Nat × Option V)
  | 0, _ => none
  | n + 1, i =>
    match t.slots i with
    | none => some (i, none)
    | some (k', v) => if k' = k then some (i, some v) else t.probe k n (t.wrap (i + 1))

/-- The table after storing `(k, v)` in slot `p`. -/
def place (t : Table K V) (p : Nat) (k : K) (v : V) : Table K V :=
  { t with slots := Function.update t.slots p (some (k, v)), size := t.size + 1 }

/-- Insert; `false` when the key is present already or the table is full. -/
def insert (hash : K → Nat) (t : Table K V) (k : K) (v : V) : Bool × Table K V :=
  match t.probe k t.capacity (t.home hash k) with
  | some (i, none) => (true, t.place i k v)
  | _ => (false, t)

/-- Look a key up. An empty slot ends the probe: the key is absent. -/
def find (hash : K → Nat) (t : Table K V) (k : K) : Option V :=
  match t.probe k t.capacity (t.home hash k) with
  | some (_, some v) => some v
  | _ => none

/-- Is `home` cyclically outside `(i, j]`? Then the entry at `j` belongs at or before `i`. -/
def movesBack (i j home : Nat) : Bool :=
  if i ≤ j then decide (home ≤ i ∨ j < home) else decide (home ≤ i ∧ j < home)

/-- The backward shift: `i` is the hole, `j` the slot looked at last. The walk ends at the
first empty slot; `none` when the fuel runs out before one is met. -/
def shiftLoop (hash : K → Nat) (t : Table K V) :
    Nat → (Nat → Option (K × V)) → Nat → Nat → Option (Nat → Option (K × V))
  | 0, _, _, _ => none
  | fuel + 1, slots, i, j =>
    match slots (t.wrap (j + 1)) with
    | none => some (Function.update slots i none)
    | some (k, v) =>
      if movesBack i (t.wrap (j + 1)) (t.home hash k) then
        t.shiftLoop hash fuel (Function.update slots i (some (k, v))) (t.wrap (j + 1))
          (t.wrap (j + 1))
      else
        t.shiftLoop hash fuel slots i (t.wrap (j + 1))

/-- Delete a key. `none` only if the backward shift never meets an empty slot. -/
def erase (hash : K → Nat) (t : Table K V) (k : K) : Option (Bool × Table K V) :=
  match t.probe k t.capacity (t.home hash k) with
  | some (i, some _) => do
    let slots ← t.shiftLoop hash t.capacity t.slots i i
    some (true, { t with slots := slots, size := t.size - 1 })
  | _ => some (false, t)

end Operations

/-! ## Cyclic offsets -/

theorem mod_add_lt {n a b : Nat} (ha : a < n) (hb : b < n) :
    (a + b) % n = if a + b < n then a + b else a + b - n := by
  split
  · exact Nat.mod_eq_of_lt ‹_›
  · rw [Nat.mod_eq_sub_mod (by omega), Nat.mod_eq_of_lt (by omega)]

/-- Every slot is some number of steps from `a`. -/
theorem exists_offset {n a i : Nat} (ha : a < n) (hi : i < n) : ∃ d < n, (a + d) % n = i := by
  by_cases h : a ≤ i
  · exact ⟨i - a, by omega, by rw [Nat.mod_eq_of_lt] <;> omega⟩
  · refine ⟨i + n - a, by omega, ?_⟩
    rw [mod_add_lt ha (by omega)]
    split <;> omega

theorem offset_inj {n a d e : Nat} (ha : a < n) (hd : d < n) (he : e < n)
    (h : (a + d) % n = (a + e) % n) : d = e := by
  rw [mod_add_lt ha hd, mod_add_lt ha he] at h
  split at h <;> split at h <;> omega

/-! ## The invariant -/

/-- The probe sequence from `a` reaches slot `i` through occupied slots only. -/
def Reach {α : Type} (slots : Nat → Option α) (n a i : Nat) : Prop :=
  ∃ d < n, (a + d) % n = i ∧ ∀ m < d, slots ((a + m) % n) ≠ none

/-- The occupied slots. -/
def occupied (t : Table K V) : Finset Nat :=
  (Finset.range t.capacity).filter fun i => (t.slots i).isSome

@[simp] theorem mem_occupied {t : Table K V} {i : Nat} :
    i ∈ t.occupied ↔ i < t.capacity ∧ t.slots i ≠ none := by
  rw [occupied, Finset.mem_filter, Finset.mem_range, Option.isSome_iff_ne_none]

/-- `k` is stored with value `v`. -/
def Mem (t : Table K V) (k : K) (v : V) : Prop := ∃ i < t.capacity, t.slots i = some (k, v)

/-- What every operation keeps. -/
structure Inv (hash : K → Nat) (t : Table K V) : Prop where
  pow : ∃ n, t.capacity = 2 ^ n
  card : t.occupied.card = t.size
  uniq : ∀ i < t.capacity, ∀ j < t.capacity, ∀ k v w,
    t.slots i = some (k, v) → t.slots j = some (k, w) → i = j
  reach : ∀ i < t.capacity, ∀ k v, t.slots i = some (k, v) →
    Reach t.slots t.capacity (t.home hash k) i

section Lemmas

variable {hash : K → Nat} {t : Table K V}

theorem wrap_eq (h : ∃ n, t.capacity = 2 ^ n) (i : Nat) : t.wrap i = i % t.capacity := by
  obtain ⟨n, hn⟩ := h
  rw [wrap, hn, Nat.and_two_pow_sub_one_eq_mod]

theorem capacity_pos (h : ∃ n, t.capacity = 2 ^ n) : 0 < t.capacity := by
  obtain ⟨n, hn⟩ := h
  rw [hn]
  exact Nat.two_pow_pos n

theorem home_lt (h : ∃ n, t.capacity = 2 ^ n) (k : K) : t.home hash k < t.capacity := by
  rw [home, wrap_eq h]
  exact Nat.mod_lt _ (capacity_pos h)

theorem wrap_step (h : ∃ n, t.capacity = 2 ^ n) (a m : Nat) :
    t.wrap ((a + m) % t.capacity + 1) = (a + (m + 1)) % t.capacity := by
  rw [wrap_eq h, Nat.mod_add_mod]
  rfl

theorem inv_empty (hash : K → Nat) (n : Nat) : (empty (2 ^ n) : Table K V).Inv hash where
  pow := ⟨n, rfl⟩
  card := by simp [occupied, empty]
  uniq := by simp [empty]
  reach := by simp [empty]

theorem mem_unique (hi : t.Inv hash) {k : K} {v w : V} (hv : t.Mem k v) (hw : t.Mem k w) :
    v = w := by
  obtain ⟨i, hic, hi'⟩ := hv
  obtain ⟨j, hjc, hj'⟩ := hw
  have hij := hi.uniq i hic j hjc k v w hi' hj'
  subst hij
  rw [hi'] at hj'
  simpa using hj'

/-- A key at probe distance `d` from its home is at none of the slots before. -/
theorem key_ne_before (hi : t.Inv hash) {k : K} {v : V} {d m : Nat} (hd : d < t.capacity)
    (hs : t.slots ((t.home hash k + d) % t.capacity) = some (k, v)) (hm : m < d) {k' : K} {v' : V}
    (hs' : t.slots ((t.home hash k + m) % t.capacity) = some (k', v')) : k' ≠ k := by
  rintro rfl
  have hpos := capacity_pos hi.pow
  have heq := hi.uniq _ (Nat.mod_lt _ hpos) _ (Nat.mod_lt _ hpos) _ _ _ hs' hs
  have := offset_inj (home_lt hi.pow k') (hm.trans hd) hd heq
  omega

/-! ## The probe -/

/-- A table that is not full has an empty slot. -/
theorem exists_empty (hi : t.Inv hash) (hfull : t.size < t.capacity) :
    ∃ i < t.capacity, t.slots i = none := by
  by_contra hno
  push Not at hno
  have hall : t.occupied = Finset.range t.capacity := by
    refine Finset.filter_true_of_mem fun i hir => ?_
    exact Option.isSome_iff_ne_none.2 (hno i (Finset.mem_range.1 hir))
  have hcard := hi.card
  rw [hall, Finset.card_range] at hcard
  omega

/-- The first empty slot of the probe sequence from `a`. -/
theorem exists_first_empty (hi : t.Inv hash) (hfull : t.size < t.capacity) {a : Nat}
    (ha : a < t.capacity) :
    ∃ e < t.capacity, t.slots ((a + e) % t.capacity) = none ∧
      ∀ m < e, t.slots ((a + m) % t.capacity) ≠ none := by
  classical
  obtain ⟨i, hic, hin⟩ := exists_empty hi hfull
  obtain ⟨d, hd, hdi⟩ := exists_offset ha hic
  have hex : ∃ e, t.slots ((a + e) % t.capacity) = none := ⟨d, by rw [hdi]; exact hin⟩
  refine ⟨Nat.find hex, ?_, Nat.find_spec hex, fun m hm => Nat.find_min hex hm⟩
  exact lt_of_le_of_lt (Nat.find_min' hex (by rw [hdi]; exact hin)) hd

/-- The probe for a stored key stops at its slot. -/
theorem probe_present [DecidableEq K] (hi : t.Inv hash) {k : K} {v : V} {i : Nat}
    (hic : i < t.capacity) (hiv : t.slots i = some (k, v)) :
    t.probe k t.capacity (t.home hash k) = some (i, some v) := by
  obtain ⟨d, hd, rfl, hpath⟩ := hi.reach i hic k v hiv
  have hloop : ∀ (n m : Nat), m ≤ d → d < m + n →
      t.probe k n ((t.home hash k + m) % t.capacity) =
        some ((t.home hash k + d) % t.capacity, some v) := by
    intro n
    induction n with
    | zero => intro m hm hn; omega
    | succ n ih =>
      intro m hm hn
      rw [probe]
      by_cases hmd : m = d
      · subst hmd
        simp [hiv]
      · have hlt : m < d := by omega
        split
        · next hnone => exact absurd hnone (hpath m hlt)
        · next k' v' hs' =>
          rw [if_neg (key_ne_before hi hd hiv hlt hs'), wrap_step hi.pow]
          exact ih (m + 1) (by omega) (by omega)
  have := hloop t.capacity 0 (by omega) (by omega)
  rwa [Nat.add_zero, Nat.mod_eq_of_lt (home_lt hi.pow k)] at this

/-- The probe for a key that is not stored stops at the first empty slot. -/
theorem probe_absent [DecidableEq K] (hi : t.Inv hash) (hfull : t.size < t.capacity) {k : K}
    (habs : ∀ v, ¬ t.Mem k v) :
    ∃ p < t.capacity, t.slots p = none ∧ Reach t.slots t.capacity (t.home hash k) p ∧
      t.probe k t.capacity (t.home hash k) = some (p, none) := by
  have hh : t.home hash k < t.capacity := home_lt hi.pow k
  have hpos := capacity_pos hi.pow
  obtain ⟨e, he, hempty, hpath⟩ := exists_first_empty hi hfull hh
  have hloop : ∀ (n m : Nat), m ≤ e → e < m + n →
      t.probe k n ((t.home hash k + m) % t.capacity) =
        some ((t.home hash k + e) % t.capacity, none) := by
    intro n
    induction n with
    | zero => intro m hm hn; omega
    | succ n ih =>
      intro m hm hn
      rw [probe]
      by_cases hme : m = e
      · subst hme
        simp [hempty]
      · have hlt : m < e := by omega
        split
        · next hnone => exact absurd hnone (hpath m hlt)
        · next k' v' hs =>
          have hne : k' ≠ k := by
            rintro rfl
            exact habs v' ⟨_, Nat.mod_lt _ hpos, hs⟩
          rw [if_neg hne, wrap_step hi.pow]
          exact ih (m + 1) (by omega) (by omega)
  have hprobe := hloop t.capacity 0 (by omega) (by omega)
  rw [Nat.add_zero, Nat.mod_eq_of_lt hh] at hprobe
  exact ⟨_, Nat.mod_lt _ hpos, hempty, ⟨e, he, rfl, hpath⟩, hprobe⟩

/-! ## Lookup -/

/-- **Lookup is the map's**, in a table that is not full. -/
theorem find_iff [DecidableEq K] (hi : t.Inv hash) (hfull : t.size < t.capacity) {k : K} {v : V} :
    t.find hash k = some v ↔ t.Mem k v := by
  constructor
  · intro hf
    by_cases hany : ∃ w, t.Mem k w
    · obtain ⟨w, i, hic, hiw⟩ := hany
      rw [find, probe_present hi hic hiw] at hf
      obtain rfl : w = v := by simpa using hf
      exact ⟨i, hic, hiw⟩
    · obtain ⟨p, -, -, -, hp⟩ := probe_absent hi hfull fun w hw => hany ⟨w, hw⟩
      rw [find, hp] at hf
      cases hf
  · rintro ⟨i, hic, hiv⟩
    rw [find, probe_present hi hic hiv]

theorem find_eq_none [DecidableEq K] (hi : t.Inv hash) (hfull : t.size < t.capacity) {k : K} :
    t.find hash k = none ↔ ∀ v, ¬ t.Mem k v := by
  constructor
  · intro hf v hv
    rw [(find_iff hi hfull).2 hv] at hf
    cases hf
  · intro h
    cases hf : t.find hash k with
    | none => rfl
    | some v => exact absurd ((find_iff hi hfull).1 hf) (h v)

/-! ## Insertion -/

@[simp] theorem place_slots_self (p : Nat) (k : K) (v : V) :
    (t.place p k v).slots p = some (k, v) := Function.update_self _ _ _

theorem place_slots_ne {i p : Nat} (h : i ≠ p) (k : K) (v : V) :
    (t.place p k v).slots i = t.slots i := Function.update_of_ne h _ _

theorem place_inv {k : K} {v : V} (habs : ∀ w, ¬ t.Mem k w) (hi : t.Inv hash) {p : Nat}
    (hp : p < t.capacity) (hempty : t.slots p = none)
    (hreach : Reach t.slots t.capacity (t.home hash k) p) : (t.place p k v).Inv hash := by
  have hocc : ∀ i, t.slots i ≠ none → (t.place p k v).slots i = t.slots i := by
    intro i hne
    exact place_slots_ne (by rintro rfl; exact hne hempty) k v
  have hsome : ∀ i, t.slots i ≠ none → (t.place p k v).slots i ≠ none := by
    intro i hne
    rw [hocc i hne]
    exact hne
  have hmono : ∀ a i, Reach t.slots t.capacity a i → Reach (t.place p k v).slots t.capacity a i :=
    fun a i ⟨d, hd, hdi, hpath⟩ => ⟨d, hd, hdi, fun m hm => hsome _ (hpath m hm)⟩
  have hother : ∀ i, i ≠ p → (t.place p k v).slots i = t.slots i := fun i hne =>
    place_slots_ne hne k v
  refine ⟨hi.pow, ?_, ?_, ?_⟩
  · have hset : (t.place p k v).occupied = Insert.insert p t.occupied := by
      ext i
      rw [Finset.mem_insert, mem_occupied, mem_occupied]
      by_cases hip : i = p
      · subst hip
        simp [place_slots_self, show i < (t.place i k v).capacity from hp]
      · simp [hip, hother i hip, show (t.place p k v).capacity = t.capacity from rfl]
    rw [hset, Finset.card_insert_of_notMem (by simp [hempty]), hi.card]
    rfl
  · intro i hic j hjc k' v' w' hiv hjw
    by_cases hip : i = p <;> by_cases hjp : j = p
    · rw [hip, hjp]
    · subst hip
      rw [place_slots_self] at hiv
      rw [hother j hjp] at hjw
      obtain ⟨rfl, rfl⟩ := by simpa using hiv
      exact absurd ⟨j, hjc, hjw⟩ (habs w')
    · subst hjp
      rw [place_slots_self] at hjw
      rw [hother i hip] at hiv
      obtain ⟨rfl, rfl⟩ := by simpa using hjw
      exact absurd ⟨i, hic, hiv⟩ (habs v')
    · rw [hother i hip] at hiv
      rw [hother j hjp] at hjw
      exact hi.uniq i hic j hjc k' v' w' hiv hjw
  · intro i hic k' v' hiv
    by_cases hip : i = p
    · subst hip
      rw [place_slots_self] at hiv
      obtain ⟨rfl, rfl⟩ := by simpa using hiv
      exact hmono _ _ hreach
    · rw [hother i hip] at hiv
      exact hmono _ _ (hi.reach i hic k' v' hiv)

theorem place_mem {k : K} {v : V} {p : Nat} (hp : p < t.capacity) (hempty : t.slots p = none)
    (k' : K) (v' : V) : (t.place p k v).Mem k' v' ↔ (k' = k ∧ v' = v) ∨ t.Mem k' v' := by
  constructor
  · rintro ⟨i, hic, hiv⟩
    by_cases hip : i = p
    · subst hip
      rw [place_slots_self] at hiv
      left
      simpa [eq_comm] using hiv
    · rw [place_slots_ne hip] at hiv
      exact Or.inr ⟨i, hic, hiv⟩
  · rintro (⟨rfl, rfl⟩ | ⟨i, hic, hiv⟩)
    · exact ⟨p, hp, place_slots_self p _ _⟩
    · have hip : i ≠ p := by
        rintro rfl
        rw [hempty] at hiv
        cases hiv
      exact ⟨i, hic, by rw [place_slots_ne hip]; exact hiv⟩

/-- **Inserting a fresh key** into a table that is not full succeeds and adds that entry. -/
theorem insert_fresh [DecidableEq K] (hi : t.Inv hash) (hfull : t.size < t.capacity) {k : K}
    (v : V) (habs : ∀ w, ¬ t.Mem k w) :
    ∃ t', t.insert hash k v = (true, t') ∧ t'.Inv hash ∧ t'.capacity = t.capacity ∧
      t'.size = t.size + 1 ∧ ∀ k' v', t'.Mem k' v' ↔ (k' = k ∧ v' = v) ∨ t.Mem k' v' := by
  obtain ⟨p, hp, hempty, hreach, hprobe⟩ := probe_absent hi hfull habs
  refine ⟨t.place p k v, ?_, place_inv habs hi hp hempty hreach, rfl, rfl, place_mem hp hempty⟩
  rw [insert, hprobe]

/-- Inserting a key that is present fails and changes nothing. -/
theorem insert_dup [DecidableEq K] (hi : t.Inv hash) {k : K} {v w : V} (hmem : t.Mem k w) :
    t.insert hash k v = (false, t) := by
  obtain ⟨i, hic, hiw⟩ := hmem
  rw [insert, probe_present hi hic hiw]

/-! ## Deletion

Slots are counted from the deleted one: offset `x` is slot `(i₀ + x) % n`. The first empty slot
behind it is at offset `e`, so the walk looks at offsets `1, …, e` and the hole stays below. -/

/-- The slots strictly before offset `x` on the way from offset `a`, in cyclic order. -/
def OnPath (a x y : Nat) : Prop := if a ≤ x then a ≤ y ∧ y < x else a ≤ y ∨ y < x

theorem offset_add (n i₀ a m : Nat) : ((i₀ + a) % n + m) % n = (i₀ + (a + m) % n) % n := by
  rw [Nat.mod_add_mod, Nat.add_mod_mod, Nat.add_assoc]

theorem onPath_of_step {n a d m x : Nat} (ha : a < n) (hd : d < n) (hx : (a + d) % n = x)
    (hm : m < d) : OnPath a x ((a + m) % n) := by
  rw [mod_add_lt ha hd] at hx
  rw [mod_add_lt ha (hm.trans hd), OnPath]
  split at hx <;> split <;> split <;> omega

theorem step_of_onPath {n a d x y : Nat} (ha : a < n) (hd : d < n) (hx : (a + d) % n = x)
    (hy : y < n) (hp : OnPath a x y) : ∃ m < d, (a + m) % n = y := by
  obtain ⟨m, hm, hmy⟩ := exists_offset ha hy
  refine ⟨m, ?_, hmy⟩
  rw [mod_add_lt ha hd] at hx
  rw [mod_add_lt ha hm] at hmy
  rw [OnPath] at hp
  split at hx <;> split at hmy <;> split at hp <;> omega

/-- Reachability, read off the path. -/
theorem reach_iff {α : Type} {f : Nat → Option α} {n i₀ a x : Nat} (hi₀ : i₀ < n) (ha : a < n)
    (hx : x < n) : Reach f n ((i₀ + a) % n) ((i₀ + x) % n) ↔
      ∀ y < n, OnPath a x y → f ((i₀ + y) % n) ≠ none := by
  constructor
  · rintro ⟨d, hd, hdx, hpath⟩ y hy hp
    rw [offset_add] at hdx
    have hax := offset_inj hi₀ (Nat.mod_lt _ (by omega)) hx hdx
    obtain ⟨m, hm, hmy⟩ := step_of_onPath ha hd hax hy hp
    have := hpath m hm
    rwa [offset_add, hmy] at this
  · intro h
    obtain ⟨d, hd, hdx⟩ := exists_offset ha hx
    refine ⟨d, hd, by rw [offset_add, hdx], fun m hm => ?_⟩
    rw [offset_add]
    exact h _ (Nat.mod_lt _ (by omega)) (onPath_of_step ha hd hdx hm)

/-- The test of the deletion walk: the hole lies on the path of the entry looked at. -/
theorem movesBack_iff {n i₀ h s a : Nat} (hi₀ : i₀ < n) (hhs : h < s) (hs : s < n) (ha : a < n) :
    movesBack ((i₀ + h) % n) ((i₀ + s) % n) ((i₀ + a) % n) = true ↔ OnPath a s h := by
  rw [mod_add_lt hi₀ (hhs.trans hs), mod_add_lt hi₀ hs, mod_add_lt hi₀ ha, movesBack, OnPath]
  split <;> split <;> split <;> split <;> split <;> simp only [decide_eq_true_eq] <;> omega

/-- The walk's state: the slots are `f`, the hole is at offset `h` and offsets up to `s` have
been looked at. The hole still holds a stale entry, so occupation has not changed yet. -/
structure Shifting (hash : K → Nat) (t : Table K V) (i₀ e : Nat) (k₀ : K)
    (f : Nat → Option (K × V)) (h s : Nat) : Prop where
  hole_le : h ≤ s
  scan_lt : s < e
  occ : ∀ x < t.capacity, f x = none ↔ t.slots x = none
  mem : ∀ k v, (∃ x < t.capacity, x ≠ h ∧ f ((i₀ + x) % t.capacity) = some (k, v)) ↔
    t.Mem k v ∧ k ≠ k₀
  uniq : ∀ x < t.capacity, ∀ y < t.capacity, x ≠ h → y ≠ h → ∀ k v w,
    f ((i₀ + x) % t.capacity) = some (k, v) → f ((i₀ + y) % t.capacity) = some (k, w) → x = y
  reach : ∀ x < t.capacity, x ≠ h → ∀ k v, f ((i₀ + x) % t.capacity) = some (k, v) →
    ∃ a < t.capacity, t.home hash k = (i₀ + a) % t.capacity ∧
      ∀ y < t.capacity, OnPath a x y →
        f ((i₀ + y) % t.capacity) ≠ none ∧ (x ≤ s → y ≠ h)

/-- The walk starts with the deleted slot as the hole. -/
theorem shifting_start (hi : t.Inv hash) {i₀ e : Nat} {k₀ : K} {v₀ : V} (hi₀ : i₀ < t.capacity)
    (hs : t.slots i₀ = some (k₀, v₀)) (he : 0 < e) :
    Shifting hash t i₀ e k₀ t.slots 0 0 where
  hole_le := le_rfl
  scan_lt := he
  occ := fun _ _ => Iff.rfl
  mem := by
    have h0 : (i₀ + 0) % t.capacity = i₀ := by rw [Nat.add_zero, Nat.mod_eq_of_lt hi₀]
    intro k v
    constructor
    · rintro ⟨x, hx, hx0, hxs⟩
      refine ⟨⟨_, Nat.mod_lt _ (capacity_pos hi.pow), hxs⟩, ?_⟩
      rintro rfl
      have heq := hi.uniq _ (Nat.mod_lt _ (capacity_pos hi.pow)) i₀ hi₀ _ _ _ hxs hs
      exact hx0 (offset_inj hi₀ hx (by omega) (heq.trans h0.symm))
    · rintro ⟨⟨i, hic, hiv⟩, hne⟩
      obtain ⟨x, hx, hxi⟩ := exists_offset hi₀ hic
      refine ⟨x, hx, ?_, by rw [hxi]; exact hiv⟩
      rintro rfl
      rw [h0] at hxi
      subst hxi
      rw [hs] at hiv
      simp only [Option.some.injEq, Prod.mk.injEq] at hiv
      exact hne hiv.1.symm
  uniq := by
    intro x hx y hy _ _ k v w hxv hyw
    have hpos := capacity_pos hi.pow
    exact offset_inj hi₀ hx hy
      (hi.uniq _ (Nat.mod_lt _ hpos) _ (Nat.mod_lt _ hpos) k v w hxv hyw)
  reach := by
    intro x hx hx0 k v hxv
    have hpos := capacity_pos hi.pow
    obtain ⟨a, ha, hak⟩ := exists_offset hi₀ (show t.home hash k < _ from home_lt hi.pow k)
    have hr := hi.reach _ (Nat.mod_lt _ hpos) k v hxv
    rw [← hak, reach_iff hi₀ ha hx] at hr
    exact ⟨a, ha, hak.symm, fun y hy hp => ⟨hr y hy hp, fun h0 => absurd (Nat.le_zero.1 h0) hx0⟩⟩

section Walk

variable {i₀ e h s : Nat} {k₀ : K} {f : Nat → Option (K × V)}

/-- The path of an entry behind the empty slot, or looked at already, misses the hole: a path
through the hole and on past the empty slot would run through it. -/
theorem Shifting.path_avoids (w : Shifting hash t i₀ e k₀ f h s) (he : e < t.capacity)
    (hfe : f ((i₀ + e) % t.capacity) = none) {a x : Nat} (hxs : x ≤ s ∨ e < x)
    (hpath : ∀ y < t.capacity, OnPath a x y →
      f ((i₀ + y) % t.capacity) ≠ none ∧ (x ≤ s → y ≠ h)) {z : Nat} (hz : z < e)
    (hzs : z = h ∨ s < z) : ¬ OnPath a x z := by
  intro hp
  have hle := w.hole_le
  have hse := w.scan_lt
  rcases hxs with hxs | hxe
  · rcases hzs with rfl | hzs
    · exact (hpath z (by omega) hp).2 hxs rfl
    · refine (hpath e he ?_).1 hfe
      rw [OnPath] at hp ⊢
      split at hp <;> split <;> omega
  · refine (hpath e he ?_).1 hfe
    rw [OnPath] at hp ⊢
    split at hp <;> split <;> omega

/-- The entry looked at does not run through the hole and stays. -/
theorem Shifting.skip (w : Shifting hash t i₀ e k₀ f h s) (hse : s + 1 < e) {k : K} {v : V}
    (hf : f ((i₀ + (s + 1)) % t.capacity) = some (k, v)) {a : Nat} (ha : a < t.capacity)
    (hi₀ : i₀ < t.capacity) (hak : t.home hash k = (i₀ + a) % t.capacity)
    (hno : ¬ OnPath a (s + 1) h) : Shifting hash t i₀ e k₀ f h (s + 1) where
  hole_le := le_trans w.hole_le (Nat.le_succ s)
  scan_lt := hse
  occ := w.occ
  mem := w.mem
  uniq := w.uniq
  reach := by
    intro x hx hxh k' v' hxv
    obtain ⟨a', ha', hak', hpath⟩ := w.reach x hx hxh k' v' hxv
    refine ⟨a', ha', hak', fun y hy hp => ⟨(hpath y hy hp).1, fun hxs => ?_⟩⟩
    by_cases hx1 : x = s + 1
    · subst hx1
      rw [hf] at hxv
      obtain ⟨rfl, rfl⟩ := by simpa using hxv
      have haa : a' = a := offset_inj hi₀ ha' ha (hak'.symm.trans hak)
      subst haa
      rintro rfl
      exact hno hp
    · exact (hpath y hy hp).2 (by omega)

/-- The entry looked at runs through the hole and moves into it; its slot is the new hole. -/
theorem Shifting.move (w : Shifting hash t i₀ e k₀ f h s) (hi₀ : i₀ < t.capacity)
    (he : e < t.capacity) (hfe : f ((i₀ + e) % t.capacity) = none) (hse : s + 1 < e) {k : K}
    {v : V} (hf : f ((i₀ + (s + 1)) % t.capacity) = some (k, v)) {a : Nat} (ha : a < t.capacity)
    (hak : t.home hash k = (i₀ + a) % t.capacity)
    (hpath : ∀ y < t.capacity, OnPath a (s + 1) y → f ((i₀ + y) % t.capacity) ≠ none)
    (hon : OnPath a (s + 1) h) :
    Shifting hash t i₀ e k₀ (Function.update f ((i₀ + h) % t.capacity) (some (k, v)))
      (s + 1) (s + 1) := by
  have hle := w.hole_le
  have hne : ∀ {x}, x < t.capacity → x ≠ h → (i₀ + x) % t.capacity ≠ (i₀ + h) % t.capacity :=
    fun hx hxh heq => hxh (offset_inj hi₀ hx (by omega) heq)
  have hfh : f ((i₀ + h) % t.capacity) ≠ none := hpath h (by omega) hon
  have hat : ∀ {x}, x < t.capacity → x ≠ h →
      Function.update f ((i₀ + h) % t.capacity) (some (k, v)) ((i₀ + x) % t.capacity) =
        f ((i₀ + x) % t.capacity) := fun hx hxh => Function.update_of_ne (hne hx hxh) _ _
  have hsome : ∀ {y}, f ((i₀ + y) % t.capacity) ≠ none →
      Function.update f ((i₀ + h) % t.capacity) (some (k, v)) ((i₀ + y) % t.capacity) ≠ none := by
    intro y hy
    rw [Function.update_apply]
    split
    · exact Option.some_ne_none _
    · exact hy
  refine ⟨le_rfl, hse, ?_, ?_, ?_, ?_⟩
  · intro x hx
    rw [Function.update_apply]
    split
    · next heq => rw [← w.occ x hx, heq]; simp [hfh]
    · exact w.occ x hx
  · intro k' v'
    rw [← w.mem k' v']
    constructor
    · rintro ⟨x, hx, hxs, hxv⟩
      by_cases hxh : x = h
      · subst hxh
        rw [Function.update_self] at hxv
        exact ⟨s + 1, by omega, by omega, by rw [hf, hxv]⟩
      · exact ⟨x, hx, hxh, by rwa [hat hx hxh] at hxv⟩
    · rintro ⟨x, hx, hxh, hxv⟩
      by_cases hxs : x = s + 1
      · subst hxs
        refine ⟨h, by omega, by omega, ?_⟩
        rw [Function.update_self, ← hxv, hf]
      · exact ⟨x, hx, hxs, by rw [hat hx hxh]; exact hxv⟩
  · intro x hx y hy hxs hys k' v' w' hxv hyw
    by_cases hxh : x = h <;> by_cases hyh : y = h
    · rw [hxh, hyh]
    · subst hxh
      rw [Function.update_self] at hxv
      rw [hat hy hyh] at hyw
      obtain ⟨rfl, rfl⟩ := by simpa using hxv
      exact absurd (w.uniq y hy (s + 1) (by omega) hyh (by omega) _ _ _ hyw hf) hys
    · subst hyh
      rw [Function.update_self] at hyw
      rw [hat hx hxh] at hxv
      obtain ⟨rfl, rfl⟩ := by simpa using hyw
      exact absurd (w.uniq x hx (s + 1) (by omega) hxh (by omega) _ _ _ hxv hf) hxs
    · rw [hat hx hxh] at hxv
      rw [hat hy hyh] at hyw
      exact w.uniq x hx y hy hxh hyh k' v' w' hxv hyw
  · intro x hx hxs k' v' hxv
    by_cases hxh : x = h
    · -- The moved entry: its new path is the part of the old one before the hole.
      subst hxh
      rw [Function.update_self] at hxv
      obtain ⟨rfl, rfl⟩ := by simpa using hxv
      refine ⟨a, ha, hak, fun y hy hp => ⟨hsome (hpath y hy ?_), fun _ => ?_⟩⟩
      · rw [OnPath] at hp hon ⊢
        split at hp <;> split at hon <;> split <;> omega
      · rw [OnPath] at hp hon
        split at hp <;> split at hon <;> omega
    · rw [hat hx hxh] at hxv
      obtain ⟨a', ha', hak', hpath'⟩ := w.reach x hx hxh k' v' hxv
      refine ⟨a', ha', hak', fun y hy hp => ⟨hsome (hpath' y hy hp).1, fun hxs' => ?_⟩⟩
      rintro rfl
      exact w.path_avoids he hfe (Or.inl (by omega)) hpath' hse (Or.inr (by omega)) hp

/-- The walk empties the hole when it meets the empty slot: what is left is a table again. -/
theorem Shifting.finish (w : Shifting hash t i₀ e k₀ f h s) (hi : t.Inv hash)
    (hi₀ : i₀ < t.capacity) (he : e < t.capacity) (hfe : f ((i₀ + e) % t.capacity) = none)
    (hse : s + 1 = e) (hocc : t.slots ((i₀ + h) % t.capacity) ≠ none) :
    let t' : Table K V :=
      { t with slots := Function.update f ((i₀ + h) % t.capacity) none, size := t.size - 1 }
    t'.Inv hash ∧ ∀ k v, t'.Mem k v ↔ t.Mem k v ∧ k ≠ k₀ := by
  intro t'
  have hpos := capacity_pos hi.pow
  have hle := w.hole_le
  have hne : ∀ {x}, x < t.capacity → x ≠ h → (i₀ + x) % t.capacity ≠ (i₀ + h) % t.capacity :=
    fun hx hxh heq => hxh (offset_inj hi₀ hx (by omega) heq)
  have hat : ∀ {x}, x < t.capacity → x ≠ h → t'.slots ((i₀ + x) % t.capacity) =
      f ((i₀ + x) % t.capacity) := fun hx hxh => Function.update_of_ne (hne hx hxh) _ _
  have hhole : t'.slots ((i₀ + h) % t.capacity) = none := Function.update_self _ _ _
  -- Slot numbers below the capacity are offsets, and an occupied one is not the hole.
  have hoff : ∀ {i}, i < t.capacity → ∀ {k v}, t'.slots i = some (k, v) →
      ∃ x < t.capacity, x ≠ h ∧ (i₀ + x) % t.capacity = i ∧
        f ((i₀ + x) % t.capacity) = some (k, v) := by
    intro i hic k v hiv
    obtain ⟨x, hx, rfl⟩ := exists_offset hi₀ hic
    have hxh : x ≠ h := by
      rintro rfl
      rw [hhole] at hiv
      cases hiv
    exact ⟨x, hx, hxh, rfl, by rwa [hat hx hxh] at hiv⟩
  refine ⟨⟨hi.pow, ?_, ?_, ?_⟩, ?_⟩
  · have hset : t'.occupied = t.occupied.erase ((i₀ + h) % t.capacity) := by
      ext i
      rw [Finset.mem_erase, mem_occupied, mem_occupied]
      by_cases hih : i = (i₀ + h) % t.capacity
      · subst hih
        simp [hhole]
      · have hti : t'.slots i = f i := Function.update_of_ne hih _ _
        constructor
        · rintro ⟨hic, hs⟩
          exact ⟨hih, hic, fun hn => hs (by rw [hti]; exact (w.occ i hic).2 hn)⟩
        · rintro ⟨-, hic, hs⟩
          exact ⟨hic, fun hn => hs ((w.occ i hic).1 (by rw [← hti]; exact hn))⟩
    rw [hset, Finset.card_erase_of_mem (by simp [hocc, Nat.mod_lt _ hpos]), hi.card]
  · intro i hic j hjc k v w' hiv hjw
    obtain ⟨x, hx, hxh, rfl, hxv⟩ := hoff hic hiv
    obtain ⟨y, hy, hyh, rfl, hyw⟩ := hoff hjc hjw
    rw [w.uniq x hx y hy hxh hyh k v w' hxv hyw]
  · intro i hic k v hiv
    obtain ⟨x, hx, hxh, rfl, hxv⟩ := hoff hic hiv
    obtain ⟨a, ha, hak, hpath⟩ := w.reach x hx hxh k v hxv
    have hxe : x ≤ s ∨ e < x := by
      rcases Nat.lt_trichotomy x e with hlt | rfl | hgt
      · exact Or.inl (by omega)
      · rw [hfe] at hxv
        cases hxv
      · exact Or.inr hgt
    show Reach t'.slots t.capacity (t.home hash k) _
    rw [hak, reach_iff hi₀ ha hx]
    intro y hy hp
    have hyh : y ≠ h := by
      rintro rfl
      exact w.path_avoids he hfe hxe hpath (by omega) (Or.inl rfl) hp
    rw [hat hy hyh]
    exact (hpath y hy hp).1
  · intro k v
    rw [← w.mem k v]
    constructor
    · rintro ⟨i, hic, hiv⟩
      obtain ⟨x, hx, hxh, -, hxv⟩ := hoff hic hiv
      exact ⟨x, hx, hxh, hxv⟩
    · rintro ⟨x, hx, hxh, hxv⟩
      exact ⟨_, Nat.mod_lt _ hpos, by rw [hat hx hxh]; exact hxv⟩

/-- **The rule for the walk**: it ends, and what holds of the slots and the hole at its start and
stays when an entry moves holds at its end. -/
theorem shiftLoop_walk (hi : t.Inv hash) (hi₀ : i₀ < t.capacity) (he : e < t.capacity)
    (hte : t.slots ((i₀ + e) % t.capacity) = none)
    (hocc : ∀ x < e, t.slots ((i₀ + x) % t.capacity) ≠ none)
    {Q : (Nat → Option (K × V)) → Nat → Prop}
    (hQ : ∀ {f h s k v a}, Shifting hash t i₀ e k₀ f h s → s + 1 < e →
      f ((i₀ + (s + 1)) % t.capacity) = some (k, v) → a < t.capacity →
      t.home hash k = (i₀ + a) % t.capacity → OnPath a (s + 1) h → Q f h →
      Q (Function.update f ((i₀ + h) % t.capacity) (some (k, v))) (s + 1)) :
    ∀ (fuel : Nat) (f : Nat → Option (K × V)) (h s : Nat), e ≤ s + fuel →
      Shifting hash t i₀ e k₀ f h s → Q f h →
      ∃ f' h' s', s' + 1 = e ∧ Shifting hash t i₀ e k₀ f' h' s' ∧ Q f' h' ∧
        t.shiftLoop hash fuel f ((i₀ + h) % t.capacity) ((i₀ + s) % t.capacity) =
          some (Function.update f' ((i₀ + h') % t.capacity) none) := by
  intro fuel
  induction fuel with
  | zero =>
    intro f h s hfuel w
    have := w.scan_lt
    omega
  | succ fuel ih =>
    intro f h s hfuel w hq
    have hle := w.hole_le
    have hpos := capacity_pos hi.pow
    have hfe : f ((i₀ + e) % t.capacity) = none := (w.occ _ (Nat.mod_lt _ hpos)).2 hte
    rw [shiftLoop, wrap_step hi.pow]
    rcases Nat.lt_or_ge (s + 1) e with hse | hse
    · cases hf : f ((i₀ + (s + 1)) % t.capacity) with
      | none => exact absurd ((w.occ _ (Nat.mod_lt _ hpos)).1 hf) (hocc _ hse)
      | some kv =>
        obtain ⟨k, v⟩ := kv
        obtain ⟨a, ha, hak, hpath⟩ := w.reach (s + 1) (by omega) (by omega) k v hf
        simp only [hak]
        by_cases hon : OnPath a (s + 1) h
        · rw [if_pos ((movesBack_iff hi₀ (by omega) (by omega) ha).2 hon)]
          exact ih _ _ _ (by omega)
            (w.move hi₀ he hfe hse hf ha hak (fun y hy hp => (hpath y hy hp).1) hon)
            (hQ w hse hf ha hak hon hq)
        · rw [if_neg (fun hb => hon ((movesBack_iff hi₀ (by omega) (by omega) ha).1 hb))]
          exact ih _ _ _ (by omega) (w.skip hse hf ha hi₀ hak hon) hq
    · have hse' : s + 1 = e := by have := w.scan_lt; omega
      rw [hse', hfe]
      exact ⟨f, h, s, hse', w, hq, rfl⟩

end Walk

/-- The deletion of a present key is such a walk, to the first empty slot behind it. -/
theorem erase_walk [DecidableEq K] (hi : t.Inv hash) (hfull : t.size < t.capacity) {k₀ : K} {v₀ : V}
    {i₀ : Nat} (hi₀ : i₀ < t.capacity) (hs : t.slots i₀ = some (k₀, v₀)) :
    ∃ e < t.capacity, t.slots ((i₀ + e) % t.capacity) = none ∧
      (∀ x < e, t.slots ((i₀ + x) % t.capacity) ≠ none) ∧
      ∀ Q : (Nat → Option (K × V)) → Nat → Prop,
        (∀ {f h s k v a}, Shifting hash t i₀ e k₀ f h s → s + 1 < e →
          f ((i₀ + (s + 1)) % t.capacity) = some (k, v) → a < t.capacity →
          t.home hash k = (i₀ + a) % t.capacity → OnPath a (s + 1) h → Q f h →
          Q (Function.update f ((i₀ + h) % t.capacity) (some (k, v))) (s + 1)) →
        Q t.slots 0 →
        ∃ f h s, s + 1 = e ∧ Shifting hash t i₀ e k₀ f h s ∧ Q f h ∧
          t.erase hash k₀ = some (true,
            { t with
              slots := Function.update f ((i₀ + h) % t.capacity) none
              size := t.size - 1 }) := by
  obtain ⟨e, he, hempty, hocc⟩ := exists_first_empty hi hfull hi₀
  refine ⟨e, he, hempty, hocc, fun Q hQ hstart => ?_⟩
  have he0 : 0 < e := by
    rcases Nat.eq_zero_or_pos e with rfl | h
    · rw [Nat.add_zero, Nat.mod_eq_of_lt hi₀, hs] at hempty
      cases hempty
    · exact h
  obtain ⟨f, h, s, hse, w, hq, hloop⟩ := shiftLoop_walk hi hi₀ he hempty hocc hQ t.capacity t.slots
    0 0 (by omega) (shifting_start hi hi₀ hs he0) hstart
  rw [Nat.add_zero, Nat.mod_eq_of_lt hi₀] at hloop
  refine ⟨f, h, s, hse, w, hq, ?_⟩
  simp [erase, probe_present hi hi₀ hs, hloop]

/-- **Deleting a present key** from a table that is not full ends and removes just that entry. -/
theorem erase_present [DecidableEq K] (hi : t.Inv hash) (hfull : t.size < t.capacity) {k : K}
    {v : V} (hmem : t.Mem k v) :
    ∃ t', t.erase hash k = some (true, t') ∧ t'.Inv hash ∧ t'.capacity = t.capacity ∧
      t'.size = t.size - 1 ∧ ∀ k' v', t'.Mem k' v' ↔ t.Mem k' v' ∧ k' ≠ k := by
  obtain ⟨i, hic, hiv⟩ := hmem
  obtain ⟨e, he, hempty, hocc, hwalk⟩ := erase_walk hi hfull hic hiv
  obtain ⟨f, h, s, hse, w, -, herase⟩ := hwalk (fun _ _ => True) (fun _ _ _ _ _ _ _ => trivial)
    trivial
  have hpos := capacity_pos hi.pow
  have hle := w.hole_le
  obtain ⟨hinv, hmem'⟩ := w.finish hi hic he ((w.occ _ (Nat.mod_lt _ hpos)).2 hempty) hse
    (hocc h (by omega))
  exact ⟨_, herase, hinv, rfl, rfl, hmem'⟩

end Lemmas

end Table

end Velox.Probing
