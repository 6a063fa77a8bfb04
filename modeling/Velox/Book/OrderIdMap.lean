import Velox.Lib.ProbingOrder
import Velox.Engine.Represents

/-!
# The id map over a run of calls

The map from order ids to orders (`book/order_id_map.hpp`) is the table of `Lib.Probing` with the
Fibonacci hash. What it is for is said by `Entries`: the entries that are there, in the order in
which they were inserted. Over every run of calls that keeps at most `maxOrders` entries the table
answers as the entries do, and it is at every moment the table that results from inserting the
entries there are into an empty one (`run_replays`).
-/

namespace Velox.OrderIdMap

open Probing Probing.Table

/-- A call that changes the map. -/
inductive Op where
  | insert (id : Int) (o : Ptr)
  | erase (id : Int)

/-- The map of a book for at most `maxOrders` orders, which has a pool of that many. -/
def create (maxOrders : Nat) : OrderIdMap := empty (nextPowerOfTwo (maxOrders * 2))

/-- One call; `none` if it does not return. -/
def call (t : OrderIdMap) : Op → Option (Bool × OrderIdMap)
  | .insert id o => some (t.insert idHash id o)
  | .erase id => t.erase idHash id

/-- The calls one after another, with what they return. -/
def run (t : OrderIdMap) : List Op → Option (List Bool × OrderIdMap)
  | [] => some ([], t)
  | op :: ops => do
    let (answer, t) ← call t op
    let (answers, t) ← run t ops
    some (answer :: answers, t)

/-! ## What the calls mean -/

/-- The entries of a finite map, in the order in which they were inserted. -/
abbrev Entries := List (Int × Ptr)

def Entries.Has (es : Entries) (id : Int) : Prop := id ∈ es.map Prod.fst

instance (es : Entries) (id : Int) : Decidable (es.Has id) :=
  inferInstanceAs (Decidable (id ∈ es.map Prod.fst))

/-- The entries after a call. -/
def Entries.after (es : Entries) : Op → Entries
  | .insert id o => if es.Has id then es else es ++ [(id, o)]
  | .erase id => es.filter fun e => decide (e.1 ≠ id)

/-- Inserting fails just for a key that is there, and erasing for one that is not. -/
def Entries.answer (es : Entries) : Op → Bool
  | .insert id _ => !decide (es.Has id)
  | .erase id => decide (es.Has id)

/-- The entries that are left after a run. -/
def Entries.survivors (es : Entries) (ops : List Op) : Entries := ops.foldl Entries.after es

def Entries.answers (es : Entries) : List Op → List Bool
  | [] => []
  | op :: ops => es.answer op :: (es.after op).answers ops

/-! ## The table follows -/

variable {t : OrderIdMap} {es : Entries}

theorem Entries.Has.exists {id : Int} (h : es.Has id) : ∃ o, (id, o) ∈ es := by
  obtain ⟨e, he, heq⟩ := List.mem_map.1 h
  exact ⟨e.2, heq ▸ he⟩

theorem Entries.after_erase_absent {id : Int} (h : ¬ es.Has id) : es.after (.erase id) = es :=
  List.filter_eq_self.2 fun e he => decide_eq_true fun heq => h (List.mem_map.2 ⟨e, he, heq⟩)

/-- One call. -/
theorem call_ranked (h : t.Ranked idHash es) (hfull : t.size < t.capacity) (op : Op) :
    ∃ t', call t op = some (es.answer op, t') ∧ t'.capacity = t.capacity ∧
      t'.Ranked idHash (es.after op) := by
  cases op with
  | insert id o =>
    by_cases hid : es.Has id
    · obtain ⟨o', hmem⟩ := hid.exists
      refine ⟨t, ?_, rfl, ?_⟩
      · rw [call, insert_dup h.inv ((h.mem _ _).2 hmem)]
        simp [Entries.answer, hid]
      · rw [Entries.after, if_pos hid]
        exact h
    · obtain ⟨t', hins, hcap, hr⟩ := h.insert hfull hid o
      refine ⟨t', ?_, hcap, ?_⟩
      · rw [call, hins]
        simp [Entries.answer, hid]
      · rw [Entries.after, if_neg hid]
        exact hr
  | erase id =>
    by_cases hid : es.Has id
    · obtain ⟨o, hmem⟩ := hid.exists
      obtain ⟨t', herase, hcap, hr⟩ := h.erase hfull hmem
      refine ⟨t', ?_, hcap, hr⟩
      rw [call, herase]
      simp [Entries.answer, hid]
    · refine ⟨t, ?_, rfl, ?_⟩
      · rw [call, h.erase_absent hfull hid]
        simp [Entries.answer, hid]
      · rw [Entries.after_erase_absent hid]
        exact h

/-- A run, as long as the table is never full. -/
theorem run_ranked (maxOrders : Nat) : ∀ (ops : List Op) (t : OrderIdMap) (es : Entries),
    t.Ranked idHash es → maxOrders < t.capacity →
    (∀ pre, pre <+: ops → (es.survivors pre).length ≤ maxOrders) →
    ∃ t', run t ops = some (es.answers ops, t') ∧ t'.capacity = t.capacity ∧
      t'.Ranked idHash (es.survivors ops) := by
  intro ops
  induction ops with
  | nil => exact fun t es h _ _ => ⟨t, rfl, rfl, h⟩
  | cons op ops ih =>
    intro t es h hcap hroom
    have hlen : es.length ≤ maxOrders := hroom [] List.nil_prefix
    obtain ⟨t₁, hcall, hcap₁, h₁⟩ := call_ranked h (by rw [h.size]; omega) op
    obtain ⟨t₂, hrun, hcap₂, h₂⟩ := ih t₁ (es.after op) h₁ (by omega) fun pre hpre =>
      hroom (op :: pre) (List.cons_prefix_cons.2 ⟨rfl, hpre⟩)
    refine ⟨t₂, ?_, hcap₂.trans hcap₁, h₂⟩
    rw [run, hcall]
    simp only [Option.bind_eq_bind, Option.bind_some, hrun, Entries.answers]

/-- **The map has no history.** Over every run of calls that keeps at most `maxOrders` entries, all
calls return and answer as those of a finite map; lookup is that map's; and the table is the one
that results from inserting the surviving entries, in the order of their insertion, into an empty
table. -/
theorem run_replays (maxOrders : Nat) (ops : List Op)
    (hroom : ∀ pre, pre <+: ops → (Entries.survivors [] pre).length ≤ maxOrders) :
    ∃ t, run (create maxOrders) ops = some (Entries.answers [] ops, t) ∧
      (∀ id o, t.find idHash id = some o ↔ (id, o) ∈ Entries.survivors [] ops) ∧
      t = replay idHash (nextPowerOfTwo (maxOrders * 2)) (Entries.survivors [] ops) := by
  obtain ⟨⟨n, hn⟩, hle⟩ := OrderBook.nextPowerOfTwo_spec (maxOrders * 2)
  have hpos : 0 < 2 ^ n := Nat.two_pow_pos n
  have hempty : (create maxOrders).Ranked idHash [] := by
    rw [create, hn]
    exact ranked_empty idHash n
  have hcap : (create maxOrders).capacity = 2 ^ n := hn
  obtain ⟨t, hrun, hcap', hr⟩ := run_ranked maxOrders ops _ _ hempty (by omega) hroom
  have hlen : (Entries.survivors [] ops).length ≤ maxOrders := hroom ops List.prefix_rfl
  have hfull : t.size < t.capacity := by
    rw [hr.size]
    omega
  refine ⟨t, hrun, fun id o => ?_, ?_⟩
  · rw [find_iff hr.inv hfull, hr.mem]
  · rw [hn]
    exact hr.eq_replay (hcap'.trans hcap) hfull

/-- Two orders rest, the first leaves and its id comes back, twice. -/
def churn : List Op := [.insert 1 10, .insert 2 20, .erase 1, .insert 1 11, .insert 1 12]

theorem run_replays_churn :
    (∀ pre, pre <+: churn → (Entries.survivors [] pre).length ≤ 2) ∧
      ∃ t, run (create 2) churn = some ([true, true, true, true, false], t) ∧
        t.find idHash 1 = some 11 ∧ t = replay idHash 4 [(2, 20), (1, 11)] := by
  have hroom : ∀ pre, pre <+: churn → (Entries.survivors [] pre).length ≤ 2 := by
    have hall : ∀ pre ∈ churn.inits, (Entries.survivors [] pre).length ≤ 2 := by decide
    exact fun pre hpre => hall pre ((List.mem_inits _ _).2 hpre)
  obtain ⟨t, hrun, hfind, hreplay⟩ := run_replays 2 churn hroom
  exact ⟨hroom, t, hrun, (hfind 1 11).2 (by decide), hreplay⟩

end Velox.OrderIdMap
