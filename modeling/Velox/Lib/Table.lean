import Mathlib

/-!
# Tables that keep the first row of a key

A table is a list of rows with a key. A row whose key is taken is not inserted, and nobody is told:
`INSERT … ON CONFLICT DO NOTHING`. Rows are often numbered one after the other, and the number is
then part of the key. A query groups rows by a key and adds up a column, or joins the rows of two
tables.
-/

namespace Velox

/-- What holds of the elements of a list and their places, with one more behind them. -/
theorem forall_getElem?_concat {α : Type} {xs : List α} {x : α} {P : Nat → α → Prop} :
    (∀ i e, (xs ++ [x])[i]? = some e → P i e) ↔ (∀ i e, xs[i]? = some e → P i e) ∧ P xs.length x := by
  constructor
  · intro h
    refine ⟨fun i e he => h i e ?_, h _ x List.getElem?_concat_length⟩
    rwa [List.getElem?_append_left (List.getElem?_eq_some_iff.1 he).1]
  · rintro ⟨h, hx⟩ i e he
    rcases Nat.lt_trichotomy i xs.length with hi | rfl | hi
    · exact h i e (by rwa [List.getElem?_append_left hi] at he)
    · rw [List.getElem?_concat_length] at he
      exact Option.some.inj he ▸ hx
    · rw [List.getElem?_eq_none (by rw [List.length_append]; exact hi)] at he
      cases he

namespace Table

variable {R K : Type} [DecidableEq K] (key : R → K)

def insertRow (rows : List R) (r : R) : List R :=
  if key r ∈ rows.map key then rows else rows ++ [r]

def insertAll (rows rs : List R) : List R := rs.foldl (insertRow key) rows

theorem insertAll_append (rows rs rs' : List R) :
    insertAll key rows (rs ++ rs') = insertAll key (insertAll key rows rs) rs' :=
  List.foldl_append

variable {key}

/-- Rows with keys of their own are all inserted. -/
theorem insertAll_fresh {rows rs : List R} (hn : (rs.map key).Nodup)
    (h : ∀ r ∈ rs, key r ∉ rows.map key) : insertAll key rows rs = rows ++ rs := by
  induction rs generalizing rows with
  | nil => exact (List.append_nil _).symm
  | cons r rs ih =>
    obtain ⟨hr, hn⟩ := List.nodup_cons.1 hn
    have hone : insertRow key rows r = rows ++ [r] := if_neg (h r List.mem_cons_self)
    have hrest : ∀ r' ∈ rs, key r' ∉ (rows ++ [r]).map key := by
      intro r' hr' hmem
      rw [List.map_append, List.mem_append] at hmem
      rcases hmem with hmem | hmem
      · exact h r' (List.mem_cons_of_mem _ hr') hmem
      · rw [List.map_singleton, List.mem_singleton] at hmem
        exact hr (hmem ▸ List.mem_map_of_mem hr')
    rw [insertAll, List.foldl_cons, hone, ← insertAll, ih hn hrest, List.append_assoc,
      List.singleton_append]

/-- Rows whose keys are taken are dropped. -/
theorem insertAll_taken {rows rs : List R} (h : ∀ r ∈ rs, key r ∈ rows.map key) :
    insertAll key rows rs = rows := by
  induction rs with
  | nil => rfl
  | cons r rs ih =>
    have hone : insertRow key rows r = rows := if_pos (h r List.mem_cons_self)
    rw [insertAll, List.foldl_cons, hone, ← insertAll]
    exact ih fun r' hr' => h r' (List.mem_cons_of_mem _ hr')

/-- Rows of other keys do not matter to those that are looked at. -/
theorem filter_insertRow {p : R → Bool} (hp : ∀ r r', key r = key r' → p r = p r')
    (rows : List R) (r : R) : (insertRow key rows r).filter p =
      if p r then insertRow key (rows.filter p) r else rows.filter p := by
  have hmem : p r = true → (key r ∈ (rows.filter p).map key ↔ key r ∈ rows.map key) := by
    intro hr
    constructor
    · exact fun h => (List.filter_sublist.map key).mem h
    · intro h
      obtain ⟨r', hr', hkey⟩ := List.mem_map.1 h
      exact List.mem_map.2 ⟨r', List.mem_filter.2 ⟨hr', (hp r' r hkey).trans hr⟩, hkey⟩
  rw [insertRow, insertRow]
  by_cases hr : p r = true
  · rw [if_pos hr, ite_cond_congr (propext (hmem hr))]
    split_ifs
    · rfl
    · rw [List.filter_append, List.filter_cons_of_pos hr, List.filter_nil]
  · rw [if_neg hr]
    split_ifs
    · rfl
    · rw [List.filter_append, List.filter_cons_of_neg hr, List.filter_nil, List.append_nil]

theorem filter_insertAll {p : R → Bool} (hp : ∀ r r', key r = key r' → p r = p r')
    (rows rs : List R) :
    (insertAll key rows rs).filter p = insertAll key (rows.filter p) (rs.filter p) := by
  induction rs generalizing rows with
  | nil => rfl
  | cons r rs ih =>
    rw [insertAll, List.foldl_cons, ← insertAll, ih, filter_insertRow hp]
    split_ifs with hr
    · rw [List.filter_cons_of_pos hr]
      rfl
    · rw [List.filter_cons_of_neg hr]

/-! ## Rows with consecutive numbers -/

/-- The rows have the numbers from `first` on. -/
def Numbered (num : R → Int) (first : Int) (rs : List R) : Prop :=
  ∀ (i : Nat) r, rs[i]? = some r → num r = first + i

section Numbered

variable {num : R → Int} {first : Int} {rs rs' : List R}

theorem Numbered.nil : Numbered num first [] := fun _ _ h => nomatch h

theorem Numbered.append (h : Numbered num first rs) (h' : Numbered num (first + rs.length) rs') :
    Numbered num first (rs ++ rs') := by
  intro i r hr
  rcases Nat.lt_or_ge i rs.length with hi | hi
  · rw [List.getElem?_append_left hi] at hr
    exact h i r hr
  · rw [List.getElem?_append_right hi] at hr
    have hnum := h' _ r hr
    omega

theorem numbered_append : Numbered num first (rs ++ rs') ↔
    Numbered num first rs ∧ Numbered num (first + rs.length) rs' := by
  refine ⟨fun h => ⟨fun i r hr => h i r ?_, fun i r hr => ?_⟩, fun h => h.1.append h.2⟩
  · rwa [List.getElem?_append_left (List.getElem?_eq_some_iff.1 hr).1]
  · have hnum := h (rs.length + i) r (by
      rwa [List.getElem?_append_right (Nat.le_add_right ..), Nat.add_sub_cancel_left])
    omega

theorem numbered_cons {r : R} : Numbered num first (r :: rs) ↔
    num r = first ∧ Numbered num (first + 1) rs := by
  have happend : Numbered num first ([r] ++ rs) ↔ _ := numbered_append
  refine happend.trans (and_congr_left' ⟨fun h => ?_, fun h i x hx => ?_⟩)
  · simpa using h 0 r rfl
  · obtain ⟨rfl, rfl⟩ : i = 0 ∧ r = x := by simpa [List.getElem?_singleton] using hx
    simpa using h

theorem Numbered.drop (h : Numbered num first rs) (n : Nat) :
    Numbered num (first + n) (rs.drop n) := by
  intro i r hr
  rw [List.getElem?_drop] at hr
  have hnum := h _ r hr
  omega

theorem Numbered.take (h : Numbered num first rs) (n : Nat) : Numbered num first (rs.take n) := by
  intro i r hr
  rw [List.getElem?_take] at hr
  split at hr
  · exact h i r hr
  · cases hr

theorem Numbered.bounds (h : Numbered num first rs) {r : R} (hr : r ∈ rs) :
    first ≤ num r ∧ num r < first + rs.length := by
  obtain ⟨i, hi⟩ := List.mem_iff_getElem?.1 hr
  have hlt : i < rs.length := (List.getElem?_eq_some_iff.1 hi).1
  have hnum := h i r hi
  omega

theorem Numbered.exists_mem (h : Numbered num first rs) {n : Int} (hfirst : first ≤ n)
    (hlast : n < first + rs.length) : ∃ r ∈ rs, num r = n := by
  obtain ⟨i, rfl⟩ := Int.le.dest hfirst
  have hi : i < rs.length := by omega
  exact ⟨rs[i], List.getElem_mem hi, h i _ (List.getElem?_eq_getElem hi)⟩

theorem Numbered.sorted (h : Numbered num first rs) : rs.Pairwise fun r r' => num r < num r' := by
  rw [List.pairwise_iff_getElem]
  intro i j hi hj hij
  rw [h i _ (List.getElem?_eq_getElem hi), h j _ (List.getElem?_eq_getElem hj)]
  omega

/-- Rows with consecutive numbers are known by their members. -/
theorem Numbered.eq_of_mem_iff (h : Numbered num first rs) (h' : Numbered num first rs')
    (hmem : ∀ r, r ∈ rs ↔ r ∈ rs') : rs = rs' := by
  have : Std.Irrefl fun r r' : R => num r < num r' := ⟨fun _ => lt_irrefl _⟩
  have : Std.Antisymm fun r r' : R => num r < num r' := ⟨fun _ _ hlt hgt => absurd hgt hlt.asymm⟩
  exact h.sorted.eq_of_mem_iff h'.sorted fun {r} => hmem r

end Numbered

section Keys

variable {S : Type} [DecidableEq S] {key : R → S × Int} {s : S} {first : Int} {rows rs : List R}

/-- Rows whose numbers follow all those that the table has for `s` are all inserted. -/
theorem insertAll_numbered (h : Numbered (fun r => (key r).2) first rs)
    (hs : ∀ r ∈ rs, (key r).1 = s) (hrows : ∀ r ∈ rows, (key r).1 = s → (key r).2 < first) :
    insertAll key rows rs = rows ++ rs := by
  apply insertAll_fresh
  · rw [List.Nodup, List.pairwise_map]
    exact h.sorted.imp fun hlt heq => hlt.ne (congrArg Prod.snd heq)
  · intro r hr hmem
    obtain ⟨r', hr', hkey⟩ := List.mem_map.1 hmem
    have hlt := hrows r' hr' ((congrArg Prod.fst hkey).trans (hs r hr))
    rw [hkey] at hlt
    exact (h.bounds hr).1.not_gt hlt

/-- Of rows whose first numbers are taken, the others are inserted. -/
theorem insertAll_overlapping {taken : List R} (htaken : Numbered (fun r => (key r).2) first taken)
    (h : Numbered (fun r => (key r).2) first rs) (hts : ∀ r ∈ taken, (key r).1 = s)
    (hs : ∀ r ∈ rs, (key r).1 = s) (hrows : ∀ r ∈ rows, (key r).1 ≠ s) :
    insertAll key (rows ++ taken) rs = rows ++ taken ++ rs.drop taken.length := by
  have hfirst : insertAll key (rows ++ taken) (rs.take taken.length) = rows ++ taken := by
    apply insertAll_taken
    intro r hr
    obtain ⟨hlow, hhigh⟩ := (h.take taken.length).bounds hr
    have hlen : (rs.take taken.length).length ≤ taken.length := List.length_take_le ..
    obtain ⟨r', hr', hnum⟩ := htaken.exists_mem hlow (by omega)
    have hkey : key r' = key r :=
      Prod.ext ((hts r' hr').trans (hs r (List.mem_of_mem_take hr)).symm) hnum
    exact List.mem_map.2 ⟨r', List.mem_append_right _ hr', hkey⟩
  calc insertAll key (rows ++ taken) rs
    _ = insertAll key (rows ++ taken) (rs.take taken.length ++ rs.drop taken.length) := by
      rw [List.take_append_drop]
    _ = insertAll key (rows ++ taken) (rs.drop taken.length) := by rw [insertAll_append, hfirst]
    _ = rows ++ taken ++ rs.drop taken.length := by
      apply insertAll_numbered (h.drop taken.length) fun r hr => hs r (List.mem_of_mem_drop hr)
      intro r hr hshard
      rcases List.mem_append.1 hr with hr | hr
      · exact absurd hshard (hrows r hr)
      · exact (htaken.bounds hr).2

/-- A window of rows that begins no later than the table ends. -/
theorem insertAll_window {all : List R} {k m n : Nat} (h : Numbered (fun r => (key r).2) first all)
    (hs : ∀ r ∈ all, (key r).1 = s) (hk : k ≤ m) :
    insertAll key (all.take m) ((all.take n).drop k) = all.take (max m n) := by
  have htaken : ∀ r ∈ ((all.take n).drop k).take (m - k), key r ∈ (all.take m).map key := by
    intro r hr
    rw [← List.drop_take, List.take_take] at hr
    exact List.mem_map_of_mem ((List.take_prefix_take_left (Nat.min_le_left ..)).mem
      (List.mem_of_mem_drop hr))
  have hsplit : (all.take n).drop k = ((all.take n).drop k).take (m - k) ++ (all.take n).drop m := by
    conv_lhs => rw [← List.take_append_drop (m - k) ((all.take n).drop k)]
    rw [List.drop_drop, Nat.add_sub_cancel' hk]
  rw [hsplit, insertAll_append, insertAll_taken htaken]
  rcases Nat.le_total n m with hle | hle
  · rw [List.drop_eq_nil_of_le ((List.length_take_le ..).trans hle), Nat.max_eq_left hle]
    rfl
  · rw [Nat.max_eq_right hle, insertAll_numbered ((h.take n).drop m)
      (fun r hr => hs r (List.mem_of_mem_take (List.mem_of_mem_drop hr)))]
    · conv_rhs => rw [← List.take_append_drop m (all.take n), List.take_take, Nat.min_eq_left hle]
    · intro r hr _
      have hlt := ((h.take m).bounds hr).2
      have hlen := List.length_take_le m all
      omega

end Keys

/-! ## Queries -/

section Queries

variable {S : Type} {key : R → K} {val : R → Int}

/-- `SELECT key, SUM(val) … GROUP BY key` -/
def groupSum (key : R → K) (val : R → Int) (rows : List R) : List (K × Int) :=
  (rows.map key).dedup.map fun k => (k, ((rows.filter fun r => decide (key r = k)).map val).sum)

/-- `rows LEFT JOIN others ON key = key'`: a row without a partner is kept alone. -/
def leftJoin (key : R → K) (key' : S → K) (rows : List R) (others : List S) :
    List (R × Option S) :=
  rows.flatMap fun r =>
    match others.filter fun s => decide (key' s = key r) with
    | [] => [(r, none)]
    | partners => partners.map fun s => (r, some s)

theorem groupSum_keys (key : R → K) (val : R → Int) (rows : List R) :
    (groupSum key val rows).map Prod.fst = (rows.map key).dedup := by
  rw [groupSum, List.map_map]
  exact List.map_id _

theorem groupSum_nodup (key : R → K) (val : R → Int) (rows : List R) :
    ((groupSum key val rows).map Prod.fst).Nodup := by
  rw [groupSum_keys]
  exact List.nodup_dedup _

/-- In a table in which no key occurs twice, a key finds one row at most. -/
theorem filter_eq_find {rows : List R} (hn : (rows.map key).Nodup) (k : K) :
    rows.filter (fun r => decide (key r = k)) =
      (rows.find? fun r => decide (key r = k)).toList := by
  induction rows with
  | nil => rfl
  | cons r rows ih =>
    obtain ⟨hr, hn⟩ := List.nodup_cons.1 hn
    by_cases hk : key r = k
    · have hnone : rows.filter (fun r => decide (key r = k)) = [] := by
        rw [List.filter_eq_nil_iff]
        intro r' hr' hkey
        exact hr (List.mem_map.2 ⟨r', hr', (of_decide_eq_true hkey).trans hk.symm⟩)
      rw [List.filter_cons_of_pos (by simpa using hk), List.find?_cons_of_pos (by simpa using hk),
        hnone]
      rfl
    · rw [List.filter_cons_of_neg (by simpa using hk), List.find?_cons_of_neg (by simpa using hk)]
      exact ih hn

/-- The sum of a group, also if there is none. -/
theorem sum_groupSum (key : R → K) (val : R → Int) (rows : List R) (k : K) :
    (((groupSum key val rows).filter fun g => decide (g.1 = k)).map Prod.snd).sum =
      ((rows.filter fun r => decide (key r = k)).map val).sum := by
  rw [filter_eq_find (groupSum_nodup key val rows)]
  cases hfind : (groupSum key val rows).find? fun g => decide (g.1 = k) with
  | none =>
    have hnone : (rows.filter fun r => decide (key r = k)) = [] := by
      rw [List.filter_eq_nil_iff]
      intro r hr hkey
      have hmem : key r ∈ (groupSum key val rows).map Prod.fst := by
        rw [groupSum_keys, List.mem_dedup]
        exact List.mem_map_of_mem hr
      obtain ⟨g, hg, hgkey⟩ := List.mem_map.1 hmem
      exact List.find?_eq_none.1 hfind g hg
        (decide_eq_true (hgkey.trans (of_decide_eq_true hkey)))
    rw [hnone]
    rfl
  | some g =>
    have hk := List.find?_some hfind
    obtain ⟨k', -, rfl⟩ := List.mem_map.1 (List.mem_of_find?_eq_some hfind)
    obtain rfl : k' = k := of_decide_eq_true hk
    exact add_zero _

/-- A join with a table in which no key occurs twice looks the partner up. -/
theorem leftJoin_eq {key' : S → K} {others : List S} (hn : (others.map key').Nodup)
    (key : R → K) (rows : List R) : leftJoin key key' rows others =
      rows.map fun r => (r, others.find? fun s => decide (key' s = key r)) := by
  rw [leftJoin, ← List.flatMap_singleton' (rows.map _), List.flatMap_map]
  congr 1
  funext r
  rw [filter_eq_find hn]
  cases others.find? fun s => decide (key' s = key r) <;> rfl

end Queries

end Table

end Velox
