import Mathlib.Tactic

/-!
# Finite maps in key order

A finite map as the list of its entries, with the keys strictly increasing, so that going over
the map in the order of its keys is reading the list. The lemmas are about lookup (`find`) and
about the sublist of the entries whose keys satisfy a predicate (`list`).

`eq_of_sorted_of_filter` is the fact behind every comparison of two such listings: two lists that
are sorted by a key and hold, for each key, the same elements in the same order are equal.
-/

namespace Velox

theorem mem_iff_of_filter {α K : Type} [DecidableEq K] {key : α → K} {xs ys : List α}
    (h : ∀ k, xs.filter (fun a => key a = k) = ys.filter fun a => key a = k) (a : α) :
    a ∈ xs ↔ a ∈ ys := by
  have hmem : ∀ zs : List α, a ∈ zs ↔ a ∈ zs.filter fun b => key b = key a := by simp
  rw [hmem xs, hmem ys, h]

/-- Two lists in key order, with the same elements in the same order under each key, are equal. -/
theorem eq_of_sorted_of_filter {α K : Type} [LinearOrder K] {key : α → K} {xs ys : List α}
    (hx : xs.Pairwise fun a b => key a ≤ key b) (hy : ys.Pairwise fun a b => key a ≤ key b)
    (h : ∀ k, xs.filter (fun a => key a = k) = ys.filter fun a => key a = k) : xs = ys := by
  have hmem := mem_iff_of_filter h
  induction xs generalizing ys with
  | nil => exact (List.eq_nil_iff_forall_not_mem.2 fun a ha => by simpa using (hmem a).2 ha).symm
  | cons x xs ih =>
    cases ys with
    | nil => exact absurd ((hmem x).1 List.mem_cons_self) List.not_mem_nil
    | cons y ys =>
      obtain ⟨hxlt, hxs⟩ := List.pairwise_cons.1 hx
      obtain ⟨hylt, hys⟩ := List.pairwise_cons.1 hy
      -- The heads have the least key of either list.
      have hle : ∀ a ∈ x :: xs, key x ≤ key a := by
        intro a ha
        rcases List.mem_cons.1 ha with rfl | ha
        · exact le_rfl
        · exact hxlt a ha
      have hle' : ∀ a ∈ y :: ys, key y ≤ key a := by
        intro a ha
        rcases List.mem_cons.1 ha with rfl | ha
        · exact le_rfl
        · exact hylt a ha
      have hkey : key x = key y :=
        le_antisymm (hle y ((hmem y).2 List.mem_cons_self)) (hle' x ((hmem x).1 List.mem_cons_self))
      have hhead := h (key x)
      rw [List.filter_cons_of_pos (by simp), List.filter_cons_of_pos (by simp [hkey]),
        List.cons.injEq] at hhead
      obtain ⟨rfl, hrest⟩ := hhead
      have htail : ∀ k, xs.filter (fun a => key a = k) = ys.filter fun a => key a = k := by
        intro k
        have hk := h k
        by_cases hxk : key x = k
        · rw [← hxk]
          exact hrest
        · rwa [List.filter_cons_of_neg (by simpa using hxk),
            List.filter_cons_of_neg (by simpa using hxk)] at hk
      rw [ih hxs hys htail (mem_iff_of_filter htail)]

/-- A finite map from keys to values. -/
structure SortedMap (K V : Type) [LinearOrder K] where
  entries : List (K × V)
  sorted : entries.Pairwise fun a b => a.1 < b.1

namespace SortedMap

variable {K V : Type} [LinearOrder K]

def empty : SortedMap K V := ⟨[], .nil⟩

def find (m : SortedMap K V) (k : K) : Option V := (m.entries.find? (·.1 = k)).map Prod.snd

def size (m : SortedMap K V) : Nat := m.entries.length

def putEntry (k : K) (v : V) : List (K × V) → List (K × V)
  | [] => [(k, v)]
  | e :: es =>
    if k < e.1 then (k, v) :: e :: es
    else if k = e.1 then (k, v) :: es
    else e :: putEntry k v es

theorem mem_putEntry {k : K} {v : V} {es : List (K × V)} (hs : es.Pairwise fun a b => a.1 < b.1)
    {x : K × V} : x ∈ putEntry k v es ↔ x = (k, v) ∨ x ∈ es ∧ x.1 ≠ k := by
  induction es with
  | nil => simp [putEntry]
  | cons e es ih =>
    obtain ⟨hlt, hs'⟩ := List.pairwise_cons.1 hs
    have hmem : ∀ y ∈ es, e.1 < y.1 := hlt
    rw [putEntry]
    split
    · next hk =>
      have hne : ∀ y ∈ e :: es, y.1 ≠ k := by
        intro y hy
        rcases List.mem_cons.1 hy with rfl | hy
        · exact hk.ne'
        · exact (hk.trans (hmem y hy)).ne'
      rw [List.mem_cons]
      exact or_congr_right ⟨fun h => ⟨h, hne x h⟩, And.left⟩
    · split
      · next hk =>
        subst hk
        have hne : ∀ y ∈ es, y.1 ≠ e.1 := fun y hy => (hmem y hy).ne'
        rw [List.mem_cons, List.mem_cons]
        refine or_congr_right ⟨fun h => ⟨Or.inr h, hne x h⟩, ?_⟩
        rintro ⟨rfl | h, hx⟩
        · exact absurd rfl hx
        · exact h
      · next hk =>
        rw [List.mem_cons, ih hs', List.mem_cons]
        constructor
        · rintro (rfl | h | ⟨h, hx⟩)
          · exact Or.inr ⟨Or.inl rfl, fun h => hk h.symm⟩
          · exact Or.inl h
          · exact Or.inr ⟨Or.inr h, hx⟩
        · rintro (h | ⟨rfl | h, hx⟩)
          · exact Or.inr (Or.inl h)
          · exact Or.inl rfl
          · exact Or.inr (Or.inr ⟨h, hx⟩)

theorem sorted_putEntry {k : K} {v : V} {es : List (K × V)}
    (hs : es.Pairwise fun a b => a.1 < b.1) : (putEntry k v es).Pairwise fun a b => a.1 < b.1 := by
  induction es with
  | nil => exact List.pairwise_singleton ..
  | cons e es ih =>
    obtain ⟨hlt, hs'⟩ := List.pairwise_cons.1 hs
    rw [putEntry]
    split
    · next hk =>
      refine List.pairwise_cons.2 ⟨fun y hy => ?_, hs⟩
      rcases List.mem_cons.1 hy with rfl | hy
      · exact hk
      · exact hk.trans (hlt y hy)
    · split
      · next hk =>
        subst hk
        exact List.pairwise_cons.2 ⟨hlt, hs'⟩
      · next hk hne =>
        refine List.pairwise_cons.2 ⟨fun y hy => ?_, ih hs'⟩
        rcases (mem_putEntry hs').1 hy with rfl | ⟨hy, -⟩
        · exact lt_of_le_of_ne (not_lt.1 hk) fun h => hne h.symm
        · exact hlt y hy

/-- Add the entry, or replace what is there under this key. -/
def put (m : SortedMap K V) (k : K) (v : V) : SortedMap K V :=
  ⟨putEntry k v m.entries, sorted_putEntry m.sorted⟩

def erase (m : SortedMap K V) (k : K) : SortedMap K V :=
  ⟨m.entries.filter (·.1 ≠ k), m.sorted.filter _⟩

/-- Change the value of this key, if there is one. -/
def modify (m : SortedMap K V) (k : K) (g : V → V) : SortedMap K V :=
  match m.find k with
  | none => m
  | some v => m.put k (g v)

/-- Change all values. -/
def mapValues (m : SortedMap K V) (g : K → V → V) : SortedMap K V :=
  ⟨m.entries.map fun e => (e.1, g e.1 e.2), by
    rw [List.pairwise_map]
    exact m.sorted⟩

/-- The entries whose keys satisfy `p`, in key order. -/
def list (m : SortedMap K V) (p : K → Bool) : List (K × V) := m.entries.filter fun e => p e.1

section Find

variable {m : SortedMap K V} {k : K} {v : V}

/-- Two entries of one key are the same entry. -/
theorem eq_of_key_eq {x y : K × V} (hx : x ∈ m.entries) (hy : y ∈ m.entries) (h : x.1 = y.1) :
    x = y :=
  List.inj_on_of_nodup_map (List.pairwise_map.2 (m.sorted.imp ne_of_lt)) hx hy h

theorem find_eq_some : m.find k = some v ↔ (k, v) ∈ m.entries := by
  rw [find, Option.map_eq_some_iff]
  constructor
  · rintro ⟨e, he, rfl⟩
    have hk : e.1 = k := by simpa using List.find?_some he
    have hmem := List.mem_of_find?_eq_some he
    rwa [← hk]
  · intro hmem
    obtain ⟨e, he⟩ : ∃ e, m.entries.find? (·.1 = k) = some e :=
      Option.isSome_iff_exists.1 (List.find?_isSome.2 ⟨(k, v), hmem, by simp⟩)
    have hk : e.1 = k := by simpa using List.find?_some he
    exact ⟨e, he, congrArg Prod.snd (eq_of_key_eq (List.mem_of_find?_eq_some he) hmem hk)⟩

theorem find_congr {m' : SortedMap K V} (h : ∀ v, (k, v) ∈ m.entries ↔ (k, v) ∈ m'.entries) :
    m.find k = m'.find k := by
  ext v
  rw [find_eq_some, find_eq_some, h]

@[simp] theorem find_empty (k : K) : (empty : SortedMap K V).find k = none := rfl

theorem find_put (m : SortedMap K V) (k l : K) (v : V) :
    (m.put k v).find l = if l = k then some v else m.find l := by
  split
  · next h =>
    rw [find_eq_some, h]
    exact (mem_putEntry m.sorted).2 (Or.inl rfl)
  · next h =>
    refine find_congr fun w => (mem_putEntry m.sorted).trans ⟨?_, fun hw => Or.inr ⟨hw, h⟩⟩
    rintro (heq | hw)
    · exact absurd (congrArg Prod.fst heq) h
    · exact hw.1

theorem find_erase (m : SortedMap K V) (k l : K) :
    (m.erase k).find l = if l = k then none else m.find l := by
  split
  · next h =>
    rw [Option.eq_none_iff_forall_ne_some]
    intro v hv
    simpa [erase, h] using find_eq_some.1 hv
  · next h => exact find_congr fun v => by simp [erase, h]

theorem find_modify (m : SortedMap K V) (k l : K) (g : V → V) :
    (m.modify k g).find l = if l = k then (m.find k).map g else m.find l := by
  rw [modify]
  split
  · next hnone =>
    split
    · next h => rw [h, hnone, Option.map_none]
    · rfl
  · next v hv => rw [find_put, hv, Option.map_some]

end Find

/-! ## Listings -/

section List

variable {m : SortedMap K V} {k : K} {v w : V} {p : K → Bool} {es : List (K × V)}

theorem mem_list : (k, v) ∈ m.list p ↔ p k = true ∧ m.find k = some v := by
  rw [list, List.mem_filter, find_eq_some, and_comm]

theorem sorted_list (m : SortedMap K V) (p : K → Bool) :
    (m.list p).Pairwise fun a b => a.1 < b.1 := m.sorted.filter _

/-- A listing is determined by its entries. -/
theorem list_eq (hs : es.Pairwise fun a b => a.1 < b.1)
    (h : ∀ k v, (k, v) ∈ es ↔ p k = true ∧ m.find k = some v) : m.list p = es := by
  refine List.Perm.eq_of_pairwise (fun a b _ _ hab hba => absurd hab hba.asymm) (m.sorted_list p) hs
    ((List.perm_ext_iff_of_nodup ((m.sorted_list p).imp ?_) (hs.imp ?_)).2 fun x => ?_)
  · exact fun hlt heq => hlt.ne (congrArg Prod.fst heq)
  · exact fun hlt heq => hlt.ne (congrArg Prod.fst heq)
  · exact mem_list.trans (h x.1 x.2).symm

/-- A map is known by its values. -/
theorem ext_find {m' : SortedMap K V} (h : ∀ k, m.find k = m'.find k) : m = m' := by
  have hall : ∀ n : SortedMap K V, n.list (fun _ => true) = n.entries := fun n =>
    List.filter_eq_self.2 fun _ _ => rfl
  obtain ⟨es, hs⟩ := m
  obtain ⟨es', hs'⟩ := m'
  have heq : es = es' := by
    have hlist := list_eq (m := ⟨es, hs⟩) (p := fun _ => true) hs' fun k v => by
      rw [h k, find_eq_some]
      exact ⟨fun hmem => ⟨rfl, hmem⟩, And.right⟩
    rwa [hall] at hlist
  subst heq
  rfl

theorem modify_modify (m : SortedMap K V) (k : K) (f g : V → V) :
    (m.modify k f).modify k g = m.modify k fun v => g (f v) := by
  apply ext_find
  intro l
  rw [find_modify, find_modify, find_modify, find_modify, if_pos rfl]
  split
  · rw [Option.map_map]
    rfl
  · rfl

/-- A new entry behind all others. -/
theorem list_put_append (hp : p k = true) (hlt : ∀ e ∈ m.list p, e.1 < k) :
    (m.put k v).list p = m.list p ++ [(k, v)] := by
  refine list_eq (List.pairwise_append.2 ⟨m.sorted_list p, List.pairwise_singleton .., ?_⟩)
    fun l w => ?_
  · intro e he e' he'
    rw [List.mem_singleton.1 he']
    exact hlt e he
  · rw [List.mem_append, mem_list, List.mem_singleton, find_put]
    split
    · next h =>
      subst h
      have hno : m.find l ≠ some w := fun hw => lt_irrefl _ (hlt (l, w) (mem_list.2 ⟨hp, hw⟩))
      simp [hp, hno, eq_comm]
    · next h => simp [h]

/-- Replacing the last entry. -/
theorem list_put_last (hl : m.list p = es ++ [(k, w)]) : (m.put k v).list p = es ++ [(k, v)] := by
  obtain ⟨hes, -, hlt⟩ := List.pairwise_append.1 (hl ▸ m.sorted_list p)
  have hk : p k = true ∧ m.find k = some w := mem_list.1 (hl ▸ by simp)
  refine list_eq (List.pairwise_append.2 ⟨hes, List.pairwise_singleton .., ?_⟩) fun l w' => ?_
  · intro e he e' he'
    rw [List.mem_singleton.1 he']
    exact hlt e he (k, w) (by simp)
  · have hmem : (l, w') ∈ m.list p ↔ (l, w') ∈ es ∨ (l, w') = (k, w) := by rw [hl]; simp
    rw [mem_list] at hmem
    rw [List.mem_append, List.mem_singleton, find_put]
    split
    · next h =>
      subst h
      have hno : (l, w') ∉ es := fun he => lt_irrefl _ (hlt _ he (l, w) (by simp))
      simp [hk.1, hno, eq_comm]
    · next h => simp [hmem, h]

theorem list_modify_last (hl : m.list p = es ++ [(k, v)]) (g : V → V) :
    (m.modify k g).list p = es ++ [(k, g v)] := by
  have hk : p k = true ∧ m.find k = some v := mem_list.1 (hl ▸ by simp)
  rw [modify, hk.2]
  exact list_put_last hl

theorem list_mapValues (m : SortedMap K V) (g : K → V → V) (p : K → Bool) :
    (m.mapValues g).list p = (m.list p).map fun e => (e.1, g e.1 e.2) := by
  rw [list, list, mapValues, List.filter_map]
  rfl

/-! ### Maps of lists -/

section FlatMap

variable {α : Type} {f : V → List α} {key : α → K}

/-- Read one after the other, the lists of a map are in key order. -/
theorem sorted_flatMap (h : ∀ e ∈ m.entries, ∀ a ∈ f e.2, key a = e.1) :
    (m.entries.flatMap fun e => f e.2).Pairwise fun a b => key a ≤ key b := by
  rw [List.pairwise_flatMap]
  refine ⟨fun e he => ?_, m.sorted.imp_of_mem fun {e e'} he he' hlt a ha b hb => ?_⟩
  · exact List.pairwise_of_forall_mem_list fun a ha b hb => by rw [h e he a ha, h e he b hb]
  · rw [h e he a ha, h e' he' b hb]
    exact hlt.le

/-- The elements of one key are the list under that key. -/
theorem filter_flatMap (h : ∀ e ∈ m.entries, ∀ a ∈ f e.2, key a = e.1) (k : K) :
    (m.entries.flatMap fun e => f e.2).filter (fun a => key a = k) =
      ((m.find k).map f).getD [] := by
  have hpart : ∀ e ∈ m.entries, (f e.2).filter (fun a => key a = k) =
      if e.1 = k then f e.2 else [] := by
    intro e he
    split
    · next hk => exact List.filter_eq_self.2 fun a ha => by simp [h e he a ha, hk]
    · next hk => exact List.filter_eq_nil_iff.2 fun a ha => by simp [h e he a ha, hk]
  rw [List.filter_flatMap, List.flatMap_congr hpart, find, Option.map_map]
  obtain ⟨es, hsorted⟩ := m
  clear h hpart
  induction es with
  | nil => rfl
  | cons e es ih =>
    obtain ⟨hlt, hes⟩ := List.pairwise_cons.1 hsorted
    rw [List.flatMap_cons]
    by_cases hk : e.1 = k
    · have hrest : es.flatMap (fun e => if e.1 = k then f e.2 else []) = [] :=
        List.flatMap_eq_nil_iff.2 fun e' he' => if_neg (hk ▸ (hlt e' he').ne')
      simp [hk, hrest]
    · rw [if_neg hk, List.nil_append, List.find?_cons_of_neg (by simpa using hk)]
      exact ih hes

end FlatMap

end List

end SortedMap

end Velox
