import Mathlib.Tactic

/-!
# Intrusive linked lists

The nodes carry their own links, so a list is a property of two functions `next` and `prev` and
not a value of its own. `DList next prev head tail xs` says that the nodes `xs`, in order, form
a doubly linked list with that head and tail; `SList next head xs` is the singly linked one.

The rules for joining the back of a list and for leaving from anywhere in it are stated by what
the writes change (`DList.enqueue`, `DList.unlink`), so they apply to any record that has the
two links among its fields.
-/

namespace Velox.Chain

variable {P : Type}

/-- The nodes `xs` are linked both ways, with `before` and `after` at the two ends. -/
def Seg (next prev : P → Option P) : Option P → List P → Option P → Prop
  | _, [], _ => True
  | before, x :: xs, after =>
    prev x = before ∧ next x = xs.head?.or after ∧ Seg next prev (some x) xs after

/-- A doubly linked list: nothing before its head, nothing after its tail. -/
structure DList (next prev : P → Option P) (head tail : Option P) (xs : List P) : Prop where
  head : head = xs.head?
  tail : tail = xs.getLast?
  links : Seg next prev none xs none

/-- A singly linked list. -/
def SList (next : P → Option P) : Option P → List P → Prop
  | head, [] => head = none
  | head, x :: xs => head = some x ∧ SList next (next x) xs

section Seg

variable {next prev next' prev' : P → Option P} {before after : Option P}

/-- The links outside the segment do not matter. -/
theorem Seg.congr {xs : List P} (hn : ∀ x ∈ xs, next' x = next x) (hp : ∀ x ∈ xs, prev' x = prev x)
    (h : Seg next prev before xs after) : Seg next' prev' before xs after := by
  induction xs generalizing before with
  | nil => trivial
  | cons x xs ih =>
    obtain ⟨h₁, h₂, h₃⟩ := h
    refine ⟨by rw [hp x (by simp), h₁], by rw [hn x (by simp), h₂], ?_⟩
    exact ih (fun y hy => hn y (by simp [hy])) (fun y hy => hp y (by simp [hy])) h₃

theorem seg_append (ys zs : List P) : Seg next prev before (ys ++ zs) after ↔
    Seg next prev before ys (zs.head?.or after) ∧
      Seg next prev (ys.getLast?.or before) zs after := by
  induction ys generalizing before with
  | nil => simp [Seg]
  | cons y ys ih =>
    cases ys with
    | nil => simp [Seg, and_assoc]
    | cons w ws =>
      rw [List.cons_append, Seg, ih, Seg, List.getLast?_cons_cons]
      have hlast : (w :: ws).getLast?.or (some y) = (w :: ws).getLast?.or before := by
        simp [List.getLast?_cons]
      rw [hlast]
      simp [Seg, and_assoc]

/-- Changing only the last node's `next` moves the end of the segment. -/
theorem Seg.retarget {xs : List P} {after' : Option P} (hnd : xs.Nodup)
    (hlast : ∀ x, xs.getLast? = some x → next' x = after')
    (hn : ∀ x ∈ xs, xs.getLast? ≠ some x → next' x = next x) (hp : ∀ x ∈ xs, prev' x = prev x)
    (h : Seg next prev before xs after) : Seg next' prev' before xs after' := by
  induction xs generalizing before with
  | nil => trivial
  | cons x xs ih =>
    obtain ⟨h₁, h₂, h₃⟩ := h
    rw [List.nodup_cons] at hnd
    cases xs with
    | nil => exact ⟨by rw [hp x (by simp), h₁], by simpa using hlast x (by simp), trivial⟩
    | cons w ws =>
      have hx : (x :: w :: ws).getLast? ≠ some x := by
        rw [List.getLast?_cons_cons]
        intro heq
        exact hnd.1 (List.mem_of_getLast? heq)
      refine ⟨by rw [hp x (by simp), h₁], by rw [hn x (by simp) hx, h₂]; simp, ?_⟩
      refine ih hnd.2 (fun y hy => hlast y (by rw [List.getLast?_cons_cons]; exact hy)) ?_
        (fun y hy => hp y (List.mem_cons_of_mem _ hy)) h₃
      intro y hy hne
      exact hn y (List.mem_cons_of_mem _ hy) (by rw [List.getLast?_cons_cons]; exact hne)

/-- Changing only the first node's `prev` moves the start of the segment. -/
theorem Seg.rebase {xs : List P} {before' : Option P} (hnd : xs.Nodup)
    (hhead : ∀ x, xs.head? = some x → prev' x = before')
    (hp : ∀ x ∈ xs, xs.head? ≠ some x → prev' x = prev x) (hn : ∀ x ∈ xs, next' x = next x)
    (h : Seg next prev before xs after) : Seg next' prev' before' xs after := by
  cases xs with
  | nil => trivial
  | cons x xs =>
    obtain ⟨-, h₂, h₃⟩ := h
    rw [List.nodup_cons] at hnd
    refine ⟨hhead x rfl, by rw [hn x (by simp), h₂], ?_⟩
    refine Seg.congr (fun y hy => hn y (List.mem_cons_of_mem _ hy)) (fun y hy => ?_) h₃
    refine hp y (List.mem_cons_of_mem _ hy) ?_
    rintro ⟨rfl⟩
    exact hnd.1 hy

end Seg

section DList

variable {next prev next' prev' : P → Option P} {head tail : Option P} {xs : List P}

theorem dlist_nil : DList next prev none none ([] : List P) := ⟨rfl, rfl, trivial⟩

theorem DList.head_eq_none (h : DList next prev head tail xs) : head = none ↔ xs = [] := by
  rw [h.head, List.head?_eq_none_iff]

/-- The links of a node in the middle. -/
theorem DList.links_at {ys zs : List P} {o : P} (h : DList next prev head tail (ys ++ o :: zs)) :
    prev o = ys.getLast? ∧ next o = zs.head? := by
  obtain ⟨-, h₂⟩ := (seg_append ys (o :: zs)).1 h.links
  obtain ⟨h₃, h₄, -⟩ := h₂
  exact ⟨by simpa using h₃, by simpa using h₄⟩

theorem DList.congr (hn : ∀ x ∈ xs, next' x = next x) (hp : ∀ x ∈ xs, prev' x = prev x)
    (h : DList next prev head tail xs) : DList next' prev' head tail xs :=
  ⟨h.head, h.tail, h.links.congr hn hp⟩

/-- **Joining the back.** The old tail (if any) is linked to `o`, and `o` back to it. -/
theorem DList.enqueue {o : P} (h : DList next prev head tail xs) (hnd : xs.Nodup)
    (hprev : prev' o = tail) (hnext : next' o = none)
    (hlink : ∀ t, tail = some t → next' t = some o)
    (fprev : ∀ p ∈ xs, prev' p = prev p)
    (fnext : ∀ p ∈ xs, tail ≠ some p → next' p = next p) :
    DList next' prev' (head.or (some o)) (some o) (xs ++ [o]) := by
  have htail := h.tail
  refine ⟨by rw [h.head, List.head?_append]; rfl, by simp, ?_⟩
  rw [seg_append]
  refine ⟨?_, ?_⟩
  · refine Seg.retarget hnd (fun x hx => ?_) (fun x hx hne => ?_) fprev h.links
    · rw [hlink x (htail.trans hx)]
      rfl
    · exact fnext x hx (by rw [htail]; exact hne)
  · refine ⟨by rw [hprev, htail]; simp, by simpa using hnext, trivial⟩

/-- **Leaving the list**, from wherever `o` stands in it: its two neighbours (or the ends of the
list) are linked to each other. -/
theorem DList.unlink {ys zs : List P} {o : P} (h : DList next prev head tail (ys ++ o :: zs))
    (hnd : (ys ++ o :: zs).Nodup)
    (hp : ∀ a, prev o = some a → next' a = next o)
    (hn : ∀ b, next o = some b → prev' b = prev o)
    (fnext : ∀ p ∈ ys ++ zs, prev o ≠ some p → next' p = next p)
    (fprev : ∀ p ∈ ys ++ zs, next o ≠ some p → prev' p = prev p) :
    DList next' prev' (if prev o = none then next o else head)
      (if next o = none then prev o else tail) (ys ++ zs) := by
  obtain ⟨hpo, hno⟩ := h.links_at
  obtain ⟨hys, -, -, hzs⟩ := (seg_append ys (o :: zs)).1 h.links
  rw [List.nodup_append] at hnd
  obtain ⟨hndy, hndz, hdisj⟩ := hnd
  rw [List.nodup_cons] at hndz
  have hyz : ∀ a ∈ ys, a ∉ zs := fun a ha hz => hdisj a ha a (List.mem_cons_of_mem _ hz) rfl
  refine ⟨?_, ?_, ?_⟩
  · rw [hpo, hno, h.head]
    cases ys <;> simp
  · rw [hpo, hno, h.tail]
    cases zs with
    | nil => simp
    | cons z zs => simp [List.getLast?_append, List.getLast?_cons]
  · rw [seg_append]
    refine ⟨?_, ?_⟩
    · refine Seg.retarget hndy (fun x hx => ?_) (fun x hx hne => ?_) (fun x hx => ?_) hys
      · rw [hp x (hpo.trans hx), hno]
        simp
      · exact fnext x (by simp [hx]) (by rw [hpo]; exact hne)
      · refine fprev x (by simp [hx]) ?_
        rw [hno]
        intro heq
        exact hyz x hx (List.mem_of_head? heq)
    · refine Seg.rebase hndz.2 (fun x hx => ?_) (fun x hx hne => ?_) (fun x hx => ?_) hzs
      · rw [hn x (hno.trans hx), hpo]
        simp
      · exact fprev x (by simp [hx]) (by rw [hno]; exact hne)
      · refine fnext x (by simp [hx]) ?_
        rw [hpo]
        intro heq
        exact hyz x (List.mem_of_getLast? heq) hx

end DList

section SList

variable {next next' : P → Option P}

theorem SList.congr {xs : List P} {head : Option P} (hn : ∀ x ∈ xs, next' x = next x)
    (h : SList next head xs) : SList next' head xs := by
  induction xs generalizing head with
  | nil => exact h
  | cons x xs ih =>
    refine ⟨h.1, ?_⟩
    rw [hn x (by simp)]
    exact ih (fun y hy => hn y (by simp [hy])) h.2

end SList

end Velox.Chain
