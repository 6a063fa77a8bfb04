import Velox.Common.Types
import Velox.Lib.Chain

/-!
# Orders and price levels

Following `engine/order.hpp` and `engine/price_level.hpp`. A level is an intrusive doubly linked
FIFO: the links are fields of the orders, so the level's operations write to the orders it links.
The orders live in the object pool; here they are a `Heap`, a map from pool slots.

`PriceLevel.Holds lvl addr h c` says that the level links exactly the orders `c`, head first. The
three operations are specified by what they do to `c` (`enqueue_holds`, `unlink_holds`,
`reduce_holds`), together with what they leave alone: no operation changes the data of an order
other than its links, and none touches an order of another level.
-/

namespace Velox

/-- A pointer to an order: the number of its pool slot. -/
abbrev Ptr := Nat

/-- A pointer to a level: the side's array it lies in, and where. -/
structure LevelPtr where
  side : Side
  index : Nat
  deriving DecidableEq, Repr

structure Order where
  remaining : Int
  participant : Int
  price : Int
  id : Int
  next : Option Ptr
  level : Option LevelPtr
  side : Side
  quantity : Int
  seq : Int
  prev : Option Ptr
  deriving DecidableEq, Repr

/-- What an order says, without where it is linked. -/
structure RestingOrder where
  id : Int
  price : Int
  quantity : Int
  remaining : Int
  participant : Int
  seq : Int
  side : Side
  deriving DecidableEq, Repr

def Order.data (o : Order) : RestingOrder :=
  ⟨o.id, o.price, o.quantity, o.remaining, o.participant, o.seq, o.side⟩

namespace Order

@[simp] def setNext (x : Order) (next : Option Ptr) : Order := { x with next := next }

@[simp] def setPrev (x : Order) (prev : Option Ptr) : Order := { x with prev := prev }

@[simp] def setLinks (x : Order) (prev next : Option Ptr) (level : Option LevelPtr) : Order :=
  { x with prev := prev, next := next, level := level }

/-- `qty` of the order has traded. -/
def fill (x : Order) (qty : Int) : Order := { x with remaining := x.remaining - qty }

end Order

abbrev Heap := Ptr → Order

/-- Write through a pointer. -/
def modify (h : Heap) (p : Ptr) (f : Order → Order) : Heap := Function.update h p (f (h p))

@[simp] theorem modify_self (h : Heap) (p : Ptr) (f : Order → Order) : modify h p f p = f (h p) :=
  Function.update_self ..

theorem modify_of_ne (h : Heap) {p q : Ptr} (f : Order → Order) (hne : q ≠ p) :
    modify h p f q = h q :=
  Function.update_of_ne hne ..

/-- A write that keeps an attribute of its own order keeps it everywhere. -/
theorem modify_keeps {α : Type} (g : Order → α) {h : Heap} {p : Ptr} {f : Order → Order}
    (hf : g (f (h p)) = g (h p)) (q : Ptr) : g (modify h p f q) = g (h q) := by
  by_cases hq : q = p
  · subst hq
    rw [modify_self, hf]
  · rw [modify_of_ne h f hq]

/-- Write through a pointer unless it is null. -/
def modifyAt (h : Heap) : Option Ptr → (Order → Order) → Heap
  | some p, f => modify h p f
  | none, _ => h

@[simp] theorem modifyAt_none (h : Heap) (f : Order → Order) : modifyAt h none f = h := rfl

@[simp] theorem modifyAt_some (h : Heap) (p : Ptr) (f : Order → Order) :
    modifyAt h (some p) f = modify h p f := rfl

structure PriceLevel where
  head : Option Ptr
  tail : Option Ptr
  price : Int
  totalQty : Int
  count : Nat
  deriving DecidableEq, Repr

namespace PriceLevel

def init (p : Int) : PriceLevel := ⟨none, none, p, 0, 0⟩

def empty (lvl : PriceLevel) : Bool := lvl.head.isNone

/-- Join the back of the queue. `self` is the level's own address. -/
def enqueue (addr : LevelPtr) (lvl : PriceLevel) (h : Heap) (o : Ptr) : PriceLevel × Heap :=
  let h₁ := modify h o (·.setLinks lvl.tail none (some addr))
  let h₂ := modifyAt h₁ lvl.tail (·.setNext (some o))
  ({ lvl with
      head := if lvl.tail = none then some o else lvl.head
      tail := some o
      totalQty := wrap64 (lvl.totalQty + (h₂ o).remaining)
      count := lvl.count + 1 }, h₂)

/-- Remove a specific order. -/
def unlink (lvl : PriceLevel) (h : Heap) (o : Ptr) : PriceLevel × Heap :=
  let h₁ := modifyAt h (h o).prev (·.setNext (h o).next)
  let h₂ := modifyAt h₁ (h₁ o).next (·.setPrev (h₁ o).prev)
  ({ lvl with
      head := if (h o).prev = none then (h o).next else lvl.head
      tail := if (h₁ o).next = none then (h₁ o).prev else lvl.tail
      totalQty := wrap64 (lvl.totalQty - (h₂ o).remaining)
      count := lvl.count - 1 },
    modify h₂ o (·.setLinks none none none))

def reduceQuantity (lvl : PriceLevel) (qty : Int) : PriceLevel :=
  { lvl with totalQty := wrap64 (lvl.totalQty - qty) }

/-- The level links exactly the orders `c`, and accounts for them. -/
structure Holds (lvl : PriceLevel) (addr : LevelPtr) (h : Heap) (c : List Ptr) : Prop where
  list : Chain.DList (fun p => (h p).next) (fun p => (h p).prev) lvl.head lvl.tail c
  count : lvl.count = c.length
  total : lvl.totalQty = wrap64 (c.map fun p => (h p).remaining).sum
  level : ∀ p ∈ c, (h p).level = some addr

section Holds

variable {lvl : PriceLevel} {addr : LevelPtr} {h h' : Heap} {c ys zs : List Ptr} {o : Ptr}

theorem holds_init (p : Int) (addr : LevelPtr) (h : Heap) : (init p).Holds addr h [] where
  list := Chain.dlist_nil
  count := rfl
  total := rfl
  level := by simp

theorem Holds.empty_iff (hl : lvl.Holds addr h c) : lvl.empty = true ↔ c = [] := by
  rw [empty, Option.isNone_iff_eq_none, hl.list.head_eq_none]

theorem Holds.head_eq (hl : lvl.Holds addr h c) : lvl.head = c.head? := hl.list.head

theorem sum_remaining_congr {c : List Ptr} (heq : ∀ p ∈ c, (h' p).remaining = (h p).remaining) :
    (c.map fun p => (h' p).remaining).sum = (c.map fun p => (h p).remaining).sum := by
  rw [List.map_congr_left heq]

/-- Only the orders of the level matter. -/
theorem Holds.congr (hl : lvl.Holds addr h c) (heq : ∀ p ∈ c, h' p = h p) :
    lvl.Holds addr h' c where
  list := hl.list.congr (fun p hp => by rw [heq p hp]) (fun p hp => by rw [heq p hp])
  count := hl.count
  total := by
    rw [hl.total, sum_remaining_congr fun p hp => congrArg Order.remaining (heq p hp)]
  level := fun p hp => by rw [heq p hp, hl.level p hp]

/-- The heap after an operation on the level that holds `c`: data is kept, other orders are not
touched. -/
structure Touches (c : List Ptr) (h h' : Heap) : Prop where
  data : ∀ p, (h' p).data = (h p).data
  frame : ∀ p ∉ c, h' p = h p

theorem Touches.remaining (ht : Touches c h h') (p : Ptr) :
    (h' p).remaining = (h p).remaining :=
  congrArg RestingOrder.remaining (ht.data p)

theorem Touches.modifyAt (ht : Touches c h h') {q : Option Ptr} {f : Order → Order}
    (hf : ∀ x, (f x).data = x.data) (hq : ∀ p, q = some p → p ∈ c) :
    Touches c h (modifyAt h' q f) := by
  cases q with
  | none => exact ht
  | some a =>
    refine ⟨fun p => (modify_keeps Order.data (hf _) p).trans (ht.data p), fun p hp => ?_⟩
    refine (modify_of_ne _ _ ?_).trans (ht.frame p hp)
    rintro rfl
    exact hp (hq _ rfl)

theorem Touches.refl (c : List Ptr) (h : Heap) : Touches c h h := ⟨fun _ => rfl, fun _ _ => rfl⟩

theorem enqueue_touches (hl : lvl.Holds addr h c) :
    Touches (o :: c) h (enqueue addr lvl h o).2 := by
  have h₁ := (Touches.refl (o :: c) h).modifyAt (q := some o)
    (f := (·.setLinks lvl.tail none (some addr)))
    (fun _ => rfl) (by simp)
  refine h₁.modifyAt (fun _ => rfl) fun t ht => ?_
  exact List.mem_cons_of_mem _ (List.mem_of_getLast? (hl.list.tail.symm.trans ht))

/-- **Joining the back of a level.** -/
theorem enqueue_holds (hl : lvl.Holds addr h c) (hnd : c.Nodup) (ho : o ∉ c) :
    (enqueue addr lvl h o).1.Holds addr (enqueue addr lvl h o).2 (c ++ [o]) := by
  have hto := enqueue_touches (o := o) hl
  have htot : ((c ++ [o]).map fun p => ((enqueue addr lvl h o).2 p).remaining).sum =
      (c.map fun p => (h p).remaining).sum + ((enqueue addr lvl h o).2 o).remaining := by
    rw [List.map_append, List.sum_append, sum_remaining_congr fun p _ => hto.remaining p]
    simp
  -- The four link writes, read back.
  have hself : ((enqueue addr lvl h o).2 o).prev = lvl.tail ∧
      ((enqueue addr lvl h o).2 o).next = none ∧
      ((enqueue addr lvl h o).2 o).level = some addr := by
    rw [enqueue]
    cases ht : lvl.tail with
    | none => simp
    | some t =>
      have hne : o ≠ t := by
        rintro rfl
        exact ho (List.mem_of_getLast? (hl.list.tail.symm.trans ht))
      simp [modify_of_ne _ _ hne]
  have hother : ∀ p ∈ c, ((enqueue addr lvl h o).2 p).prev = (h p).prev ∧
      ((enqueue addr lvl h o).2 p).level = (h p).level ∧
      ((enqueue addr lvl h o).2 p).next = if lvl.tail = some p then some o else (h p).next := by
    intro p hp
    have hne : p ≠ o := by
      rintro rfl
      exact ho hp
    rw [enqueue]
    cases ht : lvl.tail with
    | none => simp [modify_of_ne _ _ hne]
    | some t =>
      by_cases hpt : p = t
      · subst hpt
        simp [modify_of_ne _ _ hne]
      · simp [modify_of_ne _ _ hpt, modify_of_ne _ _ hne, Ne.symm hpt]
  refine ⟨?_, ?_, ?_, ?_⟩
  · have hhead : (enqueue addr lvl h o).1.head = lvl.head.or (some o) := by
      rw [hl.list.head]
      change (if lvl.tail = none then some o else lvl.head) = _
      rw [hl.list.tail, hl.list.head]
      cases c <;> simp
    rw [hhead]
    refine hl.list.enqueue hnd hself.1 hself.2.1 (fun t ht => ?_) (fun p hp => (hother p hp).1)
      fun p hp hne => ?_
    · have htc : t ∈ c := List.mem_of_getLast? (hl.list.tail.symm.trans ht)
      rw [(hother t htc).2.2, if_pos ht]
    · rw [(hother p hp).2.2, if_neg hne]
  · change lvl.count + 1 = _
    rw [hl.count]
    simp
  · rw [htot, ← wrap64_add_wrap64, ← hl.total]
    rfl
  · intro p hp
    rw [List.mem_append, List.mem_singleton] at hp
    rcases hp with hp | rfl
    · rw [(hother p hp).2.1, hl.level p hp]
    · exact hself.2.2

/-- The neighbours of an order are other orders of its level. -/
theorem Holds.neighbours (hl : lvl.Holds addr h (ys ++ o :: zs)) (hnd : (ys ++ o :: zs).Nodup) :
    (∀ a, (h o).prev = some a → a ∈ ys ∧ a ≠ o) ∧ (∀ b, (h o).next = some b → b ∈ zs ∧ b ≠ o) ∧
      ∀ a b, (h o).prev = some a → (h o).next = some b → a ≠ b := by
  obtain ⟨hprev, hnext⟩ := hl.list.links_at
  rw [List.nodup_append] at hnd
  have hys : ∀ a, (h o).prev = some a → a ∈ ys := fun a ha =>
    List.mem_of_getLast? (hprev.symm.trans ha)
  have hzs : ∀ b, (h o).next = some b → b ∈ zs := fun b hb =>
    List.mem_of_head? (hnext.symm.trans hb)
  refine ⟨fun a ha => ⟨hys a ha, ?_⟩, fun b hb => ⟨hzs b hb, ?_⟩, fun a b ha hb => ?_⟩
  · exact hnd.2.2 a (hys a ha) o (by simp)
  · rintro rfl
    exact (List.nodup_cons.1 hnd.2.1).1 (hzs _ hb)
  · exact hnd.2.2 a (hys a ha) b (List.mem_cons_of_mem _ (hzs b hb))

/-- `unlink`, with the reads of the order itself moved before the writes. -/
theorem unlink_eq (hl : lvl.Holds addr h (ys ++ o :: zs)) (hnd : (ys ++ o :: zs).Nodup) :
    unlink lvl h o = ({ lvl with
      head := if (h o).prev = none then (h o).next else lvl.head
      tail := if (h o).next = none then (h o).prev else lvl.tail
      totalQty := wrap64 (lvl.totalQty - (h o).remaining)
      count := lvl.count - 1 },
      modify (modifyAt (modifyAt h (h o).prev (·.setNext (h o).next)) (h o).next
        (·.setPrev (h o).prev)) o
        (·.setLinks none none none)) := by
  obtain ⟨hprev, hnext, -⟩ := hl.neighbours hnd
  have hskip : ∀ (g : Heap) (q : Option Ptr) (f : Order → Order), (∀ a, q = some a → a ≠ o) →
      modifyAt g q f o = g o := by
    intro g q f hq
    cases q with
    | none => rfl
    | some a => exact modify_of_ne g f (hq a rfl).symm
  have h₁ := hskip h (h o).prev (·.setNext (h o).next) fun a ha => (hprev a ha).2
  have h₂ := (hskip (modifyAt h (h o).prev (·.setNext (h o).next)) (h o).next
    (·.setPrev (h o).prev) fun b hb => (hnext b hb).2).trans h₁
  rw [unlink]
  simp only [h₁, h₂]

/-- The links after `unlink`: the two neighbours point at each other. -/
theorem unlink_links (hl : lvl.Holds addr h (ys ++ o :: zs)) (hnd : (ys ++ o :: zs).Nodup) {p : Ptr}
    (hp : p ≠ o) :
    ((unlink lvl h o).2 p).next = (if (h o).prev = some p then (h o).next else (h p).next) ∧
      ((unlink lvl h o).2 p).prev = (if (h o).next = some p then (h o).prev else (h p).prev) ∧
      ((unlink lvl h o).2 p).level = (h p).level := by
  obtain ⟨-, -, hab⟩ := hl.neighbours hnd
  rw [unlink_eq hl hnd]
  dsimp only
  rw [modify_of_ne _ _ hp]
  cases ha : (h o).prev with
  | none =>
    cases hb : (h o).next with
    | none => simp
    | some b =>
      by_cases hpb : p = b
      · simp [hpb]
      · simp [modify_of_ne _ _ hpb, Ne.symm hpb]
  | some a =>
    cases hb : (h o).next with
    | none =>
      by_cases hpa : p = a
      · simp [hpa]
      · simp [modify_of_ne _ _ hpa, Ne.symm hpa]
    | some b =>
      have hne := hab a b ha hb
      by_cases hpa : p = a
      · subst hpa
        simp [modify_of_ne _ _ hne, Ne.symm hne]
      · by_cases hpb : p = b
        · subst hpb
          simp [modify_of_ne _ _ hpa, Ne.symm hpa]
        · simp [modify_of_ne _ _ hpa, modify_of_ne _ _ hpb, Ne.symm hpa, Ne.symm hpb]

theorem unlink_touches (hl : lvl.Holds addr h (ys ++ o :: zs)) (hnd : (ys ++ o :: zs).Nodup) :
    Touches (ys ++ o :: zs) h (unlink lvl h o).2 := by
  obtain ⟨hprev, hnext, -⟩ := hl.neighbours hnd
  rw [unlink_eq hl hnd]
  have h₁ := (Touches.refl (ys ++ o :: zs) h).modifyAt (q := (h o).prev)
    (f := (·.setNext (h o).next)) (fun _ => rfl) fun a ha => by
      simp [(hprev a ha).1]
  have h₂ := h₁.modifyAt (q := (h o).next) (f := (·.setPrev (h o).prev))
    (fun _ => rfl) fun b hb => by simp [(hnext b hb).1]
  exact h₂.modifyAt (q := some o) (f := (·.setLinks none none none)) (fun _ => rfl) (by simp)

theorem sum_remaining_middle (h : Heap) (ys zs : List Ptr) (o : Ptr) :
    ((ys ++ o :: zs).map fun p => (h p).remaining).sum =
      ((ys ++ zs).map fun p => (h p).remaining).sum + (h o).remaining := by
  simp only [List.map_append, List.map_cons, List.sum_append, List.sum_cons]
  ring

/-- **Leaving a level**, from anywhere in its queue. -/
theorem unlink_holds (hl : lvl.Holds addr h (ys ++ o :: zs)) (hnd : (ys ++ o :: zs).Nodup) :
    (unlink lvl h o).1.Holds addr (unlink lvl h o).2 (ys ++ zs) := by
  have hto := unlink_touches hl hnd
  have hlinks := fun p (hp : p ∈ ys ++ zs) => unlink_links hl hnd (p := p) (by
    rintro rfl
    exact (List.nodup_cons.1 (List.perm_middle.nodup_iff.1 hnd)).1 hp)
  obtain ⟨hprev, hnext, -⟩ := hl.neighbours hnd
  have hfst := congrArg Prod.fst (unlink_eq hl hnd)
  dsimp only at hfst
  refine ⟨?_, ?_, ?_, fun p hp => ?_⟩
  · have hlist : Chain.DList (fun p => ((unlink lvl h o).2 p).next)
        (fun p => ((unlink lvl h o).2 p).prev) _ _ (ys ++ zs) :=
      hl.list.unlink hnd (fun a ha => ?_) (fun b hb => ?_) (fun p hp hne => ?_)
        fun p hp hne => ?_
    · rw [hfst]
      exact hlist
    · exact (hlinks a (by simp [(hprev a ha).1])).1.trans (if_pos ha)
    · exact (hlinks b (by simp [(hnext b hb).1])).2.1.trans (if_pos hb)
    · exact (hlinks p hp).1.trans (if_neg hne)
    · exact (hlinks p hp).2.1.trans (if_neg hne)
  · rw [hfst]
    change lvl.count - 1 = _
    rw [hl.count]
    simp
  · rw [hfst]
    change wrap64 (lvl.totalQty - (h o).remaining) = _
    rw [hl.total, wrap64_sub_wrap64, sum_remaining_middle,
      sum_remaining_congr (h := h) fun p _ => hto.remaining p]
    congr 1
    omega
  · rw [(hlinks p hp).2.2]
    exact hl.level p (by
      rw [List.mem_append] at hp ⊢
      exact hp.imp_right (List.mem_cons_of_mem _))

/-- **A fill** takes `qty` from one order of the level and from its total. -/
theorem reduce_holds (hl : lvl.Holds addr h (ys ++ o :: zs)) (hnd : (ys ++ o :: zs).Nodup)
    (qty : Int) :
    (lvl.reduceQuantity qty).Holds addr
      (modify h o (·.fill qty)) (ys ++ o :: zs) := by
  have ho : o ∉ ys ++ zs := (List.nodup_cons.1 (List.perm_middle.nodup_iff.1 hnd)).1
  have hnext := modify_keeps Order.next (h := h) (p := o)
    (f := (·.fill qty)) rfl
  have hprev := modify_keeps Order.prev (h := h) (p := o)
    (f := (·.fill qty)) rfl
  have hlevel := modify_keeps Order.level (h := h) (p := o)
    (f := (·.fill qty)) rfl
  refine ⟨hl.list.congr (fun p _ => hnext p) fun p _ => hprev p, hl.count, ?_, fun p hp => ?_⟩
  · change wrap64 (lvl.totalQty - qty) = _
    have hrest : ((ys ++ zs).map fun p => (modify h o (·.fill qty) p).remaining).sum =
        ((ys ++ zs).map fun p => (h p).remaining).sum := by
      refine sum_remaining_congr fun p hp => ?_
      rw [modify_of_ne]
      rintro rfl
      exact ho hp
    rw [hl.total, wrap64_sub_wrap64, sum_remaining_middle, sum_remaining_middle, modify_self, hrest,
      Order.fill]
    congr 1
    ring
  · rw [hlevel p]
    exact hl.level p hp

end Holds

end PriceLevel

end Velox
