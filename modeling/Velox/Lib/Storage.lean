import Velox.Lib.SortedMap

/-!
# Files, crashes and programs of system calls

A file is what has been flushed to stable storage and what has been written since. A directory is
a finite map from names to files.

A power failure (`Directory.crash`) keeps what was flushed and, of the rest of each file, a prefix
of any length. Names are created and removed at once and survive.

`Prog` is the type of programs that make system calls. A program is run call by call, so that other
processes can look at the directory between two calls, and a write lets them see part of what it
writes. A call that fails says so to the program.

`Prog.Safe` is a logic for a program that others watch. It carries a ghost state `x` that says what
the directory stands for (`L x d`), and every call moves it along `G`: that is what the watchers may
rely on (`Safe.step`). A proof about a program is assembled from `Safe.bind` and one rule for each
call.
-/

namespace Velox.Storage

/-! ## Files -/

structure File where
  /-- What has been flushed. -/
  durable : List UInt8
  /-- What has been written since. -/
  pending : List UInt8
  deriving DecidableEq

namespace File

def empty : File := ⟨[], []⟩

/-- What a reader sees. -/
def bytes (f : File) : List UInt8 := f.durable ++ f.pending

def write (f : File) (bs : List UInt8) : File := ⟨f.durable, f.pending ++ bs⟩

def fsync (f : File) : File := ⟨f.bytes, []⟩

def truncate (f : File) (n : Nat) : File := ⟨f.durable.take n, f.pending.take (n - f.durable.length)⟩

/-- What is left when `keep` of the bytes that were not flushed survive. -/
def crash (f : File) (keep : Nat) : File := ⟨f.durable ++ f.pending.take keep, []⟩

@[simp] theorem bytes_write (f : File) (bs : List UInt8) : (f.write bs).bytes = f.bytes ++ bs :=
  (List.append_assoc ..).symm

@[simp] theorem bytes_fsync (f : File) : f.fsync.bytes = f.bytes := List.append_nil _

@[simp] theorem bytes_truncate (f : File) (n : Nat) : (f.truncate n).bytes = f.bytes.take n :=
  List.take_append.symm

@[simp] theorem crash_of_synced (bs : List UInt8) (keep : Nat) :
    (⟨bs, []⟩ : File).crash keep = ⟨bs, []⟩ := by
  rw [crash, List.take_nil, List.append_nil]

/-- A crash leaves a prefix that contains all that was flushed. -/
theorem crash_eq_take (f : File) (keep : Nat) :
    ∃ n, f.durable.length ≤ n ∧ n ≤ f.bytes.length ∧ f.crash keep = ⟨f.bytes.take n, []⟩ := by
  refine ⟨f.durable.length + min keep f.pending.length, Nat.le_add_right .., ?_, ?_⟩
  · rw [bytes, List.length_append]
    omega
  · rw [crash, bytes, List.take_length_add_append, List.take_eq_take_min]

end File

/-! ## Directories -/

/-- A finite map from names to files. -/
abbrev Directory (N : Type) [LinearOrder N] := SortedMap N File

namespace Directory

variable {N : Type} [LinearOrder N]

/-- `rename(2)`: a file that has the new name is replaced. -/
def rename (d : Directory N) (old new : N) : Directory N :=
  match d.find old with
  | none => d
  | some f => (d.erase old).put new f

/-- A power failure that leaves `keep n` of the bytes of `n` that were not flushed. -/
def crash (d : Directory N) (keep : N → Nat) : Directory N := d.mapValues fun n f => f.crash (keep n)

end Directory

/-! ## System calls -/

inductive Call (N : Type) where
  /-- `open` with `O_CREAT | O_TRUNC`. -/
  | create (n : N)
  /-- `open` of a file that has to exist. -/
  | reopen (n : N)
  /-- `write` at the end of the file. -/
  | write (n : N) (bs : List UInt8)
  | fsync (n : N)
  | truncate (n : N) (len : Nat)
  | rename (old new : N)
  | remove (n : N)

namespace Call

variable {N : Type} [LinearOrder N]

/-- How many parts of the call others can tell apart. -/
def size : Call N → Nat
  | .write _ bs => bs.length
  | _ => 1

/-- The directory when this much of the call is done. -/
def after (c : Call N) (k : Nat) (d : Directory N) : Directory N :=
  match c with
  | .write n bs => d.modify n (·.write (bs.take k))
  | .create n => if k = 0 then d else d.put n .empty
  | .reopen _ => d
  | .fsync n => if k = 0 then d else d.modify n File.fsync
  | .truncate n len => if k = 0 then d else d.modify n (·.truncate len)
  | .rename old new => if k = 0 then d else Directory.rename d old new
  | .remove n => if k = 0 then d else d.erase n

/-- The call does not fail for a reason of its own. -/
def possible (c : Call N) (d : Directory N) : Bool :=
  match c with
  | .reopen n => (d.find n).isSome
  | .rename old _ => (d.find old).isSome
  | _ => true

end Call

/-! ## Programs -/

inductive Prog (N α : Type) where
  | ret (a : α)
  /-- A call, and what is done when it has succeeded and when it has failed. -/
  | call (c : Call N) (next : Bool → Prog N α)

/-- What happens in a running call. -/
inductive Event where
  /-- Others can see so many more bytes. -/
  | wrote (k : Nat)
  | done
  | failed
  deriving DecidableEq

namespace Prog

variable {N : Type} {α β : Type}

def bind : Prog N α → (α → Prog N β) → Prog N β
  | .ret a, g => g a
  | .call c next, g => .call c fun ok => (next ok).bind g

instance : Monad (Prog N) where
  pure := .ret
  bind := bind

/-- A call that says whether it has succeeded. -/
def sys (c : Call N) : Prog N Bool := .call c .ret

variable [LinearOrder N]

/-- One event in the call that the program is in. -/
def step (p : Prog N α) (d : Directory N) (ev : Event) : Option (Prog N α × Directory N) :=
  match p, ev with
  | .ret _, _ => none
  | .call (.write n bs) next, .wrote k =>
    if k ≤ bs.length then
      some (.call (.write n (bs.drop k)) next, d.modify n (·.write (bs.take k)))
    else none
  | .call _ _, .wrote _ => none
  | .call c next, .done => if c.possible d then some (next true, c.after c.size d) else none
  | .call (.write _ bs) next, .failed => if bs = [] then none else some (next false, d)
  | .call _ next, .failed => some (next false, d)

theorem step_done (c : Call N) (next : Bool → Prog N α) (d : Directory N) :
    (call c next).step d .done =
      if c.possible d then some (next true, c.after c.size d) else none := by
  cases c <;> rfl

/-- The program, when every call succeeds. -/
def exec : Prog N α → Directory N → α × Directory N
  | .ret a, d => (a, d)
  | .call c next, d => (next true).exec (c.after c.size d)

/-! ### Safe programs -/

variable {σ : Type}

/-- The program, run from a directory that stands for `x`, moves along `G` whatever is seen of it,
and if no call fails returns with `Q`. -/
def Safe (L : σ → Directory N → Prop) (G : σ → σ → Prop) (Q : α → σ → Directory N → Prop) :
    Prog N α → σ → Directory N → Prop
  | .ret a, x, d => Q a x d
  | .call c next, x, d => ∃ g : Nat → σ, g 0 = x ∧
      (∀ k l, k ≤ l → l ≤ c.size → G (g k) (g l)) ∧
      (∀ k ≤ c.size, L (g k) (c.after k d)) ∧
      Safe L G Q (next true) (g c.size) (c.after c.size d)

variable {L : σ → Directory N → Prop} {G : σ → σ → Prop} {x : σ} {d : Directory N}

theorem Safe.bind {p : Prog N α} {g : α → Prog N β} {Q : α → σ → Directory N → Prop}
    {R : β → σ → Directory N → Prop} (h : p.Safe L G Q x d)
    (hg : ∀ a x d, Q a x d → (g a).Safe L G R x d) : (p >>= g).Safe L G R x d := by
  induction p generalizing x d with
  | ret a => exact hg a x d h
  | call c next ih =>
    obtain ⟨ghost, hzero, hG, hL, hrest⟩ := h
    exact ⟨ghost, hzero, hG, hL, ih true hrest⟩

theorem Safe.mono {p : Prog N α} {Q R : α → σ → Directory N → Prop} (h : p.Safe L G Q x d)
    (hR : ∀ a x d, Q a x d → R a x d) : p.Safe L G R x d := by
  induction p generalizing x d with
  | ret a => exact hR a x d h
  | call c next ih =>
    obtain ⟨ghost, hzero, hG, hL, hrest⟩ := h
    exact ⟨ghost, hzero, hG, hL, ih true hrest⟩

/-- The ghost state can get to where the program returns. -/
theorem Safe.reaches {p : Prog N α} {Q : α → σ → Directory N → Prop} (hrefl : ∀ x, G x x)
    (htrans : ∀ x y z, G x y → G y z → G x z) (h : p.Safe L G Q x d) :
    ∃ a x' d', G x x' ∧ Q a x' d' := by
  induction p generalizing x d with
  | ret a => exact ⟨a, x, d, hrefl x, h⟩
  | call c next ih =>
    obtain ⟨ghost, rfl, hG, -, hrest⟩ := h
    obtain ⟨a, x', d', hx', hQ⟩ := ih true hrest
    exact ⟨a, x', d', htrans _ _ _ (hG 0 _ (Nat.zero_le _) le_rfl) hx', hQ⟩

/-- What a safe program returns with. -/
theorem Safe.exec {p : Prog N α} {Q : α → σ → Directory N → Prop} (h : p.Safe L G Q x d) :
    ∃ x', Q (p.exec d).1 x' (p.exec d).2 := by
  induction p generalizing x d with
  | ret a => exact ⟨x, h⟩
  | call c next ih =>
    obtain ⟨ghost, -, -, -, hrest⟩ := h
    exact ih true hrest

/-- A call that others see happen bit by bit. -/
theorem safe_sys {c : Call N} {Q : Bool → σ → Directory N → Prop} (g : Nat → σ) (hzero : g 0 = x)
    (hG : ∀ k l, k ≤ l → l ≤ c.size → G (g k) (g l)) (hL : ∀ k ≤ c.size, L (g k) (c.after k d))
    (hQ : Q true (g c.size) (c.after c.size d)) : (sys c).Safe L G Q x d :=
  ⟨g, hzero, hG, hL, hQ⟩

/-- A call that others see happen at once. -/
theorem safe_atomic {c : Call N} {Q : Bool → σ → Directory N → Prop} {x' : σ} (hsize : c.size = 1)
    (hrefl : ∀ x, G x x) (hzero : L x (c.after 0 d)) (hG : G x x') (hL : L x' (c.after 1 d))
    (hQ : Q true x' (c.after 1 d)) : (sys c).Safe L G Q x d := by
  refine safe_sys (fun k => if k = 0 then x else x') rfl ?_ ?_ ?_
  · intro k l hkl hl
    split_ifs with hk hl'
    · exact hrefl x
    · exact hG
    · omega
    · exact hrefl x'
  · intro k hk
    rw [hsize] at hk
    split_ifs with hk'
    · rwa [hk']
    · rwa [show k = 1 by omega]
  · rw [hsize]
    exact hQ

/-- **What the watchers may rely on**: each event moves the ghost state along `G`. -/
theorem Safe.step {p p' : Prog N α} {Q : α → σ → Directory N → Prop} {d' : Directory N} {ev : Event}
    (h : p.Safe L G Q x d) (hstep : p.step d ev = some (p', d')) (hok : ev ≠ .failed) :
    ∃ x', G x x' ∧ L x' d' ∧ p'.Safe L G Q x' d' := by
  cases p with
  | ret a => cases hstep
  | call c next =>
    obtain ⟨g, rfl, hG, hL, hrest⟩ := h
    cases ev with
    | failed => exact absurd rfl hok
    | done =>
      rw [step_done] at hstep
      split at hstep
      · obtain ⟨rfl, rfl⟩ := Prod.mk.inj (Option.some.inj hstep)
        exact ⟨g c.size, hG 0 _ (Nat.zero_le _) le_rfl, hL _ le_rfl, hrest⟩
      · cases hstep
    | wrote k =>
      cases c with
      | write n bs =>
        simp only [Prog.step] at hstep
        split at hstep
        · next hk =>
          obtain ⟨rfl, rfl⟩ := Prod.mk.inj (Option.some.inj hstep)
          -- what is still to be written, from where the file now ends
          have hsize : (bs.drop k).length = bs.length - k := List.length_drop
          have hafter : ∀ j, (Call.write n (bs.drop k)).after j (d.modify n (·.write (bs.take k))) =
              (Call.write n bs).after (k + j) d := by
            intro j
            change (d.modify n _).modify n _ = d.modify n _
            rw [SortedMap.modify_modify]
            congr 1
            funext f
            rw [File.write, File.write, File.write, List.append_assoc, ← List.take_add]
          refine ⟨g k, hG 0 k (Nat.zero_le _) hk, hL k hk, fun j => g (k + j), rfl, ?_, ?_, ?_⟩
          · intro i j hij hj
            exact hG _ _ (by omega) (show k + j ≤ bs.length by
              change j ≤ (bs.drop k).length at hj
              omega)
          · intro j hj
            rw [hafter]
            exact hL _ (show k + j ≤ bs.length by
              change j ≤ (bs.drop k).length at hj
              omega)
          · have hend : k + (Call.write n (bs.drop k)).size = (Call.write n bs).size := by
              change k + (bs.drop k).length = bs.length
              omega
            change Safe L G Q (next true) (g (k + _)) _
            rw [hafter, hend]
            exact hrest
        · cases hstep
      | _ => cases hstep

end Prog

end Velox.Storage
