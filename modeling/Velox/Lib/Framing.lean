import Mathlib.Tactic

/-!
# Frames in a byte stream

A stream of bytes is cut into messages by a function that looks at the front of what has arrived
and says: not enough yet, this cannot be a message, or here is one of so many bytes. `Framing`
asks of such a function that bytes which arrive later never change its mind.

`Reads bs ms rest` says that the messages `ms` can be taken off the front of `bs`, leaving `rest`.
It does not matter how the stream arrives: what has been read so far of a part of it is the
beginning of `messages bs`, the messages of the whole (`Reads.messages_eq`).

`scan` also says how the stream ends. A reader with a bounded buffer that takes every message off it
before it reads on (`receive`) sees what `scan` sees in the whole stream, as long as the beginning of
a message leaves room for one more read (`receive_eq_scan`).
-/

namespace Velox

/-- What the front of a buffer holds. -/
inductive Next (M E : Type) where
  | more
  | bad (e : E)
  | ok (m : M) (size : Nat)
  deriving DecidableEq

/-- A way to cut messages off a stream. -/
structure Framing (M E : Type) where
  next : List UInt8 → Next M E
  size_pos : ∀ {bs m n}, next bs = .ok m n → 0 < n
  size_le : ∀ {bs m n}, next bs = .ok m n → n ≤ bs.length
  ok_append : ∀ {bs m n} (cs), next bs = .ok m n → next (bs ++ cs) = .ok m n
  bad_append : ∀ {bs e} (cs), next bs = .bad e → next (bs ++ cs) = .bad e

namespace Framing

variable {M E : Type} (F : Framing M E)

/-- Taking messages off the front of a stream. -/
inductive Reads : List UInt8 → List M → List UInt8 → Prop
  | nil {bs} : Reads bs [] bs
  | cons {bs m n ms rest} (h : F.next bs = .ok m n) (tail : Reads (bs.drop n) ms rest) :
      Reads bs (m :: ms) rest

variable {F} {bs rest : List UInt8} {m : M} {ms : List M} {n : Nat}

/-- Bytes that arrive later are left for later. -/
theorem Reads.append (h : F.Reads bs ms rest) (cs : List UInt8) :
    F.Reads (bs ++ cs) ms (rest ++ cs) := by
  induction h with
  | nil => exact .nil
  | @cons bs m n ms rest h _ ih =>
    refine .cons (F.ok_append cs h) ?_
    rw [List.drop_append_of_le_length (F.size_le h)]
    exact ih

/-- One more message. -/
theorem Reads.snoc (h : F.Reads bs ms rest) (hn : F.next rest = .ok m n) :
    F.Reads bs (ms ++ [m]) (rest.drop n) := by
  induction h with
  | nil => exact .cons hn .nil
  | cons h _ ih => exact .cons h (ih hn)

/-- How a stream ends. -/
inductive Ending (E : Type) where
  /-- The beginning of a message, or nothing. -/
  | rest (bs : List UInt8)
  | bad (e : E)
  /-- The reader had no room for what came. -/
  | refused
  deriving DecidableEq

variable (F) in
/-- The messages of a stream and its end. -/
def scan (bs : List UInt8) : List M × Ending E :=
  match _h : F.next bs with
  | .ok m n => (m :: (scan (bs.drop n)).1, (scan (bs.drop n)).2)
  | .more => ([], .rest bs)
  | .bad e => ([], .bad e)
  termination_by bs.length
  decreasing_by
    all_goals
      have := F.size_pos _h
      have := F.size_le _h
      rw [List.length_drop]
      omega

variable {e : E} {r cs : List UInt8}

theorem scan_ok (h : F.next bs = .ok m n) :
    F.scan bs = (m :: (F.scan (bs.drop n)).1, (F.scan (bs.drop n)).2) := by
  conv_lhs => unfold scan
  split
  · next h' =>
    rw [h] at h'
    cases h'
    rfl
  · next h' => rw [h] at h'; cases h'
  · next h' => rw [h] at h'; cases h'

theorem scan_more (h : F.next bs = .more) : F.scan bs = ([], .rest bs) := by
  unfold scan
  split
  · next h' => rw [h] at h'; cases h'
  · rfl
  · next h' => rw [h] at h'; cases h'

theorem scan_bad (h : F.next bs = .bad e) : F.scan bs = ([], .bad e) := by
  unfold scan
  split
  · next h' => rw [h] at h'; cases h'
  · next h' => rw [h] at h'; cases h'
  · next h' =>
    rw [h] at h'
    cases h'
    rfl

/-- Where a stream stops being readable, the front of what is left says why. -/
theorem scan_stops (bs : List UInt8) :
    (∃ ms r, F.scan bs = (ms, .rest r) ∧ F.next r = .more ∧ ∀ cs,
        F.scan (bs ++ cs) = (ms ++ (F.scan (r ++ cs)).1, (F.scan (r ++ cs)).2)) ∨
      ∃ ms e, F.scan bs = (ms, .bad e) ∧ ∀ cs, F.scan (bs ++ cs) = (ms, .bad e) := by
  cases h : F.next bs with
  | more => exact Or.inl ⟨[], bs, scan_more h, h, fun cs => rfl⟩
  | bad e => exact Or.inr ⟨[], e, scan_bad h, fun cs => scan_bad (F.bad_append cs h)⟩
  | ok m n =>
    have hpos := F.size_pos h
    have hle := F.size_le h
    have happ : ∀ cs, F.scan (bs ++ cs) =
        (m :: (F.scan (bs.drop n ++ cs)).1, (F.scan (bs.drop n ++ cs)).2) := by
      intro cs
      rw [scan_ok (F.ok_append cs h), List.drop_append_of_le_length hle]
    rcases scan_stops (bs.drop n) with ⟨ms, r, hs, hr, hcs⟩ | ⟨ms, e, hs, hcs⟩
    · refine Or.inl ⟨m :: ms, r, by rw [scan_ok h, hs], hr, fun cs => ?_⟩
      rw [happ, hcs]
      rfl
    · refine Or.inr ⟨m :: ms, e, by rw [scan_ok h, hs], fun cs => ?_⟩
      rw [happ, hcs]
  termination_by bs.length
  decreasing_by
    rw [List.length_drop]
    omega

theorem scan_ne_refused (bs : List UInt8) : (F.scan bs).2 ≠ .refused := by
  rcases F.scan_stops bs with ⟨ms, r, hs, -⟩ | ⟨ms, e, hs, -⟩ <;> rw [hs] <;> nofun

/-! ## Reading with a bounded buffer -/

variable (F) in
/-- The stream arrives in pieces. Each is put behind what the buffer holds, and the messages are
taken off the buffer. -/
def receive (capacity : Nat) (buf : List UInt8) : List (List UInt8) → List M × Ending E
  | [] => ([], .rest buf)
  | c :: cs =>
    if capacity < buf.length + c.length then ([], .refused)
    else
      match F.scan (buf ++ c) with
      | (ms, .rest r) => (ms ++ (receive capacity r cs).1, (receive capacity r cs).2)
      | ended => ended

/-- **How the stream is cut does not matter.** -/
theorem receive_eq_scan {capacity chunk : Nat} {buf : List UInt8} {cs : List (List UInt8)}
    (hroom : ∀ {bs}, F.next bs = .more → bs.length + chunk ≤ capacity)
    (hcs : ∀ c ∈ cs, c.length ≤ chunk) (hbuf : F.next buf = .more) :
    F.receive capacity buf cs = F.scan (buf ++ cs.flatten) := by
  induction cs generalizing buf with
  | nil => rw [receive, List.flatten_nil, List.append_nil, scan_more hbuf]
  | cons c cs ih =>
    have hfits : ¬ capacity < buf.length + c.length := by
      have := hroom hbuf
      have := hcs c List.mem_cons_self
      omega
    rw [receive, if_neg hfits, List.flatten_cons, ← List.append_assoc]
    rcases F.scan_stops (buf ++ c) with ⟨ms, r, hs, hr, happ⟩ | ⟨ms, e, hs, happ⟩
    · rw [hs, happ, ← ih (fun c' hc' => hcs c' (List.mem_cons_of_mem _ hc')) hr]
    · rw [hs, happ]

/-! ## Writing messages -/

variable (F) in
/-- `enc` writes messages that can be read, and a message can only be read where it was written. -/
structure Codec (enc : M → List UInt8) (ok : M → Prop) : Prop where
  next_enc : ∀ {m} (rest), ok m → F.next (enc m ++ rest) = .ok m (enc m).length
  take_eq : ∀ {bs m n}, F.next bs = .ok m n → bs.take n = enc m
  nil : F.next [] = .more

section Codec

variable {enc : M → List UInt8} {ok : M → Prop}

/-- What is written is read. -/
theorem Codec.scan_flatMap (h : F.Codec enc ok) {ms : List M} (hms : ∀ m ∈ ms, ok m) :
    F.scan (ms.flatMap enc) = (ms, .rest []) := by
  induction ms with
  | nil => exact scan_more h.nil
  | cons m ms ih =>
    rw [List.flatMap_cons, scan_ok (h.next_enc _ (hms m List.mem_cons_self)), List.drop_left' rfl,
      ih fun m' hm' => hms m' (List.mem_cons_of_mem _ hm')]

/-- **What is read was written that way.** -/
theorem Codec.flatMap_scan (h : F.Codec enc ok) {bs rest : List UInt8} {ms : List M}
    (hs : F.scan bs = (ms, .rest rest)) : ms.flatMap enc ++ rest = bs := by
  cases hn : F.next bs with
  | more =>
    rw [scan_more hn] at hs
    cases hs
    rfl
  | bad e =>
    rw [scan_bad hn] at hs
    cases hs
  | ok m n =>
    have hpos := F.size_pos hn
    have hle := F.size_le hn
    rw [scan_ok hn] at hs
    obtain ⟨rfl, hend⟩ := Prod.mk.inj hs
    rw [List.flatMap_cons, List.append_assoc, h.flatMap_scan (Prod.ext rfl hend), ← h.take_eq hn,
      List.take_append_drop]
  termination_by bs.length
  decreasing_by
    rw [List.length_drop]
    omega

/-- The front of a part of what is written: there is more to come, or the first message. -/
theorem Codec.front (h : F.Codec enc ok) {bs cs : List UInt8} {ms : List M}
    (hms : ∀ m ∈ ms, ok m) (hs : bs ++ cs = ms.flatMap enc) :
    F.next bs = .more ∨ ∃ m ms', ms = m :: ms' ∧ F.next bs = .ok m (enc m).length ∧
      bs.drop (enc m).length ++ cs = ms'.flatMap enc := by
  cases ms with
  | nil =>
    obtain ⟨rfl, -⟩ := List.append_eq_nil_iff.1 hs
    exact Or.inl h.nil
  | cons m ms =>
    have hnext : F.next (bs ++ cs) = .ok m (enc m).length := by
      rw [hs, List.flatMap_cons]
      exact h.next_enc _ (hms m List.mem_cons_self)
    cases hn : F.next bs with
    | more => exact Or.inl rfl
    | bad e =>
      rw [F.bad_append cs hn] at hnext
      cases hnext
    | ok m' n =>
      rw [F.ok_append cs hn] at hnext
      obtain ⟨rfl, rfl⟩ := Next.ok.inj hnext
      refine Or.inr ⟨m', ms, rfl, rfl, ?_⟩
      rw [← List.drop_append_of_le_length (F.size_le hn), hs, List.flatMap_cons, List.drop_left' rfl]

/-- A part of what is written: its complete messages, and the beginning of the next one. -/
theorem Codec.scan_part (h : F.Codec enc ok) {bs cs : List UInt8} {ms : List M}
    (hms : ∀ m ∈ ms, ok m) (hs : bs ++ cs = ms.flatMap enc) :
    ∃ ms₁ ms₂ r, ms = ms₁ ++ ms₂ ∧ F.scan bs = (ms₁, .rest r) ∧ F.next r = .more ∧
      bs = ms₁.flatMap enc ++ r ∧ r ++ cs = ms₂.flatMap enc := by
  induction ms generalizing bs with
  | nil =>
    obtain ⟨rfl, hcs⟩ := List.append_eq_nil_iff.1 hs
    exact ⟨[], [], [], rfl, scan_more h.nil, h.nil, rfl, hs⟩
  | cons m ms ih =>
    rcases h.front hms hs with hmore | ⟨m', ms', heq, hnext, hrest⟩
    · exact ⟨[], m :: ms, bs, rfl, scan_more hmore, hmore, rfl, hs⟩
    · obtain ⟨rfl, rfl⟩ := List.cons.inj heq
      obtain ⟨ms₁, ms₂, r, rfl, hscan, hmore, hbs, hr⟩ :=
        ih (fun m' hm' => hms m' (List.mem_cons_of_mem _ hm')) hrest
      have hscan' : F.scan bs = (m :: ms₁, .rest r) := by rw [scan_ok hnext, hscan]
      exact ⟨m :: ms₁, ms₂, r, rfl, hscan', hmore, (h.flatMap_scan hscan').symm, hr⟩

/-- Of the first `n` bytes that these messages are written in, those behind the last complete
message. -/
def unread (enc : M → List UInt8) : List M → Nat → Nat
  | [], n => n
  | m :: ms, n => if (enc m).length ≤ n then unread enc ms (n - (enc m).length) else n

theorem unread_append (ms₁ ms₂ : List M) (n : Nat) :
    unread enc (ms₁ ++ ms₂) ((ms₁.flatMap enc).length + n) = unread enc ms₂ n := by
  induction ms₁ with
  | nil => simp
  | cons m ms₁ ih =>
    rw [List.cons_append, unread, List.flatMap_cons, List.length_append, if_pos (by omega)]
    rw [show (enc m).length + (ms₁.flatMap enc).length + n - (enc m).length =
      (ms₁.flatMap enc).length + n by omega]
    exact ih

/-- The beginning of a message is not read yet. -/
theorem Codec.unread_of_more (h : F.Codec enc ok) {r cs : List UInt8} {ms : List M}
    (hms : ∀ m ∈ ms, ok m) (hmore : F.next r = .more) (hs : r ++ cs = ms.flatMap enc) :
    unread enc ms r.length = r.length := by
  cases ms with
  | nil => rfl
  | cons m ms =>
    rw [unread, if_neg]
    intro hle
    have hpre : enc m <+: r := by
      have hwhole : enc m <+: r ++ cs := by
        rw [hs, List.flatMap_cons]
        exact List.prefix_append ..
      exact List.prefix_of_prefix_length_le hwhole (List.prefix_append ..) hle
    obtain ⟨rest, rfl⟩ := hpre
    rw [h.next_enc rest (hms m List.mem_cons_self)] at hmore
    cases hmore

/-- A bounded buffer that reads to the end has read everything. -/
theorem Codec.flatMap_receive (h : F.Codec enc ok) {capacity : Nat} {buf rest : List UInt8}
    {cs : List (List UInt8)} {ms : List M} (hr : F.receive capacity buf cs = (ms, .rest rest)) :
    ms.flatMap enc ++ rest = buf ++ cs.flatten := by
  induction cs generalizing buf ms with
  | nil =>
    cases hr
    exact (List.append_nil _).symm
  | cons c cs ih =>
    rw [receive] at hr
    by_cases hfull : capacity < buf.length + c.length
    · rw [if_pos hfull] at hr
      cases hr
    rw [if_neg hfull] at hr
    rcases F.scan_stops (buf ++ c) with ⟨ms₁, r, hs, -⟩ | ⟨ms₁, e, hs, -⟩
    · rw [hs] at hr
      obtain ⟨rfl, hend⟩ := Prod.mk.inj hr
      rw [List.flatMap_append, List.append_assoc, ih (Prod.ext rfl hend), ← List.append_assoc,
        h.flatMap_scan hs, List.append_assoc]
      rfl
    · rw [hs] at hr
      cases hr

/-- **A bounded buffer reads what was written if and only if every piece fits** behind what the
pieces before it have left in the buffer. -/
theorem Codec.receive_iff (h : F.Codec enc ok) {capacity : Nat} {buf : List UInt8}
    {cs : List (List UInt8)} {ms : List M} (hms : ∀ m ∈ ms, ok m) (hbuf : F.next buf = .more)
    (hs : buf ++ cs.flatten = ms.flatMap enc) :
    F.receive capacity buf cs = (ms, .rest []) ↔ ∀ pre c post, cs = pre ++ c :: post →
      unread enc ms (buf.length + pre.flatten.length) + c.length ≤ capacity := by
  induction cs generalizing buf ms with
  | nil =>
    rw [List.flatten_nil, List.append_nil] at hs
    have hscan := h.scan_flatMap hms
    rw [← hs, scan_more hbuf] at hscan
    rw [receive, ← hscan]
    exact ⟨fun _ pre c post heq => absurd heq (by simp), fun _ => rfl⟩
  | cons c cs ih =>
    have hfirst := h.unread_of_more hms hbuf hs
    rw [receive]
    by_cases hfull : capacity < buf.length + c.length
    · rw [if_pos hfull]
      refine ⟨nofun, fun hfits => ?_⟩
      have hle := hfits [] c cs rfl
      rw [List.flatten_nil, List.length_nil, Nat.add_zero, hfirst] at hle
      exact absurd hfull hle.not_gt
    · rw [if_neg hfull]
      rw [List.flatten_cons, ← List.append_assoc] at hs
      obtain ⟨ms₁, ms₂, r, rfl, hscan, hmore, hbs, hr⟩ := h.scan_part hms hs
      have ih := ih (fun m hm => hms m (List.mem_append_right _ hm)) hmore hr
      have hshift : ∀ n, unread enc (ms₁ ++ ms₂) ((buf ++ c).length + n) =
          unread enc ms₂ (r.length + n) := by
        intro n
        rw [hbs, List.length_append, Nat.add_assoc, unread_append]
      have hpre : ∀ pre : List (List UInt8),
          unread enc (ms₁ ++ ms₂) (buf.length + (c :: pre).flatten.length) =
            unread enc ms₂ (r.length + pre.flatten.length) := by
        intro pre
        rw [← hshift, List.flatten_cons, List.length_append, List.length_append, Nat.add_assoc]
      rw [hscan]
      dsimp only
      constructor
      · intro hreceive pre c' post hcs
        obtain ⟨hms₂, hend⟩ := Prod.mk.inj hreceive
        have hrest := ih.1 (Prod.ext (List.append_cancel_left hms₂) hend)
        cases pre with
        | nil =>
          obtain ⟨rfl, rfl⟩ := List.cons.inj hcs
          rw [List.flatten_nil, List.length_nil, Nat.add_zero, hfirst]
          exact Nat.le_of_not_lt hfull
        | cons c₀ pre =>
          obtain ⟨rfl, htail⟩ := List.cons.inj hcs
          rw [hpre]
          exact hrest pre c' post htail
      · intro hfits
        have hrest := ih.2 fun pre c' post hcs => by
          rw [← hpre]
          exact hfits (c :: pre) c' post (by rw [hcs, List.cons_append])
        rw [hrest]

end Codec

end Framing

end Velox
