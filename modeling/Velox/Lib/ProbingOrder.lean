import Velox.Lib.Probing

/-!
# Where linear probing puts an entry

An entry that is inserted goes to the first slot of its probe sequence that no earlier entry has. So
in a table that was filled in some order, the slots that an entry's probe sequence passes hold
entries that come before it in that order (`Ranked`). This determines the table (`Ranked.eq`),
and the backward shift of a deletion keeps it (`Ranked.erase`): an entry that moves into the hole
was on the way of every entry that the hole is on the way of. So a deletion leaves the table as if
the key had never been inserted (`Ranked.eq_replay`).
-/

namespace Velox.Probing.Table

variable {K V : Type}

/-- The table holds the entries of `order`, and an entry was put where it is after those that its
probe sequence passes. -/
structure Ranked (hash : K → Nat) (t : Table K V) (order : List (K × V)) : Prop where
  inv : t.Inv hash
  outside : ∀ i, t.capacity ≤ i → t.slots i = none
  nodup : (order.map Prod.fst).Nodup
  size : t.size = order.length
  mem : ∀ k v, t.Mem k v ↔ (k, v) ∈ order
  path : ∀ d < t.capacity, ∀ b : K × V, t.slots ((t.home hash b.1 + d) % t.capacity) = some b →
    ∀ m < d, ∃ b', t.slots ((t.home hash b.1 + m) % t.capacity) = some b' ∧ [b', b].Sublist order

variable {hash : K → Nat} {t t' : Table K V} {order : List (K × V)}

theorem ranked_empty (hash : K → Nat) (n : Nat) : (empty (2 ^ n) : Table K V).Ranked hash [] where
  inv := inv_empty hash n
  outside := by simp [empty]
  nodup := by simp
  size := rfl
  mem := by simp [Mem, empty]
  path := by simp [empty]

/-! ## Insertion -/

theorem Ranked.absent (h : t.Ranked hash order) {k : K} (hk : k ∉ order.map Prod.fst) (v : V) :
    ¬ t.Mem k v :=
  fun hmem => hk (List.mem_map.2 ⟨(k, v), (h.mem k v).1 hmem, rfl⟩)

/-- **A fresh key comes last.** -/
theorem Ranked.insert [DecidableEq K] (h : t.Ranked hash order) (hfull : t.size < t.capacity)
    {k : K} (hk : k ∉ order.map Prod.fst) (v : V) :
    ∃ t', t.insert hash k v = (true, t') ∧ t'.capacity = t.capacity ∧
      t'.Ranked hash (order ++ [(k, v)]) := by
  have habs := h.absent hk
  obtain ⟨p, hp, hempty, hreach, hprobe⟩ := probe_absent h.inv hfull habs
  refine ⟨t.place p k v, by rw [Table.insert, hprobe], rfl, ?_⟩
  -- The slots that a probe sequence passes are not the one that was empty.
  have hkeep : ∀ {i b}, t.slots i = some b → (t.place p k v).slots i = some b := by
    intro i b hib
    rw [place_slots_ne (by rintro rfl; rw [hempty] at hib; cases hib), hib]
  refine ⟨place_inv habs h.inv hp hempty hreach, ?_, ?_, ?_, ?_, ?_⟩
  · intro i hi
    have hi : t.capacity ≤ i := hi
    rw [place_slots_ne (by omega), h.outside i hi]
  · rw [List.map_append, List.nodup_append]
    refine ⟨h.nodup, by simp, ?_⟩
    intro a ha b hb
    obtain rfl : b = k := by simpa using hb
    exact fun heq => hk (heq ▸ ha)
  · rw [List.length_append, List.length_singleton, ← h.size]
    rfl
  · intro k' v'
    rw [place_mem hp hempty, h.mem, List.mem_append, List.mem_singleton, Prod.mk.injEq, or_comm]
  · intro d hd b hb m hm
    have hd : d < t.capacity := hd
    change ∃ b', (t.place p k v).slots ((t.home hash b.1 + m) % t.capacity) = some b' ∧ _
    have hb : (t.place p k v).slots ((t.home hash b.1 + d) % t.capacity) = some b := hb
    by_cases hslot : (t.home hash b.1 + d) % t.capacity = p
    · -- The new entry: all that it passes was there before.
      rw [hslot, place_slots_self] at hb
      cases hb
      obtain ⟨d', hd', hd'p, hocc⟩ := hreach
      obtain rfl : d = d' := offset_inj (home_lt h.inv.pow k) hd hd' (hslot.trans hd'p.symm)
      cases hpass : t.slots ((t.home hash k + m) % t.capacity) with
      | none => exact absurd hpass (hocc m hm)
      | some b' =>
        have hmem : b' ∈ order :=
          (h.mem b'.1 b'.2).1 ⟨_, Nat.mod_lt _ (capacity_pos h.inv.pow), hpass⟩
        exact ⟨b', hkeep hpass, (List.singleton_sublist.2 hmem).append (List.Sublist.refl _)⟩
    · rw [place_slots_ne hslot] at hb
      obtain ⟨b', hpass, hbefore⟩ := h.path d hd b hb m hm
      exact ⟨b', hkeep hpass, hbefore.trans (List.sublist_append_left ..)⟩

/-! ## Deletion -/

/-- During the walk, but for the hole: what an entry passes was there before it. -/
structure Earlier (hash : K → Nat) (t : Table K V) (order : List (K × V)) (i₀ : Nat)
    (f : Nat → Option (K × V)) (h : Nat) : Prop where
  outside : ∀ i, t.capacity ≤ i → f i = none
  path : ∀ x < t.capacity, x ≠ h → ∀ b, f ((i₀ + x) % t.capacity) = some b →
    ∀ a < t.capacity, t.home hash b.1 = (i₀ + a) % t.capacity →
      ∀ y < t.capacity, OnPath a x y → y ≠ h →
        ∃ b', f ((i₀ + y) % t.capacity) = some b' ∧ [b', b].Sublist order

theorem Ranked.earlier (h : t.Ranked hash order) (i₀ : Nat) :
    Earlier hash t order i₀ t.slots 0 := by
  refine ⟨h.outside, ?_⟩
  intro x hx _ b hb a ha hab y hy hon _
  obtain ⟨d, hd, hdx⟩ := exists_offset ha hx
  obtain ⟨m, hm, hmy⟩ := step_of_onPath ha hd hdx hy hon
  have hpath := h.path d hd b
  rw [hab, offset_add, hdx] at hpath
  obtain ⟨b', hb', hbefore⟩ := hpath hb m hm
  rw [offset_add, hmy] at hb'
  exact ⟨b', hb', hbefore⟩

section Walk

variable {i₀ e h s : Nat} {k₀ : K} {f : Nat → Option (K × V)}

/-- An entry moves into the hole. The entries that pass the hole have passed the slot it comes
from. -/
theorem Earlier.move (q : Earlier hash t order i₀ f h) (w : Shifting hash t i₀ e k₀ f h s)
    (hi₀ : i₀ < t.capacity) (he : e < t.capacity) (hfe : f ((i₀ + e) % t.capacity) = none)
    (hse : s + 1 < e) {k : K} {v : V} (hf : f ((i₀ + (s + 1)) % t.capacity) = some (k, v)) {a : Nat}
    (ha : a < t.capacity) (hak : t.home hash k = (i₀ + a) % t.capacity)
    (hon : OnPath a (s + 1) h) :
    Earlier hash t order i₀ (Function.update f ((i₀ + h) % t.capacity) (some (k, v))) (s + 1) := by
  have hle := w.hole_le
  have hat : ∀ {x}, x < t.capacity → x ≠ h →
      Function.update f ((i₀ + h) % t.capacity) (some (k, v)) ((i₀ + x) % t.capacity) =
        f ((i₀ + x) % t.capacity) := fun hx hxh =>
    Function.update_of_ne (fun heq => hxh (offset_inj hi₀ hx (by omega) heq)) _ _
  refine ⟨?_, ?_⟩
  · intro i hi
    have hlt : (i₀ + h) % t.capacity < t.capacity := Nat.mod_lt _ (by omega)
    rw [Function.update_of_ne (by omega), q.outside i hi]
  · intro x hx hxs b hb a' ha' hab y hy hony hys
    by_cases hxh : x = h
    · -- The entry that has moved: its way is the part of the old one before the hole.
      subst hxh
      rw [Function.update_self] at hb
      cases hb
      obtain rfl : a' = a := offset_inj hi₀ ha' ha (hab.symm.trans hak)
      have hold : OnPath a' (s + 1) y := by
        rw [OnPath] at hony hon ⊢
        split at hony <;> split at hon <;> split <;> omega
      have hyx : y ≠ x := by
        rw [OnPath] at hony
        split at hony <;> omega
      rw [hat hy hyx]
      exact q.path (s + 1) (by omega) (by omega) (k, v) hf a' ha' hab y hy hold hyx
    · rw [hat hx hxh] at hb
      by_cases hyh : y = h
      · -- The hole was on the way, so the slot behind it is.
        subst hyh
        obtain ⟨a'', ha'', hab'', hpath⟩ := w.reach x hx hxh b.1 b.2 hb
        obtain rfl : a'' = a' := offset_inj hi₀ ha'' ha' (hab''.symm.trans hab)
        have hxlt : s + 1 < x ∧ x < e := by
          by_contra hno
          have hxe : x ≠ e := by
            rintro rfl
            rw [hfe] at hb
            cases hb
          exact w.path_avoids he hfe (by omega) hpath (by omega) (Or.inl rfl) hony
        have hons : OnPath a'' x (s + 1) := by
          rw [OnPath] at hony ⊢
          split at hony <;> split <;> omega
        obtain ⟨b', hb', hbefore⟩ :=
          q.path x hx hxh b hb a'' ha' hab (s + 1) (by omega) hons (by omega)
        rw [hf] at hb'
        cases hb'
        exact ⟨(k, v), Function.update_self .., hbefore⟩
      · rw [hat hy hyh]
        exact q.path x hx hxh b hb a' ha' hab y hy hony hyh

/-- The walk is over and the hole is emptied: no way runs through it. -/
theorem Earlier.finish (q : Earlier hash t order i₀ f h) (w : Shifting hash t i₀ e k₀ f h s)
    (hi₀ : i₀ < t.capacity) (he : e < t.capacity) (hfe : f ((i₀ + e) % t.capacity) = none)
    (hse : s + 1 = e) {d : Nat} {b : K × V}
    (hb : Function.update f ((i₀ + h) % t.capacity) none
      ((t.home hash b.1 + d) % t.capacity) = some b) (hd : d < t.capacity) {m : Nat} (hm : m < d) :
    ∃ b', Function.update f ((i₀ + h) % t.capacity) none
      ((t.home hash b.1 + m) % t.capacity) = some b' ∧ [b', b].Sublist order := by
  have hle := w.hole_le
  have hat : ∀ {x}, x < t.capacity → x ≠ h →
      Function.update f ((i₀ + h) % t.capacity) none ((i₀ + x) % t.capacity) =
        f ((i₀ + x) % t.capacity) := fun hx hxh =>
    Function.update_of_ne (fun heq => hxh (offset_inj hi₀ hx (by omega) heq)) _ _
  have hlt : ∀ x, x % t.capacity < t.capacity := fun x => Nat.mod_lt _ (by omega)
  obtain ⟨x, hx, hslot⟩ := exists_offset hi₀ (hlt (t.home hash b.1 + d))
  rw [← hslot] at hb
  have hxh : x ≠ h := by
    intro heq
    rw [heq, Function.update_self] at hb
    cases hb
  rw [hat hx hxh] at hb
  obtain ⟨a, ha, hab, hpath⟩ := w.reach x hx hxh b.1 b.2 hb
  rw [hab, offset_add] at hslot
  have hdx : (a + d) % t.capacity = x := (offset_inj hi₀ hx (hlt _) hslot).symm
  have hon : OnPath a x ((a + m) % t.capacity) := onPath_of_step ha hd hdx hm
  have hmiss : (a + m) % t.capacity ≠ h := by
    intro heq
    have hxe : x ≠ e := by
      intro hxe
      rw [hxe, hfe] at hb
      cases hb
    exact w.path_avoids he hfe (by omega) hpath (by omega) (Or.inl heq) hon
  rw [hab, offset_add, hat (hlt _) hmiss]
  exact q.path x hx hxh b hb a ha hab _ (hlt _) hon hmiss

end Walk

theorem filter_key_length [DecidableEq K] {k : K} {v : V} (hnodup : (order.map Prod.fst).Nodup)
    (hmem : (k, v) ∈ order) :
    (order.filter fun b => decide (b.1 ≠ k)).length = order.length - 1 := by
  have hone : order.countP (fun b => decide (b.1 = k)) = 1 := by
    have hcount : (order.map Prod.fst).count k = 1 :=
      List.count_eq_one_of_mem hnodup (List.mem_map.2 ⟨(k, v), hmem, rfl⟩)
    rw [List.count, List.countP_map] at hcount
    rw [← hcount]
    exact List.countP_congr fun b _ => by simp
  have hsplit := List.length_eq_countP_add_countP (fun b : K × V => decide (b.1 = k)) (l := order)
  rw [← List.countP_eq_length_filter, hsplit, hone]
  simp

/-- **A deletion takes the entry out of the order.** -/
theorem Ranked.erase [DecidableEq K] (h : t.Ranked hash order) (hfull : t.size < t.capacity) {k : K}
    {v : V} (hmem : (k, v) ∈ order) :
    ∃ t', t.erase hash k = some (true, t') ∧ t'.capacity = t.capacity ∧
      t'.Ranked hash (order.filter fun b => decide (b.1 ≠ k)) := by
  obtain ⟨i, hi, hiv⟩ := (h.mem k v).2 hmem
  obtain ⟨e, he, hempty, hocc, hwalk⟩ := erase_walk h.inv hfull hi hiv
  have hlt : ∀ x, x % t.capacity < t.capacity := fun x => Nat.mod_lt _ (by omega)
  have hend : ∀ {f h' s}, Shifting hash t i e k f h' s → f ((i + e) % t.capacity) = none :=
    fun w => (w.occ _ (hlt _)).2 hempty
  obtain ⟨f, hole, s, hse, w, q, herase⟩ := hwalk (Earlier hash t order i)
    (fun w hse hf ha hak hon q => q.move w hi he (hend w) hse hf ha hak hon) (h.earlier i)
  have hle := w.hole_le
  obtain ⟨hinv, hmem'⟩ := w.finish h.inv hi he (hend w) hse (hocc hole (by omega))
  refine ⟨_, herase, rfl, hinv, ?_, ?_, ?_, ?_, ?_⟩
  · intro j hj
    have hj : t.capacity ≤ j := hj
    have hne : j ≠ (i + hole) % t.capacity := by
      have := hlt (i + hole)
      omega
    exact (Function.update_of_ne hne _ _).trans (q.outside j hj)
  · exact h.nodup.sublist (List.filter_sublist.map _)
  · rw [filter_key_length h.nodup hmem, ← h.size]
  · intro k' v'
    rw [hmem', h.mem, List.mem_filter, decide_eq_true_eq]
  · intro d hd b hb m hm
    obtain ⟨b', hpass, hbefore⟩ := q.finish w hi he (hend w) hse hb hd hm
    refine ⟨b', hpass, ?_⟩
    -- Neither of the two is the deleted entry.
    have hb1 := ((hmem' b.1 b.2).1 ⟨_, hlt _, hb⟩).2
    have hb2 := ((hmem' b'.1 b'.2).1 ⟨_, hlt _, hpass⟩).2
    have := hbefore.filter (fun c => decide (c.1 ≠ k))
    simpa [hb1, hb2] using this

/-- Deleting a key that is not there changes nothing. -/
theorem Ranked.erase_absent [DecidableEq K] (h : t.Ranked hash order) (hfull : t.size < t.capacity)
    {k : K} (hk : k ∉ order.map Prod.fst) : t.erase hash k = some (false, t) := by
  obtain ⟨p, -, -, -, hprobe⟩ := probe_absent h.inv hfull (h.absent hk)
  rw [Table.erase, hprobe]

/-! ## The order determines the table -/

/-- In a list without repetitions, what comes before an element is in the part before it. -/
theorem mem_of_pair_sublist {α : Type} {pre post : List α} {b b' : α}
    (hnodup : (pre ++ b :: post).Nodup) (hpair : [b', b].Sublist (pre ++ b :: post)) : b' ∈ pre := by
  rw [List.nodup_append, List.nodup_cons] at hnodup
  obtain ⟨-, ⟨hpost, -⟩, hdisj⟩ := hnodup
  obtain ⟨l₁, l₂, hl, h₁, h₂⟩ := List.sublist_append_iff.1 hpair
  match l₁, hl with
  | [], hl =>
    rw [List.nil_append] at hl
    rw [← hl] at h₂
    exact absurd ((List.cons_sublist_cons'.1 h₂).elim (fun h => h.subset (by simp))
      fun h => h.2.subset (by simp)) hpost
  | c :: l₁, hl =>
    rw [List.cons_append, List.cons.injEq] at hl
    exact h₁.subset (by simp [hl.1])

/-- An entry does not sit further from home in one table than in the other, when the entries before
it sit in the same slots. -/
theorem Ranked.offset_le (h : t.Ranked hash order) (h' : t'.Ranked hash order)
    (hcap : t'.capacity = t.capacity) {pre post : List (K × V)} {b : K × V}
    (horder : order = pre ++ b :: post)
    (hpre : ∀ c ∈ pre, ∀ i < t.capacity, t'.slots i = some c → t.slots i = some c) {d d' : Nat}
    (hd : t.slots ((t.home hash b.1 + d) % t.capacity) = some b) (hd' : d' < t.capacity)
    (hd'b : t'.slots ((t.home hash b.1 + d') % t.capacity) = some b) : d' ≤ d := by
  by_contra hlt
  have hhome : t'.home hash b.1 = t.home hash b.1 := by rw [home, home, wrap, wrap, hcap]
  have hpath := h'.path d' (by omega) b
  rw [hhome, hcap] at hpath
  obtain ⟨c, hc, hbefore⟩ := hpath hd'b d (by omega)
  have hnodup : order.Nodup := h.nodup.of_map
  rw [horder] at hbefore hnodup
  have hcpre := mem_of_pair_sublist hnodup hbefore
  have hsame := hpre c hcpre _ (Nat.mod_lt _ (by omega)) hc
  rw [hd] at hsame
  cases hsame
  exact (List.nodup_append.1 hnodup).2.2 b hcpre b (by simp) rfl

/-- The same entries in the same order: every entry is in the same slot. -/
theorem Ranked.slot_eq (h : t.Ranked hash order) (h' : t'.Ranked hash order)
    (hcap : t'.capacity = t.capacity) : ∀ (n : Nat) (pre post : List (K × V)) (b : K × V),
      pre.length = n → order = pre ++ b :: post →
      ∀ i < t.capacity, t.slots i = some b ↔ t'.slots i = some b := by
  intro n
  induction n using Nat.strong_induction_on with
  | _ n ih =>
    intro pre post b hn horder
    have hpre : ∀ c ∈ pre, ∀ i < t.capacity, t.slots i = some c ↔ t'.slots i = some c := by
      intro c hc
      obtain ⟨p₁, p₂, rfl⟩ := List.append_of_mem hc
      exact ih p₁.length (by simp [← hn]) p₁ (p₂ ++ b :: post) c rfl (by simp [horder])
    have hhome : t'.home hash b.1 = t.home hash b.1 := by rw [home, home, wrap, wrap, hcap]
    have hbmem : b ∈ order := by simp [horder]
    obtain ⟨i, hi, hib⟩ := (h.mem b.1 b.2).2 hbmem
    obtain ⟨j, hj, hjb⟩ := (h'.mem b.1 b.2).2 hbmem
    obtain ⟨d, hd, hdi, -⟩ := h.inv.reach i hi _ _ hib
    obtain ⟨d', hd', hdj, -⟩ := h'.inv.reach j hj _ _ hjb
    rw [hcap] at hd' hj
    change (t'.home hash b.1 + d') % t'.capacity = j at hdj
    rw [hhome, hcap] at hdj
    have hle := h.offset_le h' hcap horder (fun c hc i hi => (hpre c hc i hi).2) (d := d)
      (hdi.symm ▸ hib) hd' (hdj.symm ▸ hjb)
    have hge := h'.offset_le h hcap.symm horder (fun c hc i hi => (hpre c hc i (hcap ▸ hi)).1)
      (d := d') (by rw [hhome, hcap, hdj]; exact hjb) (show d < t'.capacity by omega)
      (by rw [hhome, hcap, hdi]; exact hib)
    obtain rfl : d' = d := by omega
    obtain rfl : i = j := hdi.symm.trans hdj
    intro x hx
    constructor
    · intro hxb
      rw [h.inv.uniq x hx i hi _ _ _ hxb hib]
      exact hjb
    · intro hxb
      rw [h'.inv.uniq x (by omega) i (by omega) _ _ _ hxb hjb]
      exact hib

/-- **The order determines the table.** -/
theorem Ranked.eq (h : t.Ranked hash order) (h' : t'.Ranked hash order)
    (hcap : t'.capacity = t.capacity) : t = t' := by
  have hslots : t.slots = t'.slots := by
    funext i
    by_cases hi : i < t.capacity
    · have hmem : ∀ {b}, b ∈ order → (t.slots i = some b ↔ t'.slots i = some b) := by
        intro b hb
        obtain ⟨pre, post, horder⟩ := List.append_of_mem hb
        exact h.slot_eq h' hcap _ pre post b rfl horder i hi
      ext b
      constructor
      · exact fun hb => (hmem ((h.mem b.1 b.2).1 ⟨i, hi, hb⟩)).1 hb
      · exact fun hb => (hmem ((h'.mem b.1 b.2).1 ⟨i, by omega, hb⟩)).2 hb
    · rw [h.outside i (by omega), h'.outside i (by omega)]
  have hsize : t.size = t'.size := h.size.trans h'.size.symm
  cases t
  cases t'
  simp only [mk.injEq]
  exact ⟨hcap.symm, hslots, hsize⟩

/-! ## Replaying the order -/

/-- The table that results from inserting the entries of a list, in its order. -/
def replay [DecidableEq K] (hash : K → Nat) (capacity : Nat) (order : List (K × V)) : Table K V :=
  order.foldl (fun t b => (t.insert hash b.1 b.2).2) (empty capacity)

theorem ranked_replay [DecidableEq K] (hash : K → Nat) (n : Nat) :
    ∀ order : List (K × V), (order.map Prod.fst).Nodup → order.length < 2 ^ n →
      (replay hash (2 ^ n) order).Ranked hash order ∧
        (replay hash (2 ^ n) order).capacity = 2 ^ n := by
  intro order
  induction order using List.reverseRecOn with
  | nil => exact fun _ _ => ⟨ranked_empty hash n, rfl⟩
  | append_singleton order b ih =>
    intro hnodup hlen
    rw [List.map_append, List.nodup_append] at hnodup
    rw [List.length_append, List.length_singleton] at hlen
    obtain ⟨hr, hcap⟩ := ih hnodup.1 (by omega)
    have hk : b.1 ∉ order.map Prod.fst := fun hmem => hnodup.2.2 b.1 hmem b.1 (by simp) rfl
    obtain ⟨t', hins, hcap', hr'⟩ := hr.insert (by rw [hr.size, hcap]; omega) hk b.2
    have hstep : replay hash (2 ^ n) (order ++ [b]) = t' := by
      rw [replay, List.foldl_append, ← replay]
      exact congrArg Prod.snd hins
    rw [hstep]
    exact ⟨hr', hcap'.trans hcap⟩

/-- **The table has no history**: it is the one that results from inserting its entries. -/
theorem Ranked.eq_replay [DecidableEq K] (h : t.Ranked hash order) {n : Nat}
    (hcap : t.capacity = 2 ^ n) (hfull : t.size < t.capacity) : t = replay hash (2 ^ n) order := by
  have hlen : order.length < 2 ^ n := by rw [← h.size, ← hcap]; exact hfull
  obtain ⟨hr, hcap'⟩ := ranked_replay hash n order h.nodup hlen
  exact h.eq hr (hcap'.trans hcap.symm)

end Velox.Probing.Table
