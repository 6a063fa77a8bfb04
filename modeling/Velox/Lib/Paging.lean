import Mathlib.Tactic

/-!
# Pages of a list

A list is given out in pages of at most `limit` items. A request names a key, `after`, and the page
has the first items of the list, in its order, whose key is beyond that one. The page says whether
there is more, and the key of its last item is the cursor for the next request.

A client that follows the cursor sees every item once just if the list is empty, or the limit is not
zero and, where one page ends and the next begins, the keys do as well (`complete_iff`): the items
up to there have keys up to that of the last, and those behind have keys beyond it.
-/

namespace Velox.Paging

structure Page (α : Type) where
  items : List α
  lastKey : Int
  hasMore : Bool

variable {α : Type} (key : α → Int)

/-- The loop over the list. `emitted` items are on the page, the last one with key `last`. -/
def pageLoop (limit after : Int) : Int → Int → List α → Page α
  | _, last, [] => ⟨[], last, false⟩
  | emitted, last, x :: xs =>
    if key x ≤ after then pageLoop limit after emitted last xs
    else if limit ≤ emitted then ⟨[], last, true⟩
    else
      let p := pageLoop limit after (emitted + 1) (key x) xs
      { p with items := x :: p.items }

def page (limit after : Int) (xs : List α) : Page α := pageLoop key limit after 0 after xs

/-- The pages that a client gets that starts at `after` and follows the cursor, in at most `n`
requests; `none` if there is more after that. -/
def follow (limit : Int) (xs : List α) : Nat → Int → Option (List (List α))
  | 0, _ => none
  | n + 1, after =>
    let p := page key limit after xs
    if p.hasMore then (follow limit xs n p.lastKey).map (p.items :: ·) else some [p.items]

/-- The client is done after some requests, and it has seen every item once. -/
def Complete (limit : Int) (xs : List α) (after : Int) : Prop :=
  ∃ n pages, follow key limit xs n after = some pages ∧ pages.flatten.Perm xs

/-- Where a page of `L` items ends, the keys up to there do not pass that of its last item, and
those behind do. -/
structure Orderly (after : Int) (L : Nat) (xs : List α) : Prop where
  above : ∀ x ∈ xs, after < key x
  split : ∀ m b, 0 < m → m < xs.length → L ∣ m → xs[m - 1]? = some b →
    (∀ x ∈ xs.take m, key x ≤ key b) ∧ ∀ x ∈ xs.drop m, key b < key x

variable {key} {limit after : Int} {xs : List α}

/-! ## One page -/

theorem pageLoop_eq {n : Nat} {emitted : Int} (h : emitted + n = limit) (last : Int)
    (xs : List α) : pageLoop key limit after emitted last xs =
      let ys := xs.filter fun x => decide (after < key x)
      ⟨ys.take n, ((ys.take n).getLast?.map key).getD last, decide (n < ys.length)⟩ := by
  induction xs generalizing n emitted last with
  | nil => simp [pageLoop]
  | cons x xs ih =>
    by_cases hx : key x ≤ after
    · rw [pageLoop, if_pos hx, ih h, List.filter_cons_of_neg (by simpa using hx)]
    · have hfilter : (x :: xs).filter (fun x => decide (after < key x)) =
          x :: xs.filter fun x => decide (after < key x) :=
        List.filter_cons_of_pos (by simpa using hx)
      rw [pageLoop, if_neg hx, hfilter]
      cases n with
      | zero => simp [show limit ≤ emitted by omega]
      | succ n =>
        rw [if_neg (by omega), ih (show emitted + 1 + n = limit by push_cast at h; omega)]
        simp only [List.take_succ_cons, List.getLast?_cons, Option.map_some, Option.getD_some,
          List.length_cons, Nat.add_lt_add_iff_right]
        cases ((xs.filter fun x => decide (after < key x)).take n).getLast? <;> rfl

theorem page_eq (L : Nat) (after : Int) (xs : List α) : page key L after xs =
    let ys := xs.filter fun x => decide (after < key x)
    ⟨ys.take L, ((ys.take L).getLast?.map key).getD after, decide (L < ys.length)⟩ :=
  pageLoop_eq (by omega) after xs

/-- Behind what was seen, the page is the front of the rest. -/
theorem filter_rest {done rest : List α} (hdone : ∀ x ∈ done, key x ≤ after)
    (hrest : ∀ x ∈ rest, after < key x) :
    (done ++ rest).filter (fun x => decide (after < key x)) = rest := by
  rw [List.filter_append, List.filter_eq_nil_iff.2 (by simpa using hdone),
    List.filter_eq_self.2 (by simpa using hrest), List.nil_append]

/-- The last item of a full page. -/
theorem getLast?_take {L : Nat} {ys : List α} (hpos : 0 < L) (hlen : L < ys.length) :
    ∃ b, ys[L - 1]? = some b ∧ (ys.take L).getLast? = some b := by
  refine ⟨ys[L - 1], List.getElem?_eq_getElem (by omega), ?_⟩
  rw [List.getLast?_take, if_neg (by omega), List.getElem?_eq_getElem (by omega)]
  rfl

/-! ## The keys are in order -/

theorem Orderly.drop {L : Nat} {rest : List α} {b : α} (h : Orderly key after L rest)
    (hpos : 0 < L) (hlen : L < rest.length) (hb : rest[L - 1]? = some b) :
    Orderly key (key b) L (rest.drop L) := by
  refine ⟨(h.split L b hpos hlen dvd_rfl hb).2, ?_⟩
  intro m c hm hlt hdvd hc
  rw [List.length_drop] at hlt
  rw [List.getElem?_drop] at hc
  obtain ⟨hle, hgt⟩ := h.split (L + m) c (by omega) (by omega) (Dvd.dvd.add dvd_rfl hdvd)
    (by rw [← hc]; congr 1; omega)
  refine ⟨fun x hx => hle x ?_, ?_⟩
  · rw [List.take_add]
    exact List.mem_append_right _ hx
  · rwa [List.drop_drop]

theorem follow_orderly {L : Nat} (hpos : 0 < L) (xs : List α) :
    ∀ (k : Nat) (done rest : List α) (after : Int), rest.length = k → xs = done ++ rest →
      (∀ x ∈ done, key x ≤ after) → Orderly key after L rest →
      ∃ n pages, follow key L xs n after = some pages ∧ pages.flatten = rest := by
  intro k
  induction k using Nat.strong_induction_on with
  | _ k ih =>
    intro done rest after hk hxs hdone hord
    have hpage : page key L after xs = _ := page_eq L after xs
    rw [hxs, filter_rest hdone hord.above, ← hxs] at hpage
    by_cases hlen : L < rest.length
    · obtain ⟨b, hb, hlast⟩ := getLast?_take hpos hlen
      have hmem : b ∈ rest := List.mem_of_getElem? hb
      have hsplit := hord.split L b hpos hlen dvd_rfl hb
      obtain ⟨n, pages, hfollow, hflat⟩ := ih (rest.drop L).length
        (by rw [List.length_drop]; omega) (done ++ rest.take L) (rest.drop L) (key b) rfl
        (by rw [List.append_assoc, List.take_append_drop, hxs])
        (fun x hx => (List.mem_append.1 hx).elim
          (fun hx => (hdone x hx).trans (hord.above b hmem).le) (hsplit.1 x))
        (hord.drop hpos hlen hb)
      refine ⟨n + 1, rest.take L :: pages, ?_, ?_⟩
      · simp [follow, hpage, hlast, hlen, hfollow]
      · rw [List.flatten_cons, hflat, List.take_append_drop]
    · refine ⟨1, [rest.take L], ?_, ?_⟩
      · simp [follow, hpage, hlen]
      · simp [List.take_of_length_le (Nat.le_of_not_lt hlen)]

/-! ## The client sees everything -/

/-- What is seen has keys beyond the start. -/
theorem mem_follow {L : Nat} {n : Nat} {after : Int} {pages : List (List α)}
    (h : follow key L xs n after = some pages) : ∀ x ∈ pages.flatten, after < key x := by
  induction n generalizing after pages with
  | zero => cases h
  | succ n ih =>
    have hpage : page key L after xs = _ := page_eq L after xs
    set ys := xs.filter fun x => decide (after < key x)
    have hys : ∀ x ∈ ys.take L, after < key x := fun x hx => by
      simpa using (List.mem_filter.1 (List.mem_of_mem_take hx)).2
    have hlast : after ≤ ((ys.take L).getLast?.map key).getD after := by
      cases hl : (ys.take L).getLast? with
      | none => exact le_rfl
      | some b => exact (hys b (List.mem_of_getLast? hl)).le
    rw [follow, hpage] at h
    by_cases hmore : L < ys.length
    · simp only [hmore, decide_true, if_true, Option.map_eq_some_iff] at h
      obtain ⟨pages', hfollow, rfl⟩ := h
      intro x hx
      rw [List.flatten_cons, List.mem_append] at hx
      exact hx.elim (hys x) fun hx => hlast.trans_lt (ih hfollow x hx)
    · simp only [hmore, decide_false, Bool.false_eq_true, if_false, Option.some.injEq] at h
      rw [← h]
      simpa using hys

/-- Without items on its pages, the client never gets anywhere. -/
theorem follow_zero {after : Int} {x : α} (hx : x ∈ xs) (hkey : after < key x) (n : Nat) :
    follow key ((0 : Nat) : Int) xs n after = none := by
  have hpos : 0 < (xs.filter fun x => decide (after < key x)).length :=
    List.length_pos_of_mem (List.mem_filter.2 ⟨hx, by simpa using hkey⟩)
  induction n with
  | zero => rfl
  | succ n ih =>
    have hpage : page key ((0 : Nat) : Int) after xs = _ := page_eq 0 after xs
    rw [follow, hpage]
    simp only [hpos, decide_true, if_true, List.take_zero, List.getLast?_nil, Option.map_none,
      Option.getD_none, ih]

/-- What is on the first page is seen. -/
theorem mem_follow_of_first {L : Nat} {n : Nat} {after : Int} {pages : List (List α)}
    (h : follow key L xs n after = some pages) {x : α}
    (hx : x ∈ (xs.filter fun x => decide (after < key x)).take L) : x ∈ pages.flatten := by
  cases n with
  | zero => cases h
  | succ n =>
    have hpage : page key L after xs = _ := page_eq L after xs
    rw [follow, hpage] at h
    by_cases hmore : L < (xs.filter fun x => decide (after < key x)).length
    · simp only [hmore, decide_true, if_true, Option.map_eq_some_iff] at h
      obtain ⟨pages', -, rfl⟩ := h
      exact List.mem_append_left _ hx
    · simp only [hmore, decide_false, Bool.false_eq_true, if_false, Option.some.injEq] at h
      rw [← h]
      exact List.mem_append_left _ hx

/-- The keys of a page do not pass that of its last item, or the page would be seen again. -/
theorem take_le_of_follow {L n : Nat} {done rest : List α} {b : α} {pages : List (List α)}
    (hnodup : rest.Nodup) (hdone : ∀ x ∈ done, key x ≤ key b) (hpos : 0 < L)
    (hb : rest[L - 1]? = some b) (h : follow key L (done ++ rest) n (key b) = some pages)
    (hperm : pages.flatten.Perm (rest.drop L)) : ∀ x ∈ rest.take L, key x ≤ key b := by
  intro x hx
  by_contra hgt
  have hbmem : b ∈ rest.take L := by
    refine List.mem_of_getElem? (i := L - 1) ?_
    rw [List.getElem?_take, if_pos (by omega), hb]
  -- The page without `b` is shorter than a page.
  have hlen : ((rest.take L).filter fun x => decide (key b < key x)).length < L := by
    refine Nat.lt_of_lt_of_le (List.length_filter_lt_length_iff_exists.2 ⟨b, hbmem, by simp⟩) ?_
    exact (List.length_take_le L rest)
  have hfront : (done ++ rest).filter (fun x => decide (key b < key x)) =
      (rest.take L).filter (fun x => decide (key b < key x)) ++
        (rest.drop L).filter fun x => decide (key b < key x) := by
    rw [List.filter_append, List.filter_eq_nil_iff.2 (by simpa using hdone), List.nil_append,
      ← List.filter_append, List.take_append_drop]
  have hseen : x ∈ pages.flatten := by
    refine mem_follow_of_first h ?_
    rw [hfront, List.take_append, List.take_of_length_le hlen.le]
    exact List.mem_append_left _ (List.mem_filter.2 ⟨hx, by simpa using hgt⟩)
  exact List.disjoint_take_drop hnodup le_rfl hx (hperm.mem_iff.1 hseen)

theorem Orderly.of_drop {L : Nat} {rest : List α} {b : α} (habove : ∀ x ∈ rest, after < key x)
    (hfront : ∀ x ∈ rest.take L, key x ≤ key b) (hb : rest[L - 1]? = some b)
    (h : Orderly key (key b) L (rest.drop L)) : Orderly key after L rest := by
  refine ⟨habove, ?_⟩
  intro m c hm hlt hdvd hc
  obtain ⟨m, rfl⟩ := Nat.exists_eq_add_of_le (Nat.le_of_dvd hm hdvd)
  rcases Nat.eq_zero_or_pos m with rfl | hpos
  · rw [Nat.add_zero, hb] at hc
    cases hc
    exact ⟨hfront, h.above⟩
  · have hc' : (rest.drop L)[m - 1]? = some c := by
      rw [List.getElem?_drop, ← hc]
      congr 1
      omega
    obtain ⟨hle, hgt⟩ := h.split m c hpos (by rw [List.length_drop]; omega)
      ((Nat.dvd_add_right dvd_rfl).1 hdvd) hc'
    refine ⟨fun x hx => ?_, by rwa [List.drop_drop] at hgt⟩
    rw [List.take_add, List.mem_append] at hx
    exact hx.elim (fun hx => (hfront x hx).trans (h.above c (List.mem_of_getElem? hc')).le) (hle x)

/-- What the client has to see, when it starts behind `done`. -/
theorem orderly_of_follow {L : Nat} (xs : List α) (hnodup : xs.Nodup) :
    ∀ (n : Nat) (done rest : List α) (after : Int) (pages : List (List α)), xs = done ++ rest →
      (∀ x ∈ done, key x ≤ after) → follow key L xs n after = some pages →
      pages.flatten.Perm rest → Orderly key after L rest := by
  intro n
  induction n with
  | zero =>
    intro done rest after pages _ _ h
    cases h
  | succ n ih =>
    intro done rest after pages hxs hdone h hperm
    have habove : ∀ x ∈ rest, after < key x := fun x hx => mem_follow h x (hperm.mem_iff.2 hx)
    by_cases hmore : L < rest.length
    · rcases Nat.eq_zero_or_pos L with rfl | hpos
      · obtain ⟨x, hx⟩ := List.exists_mem_of_length_pos hmore
        rw [follow_zero (by rw [hxs]; exact List.mem_append_right _ hx) (habove x hx)] at h
        cases h
      · obtain ⟨b, hb, hlast⟩ := getLast?_take hpos hmore
        have hpage : page key L after xs = _ := page_eq L after xs
        rw [hxs, filter_rest hdone habove, ← hxs] at hpage
        rw [follow, hpage] at h
        simp only [hmore, decide_true, if_true, hlast, Option.map_some, Option.getD_some,
          Option.map_eq_some_iff] at h
        obtain ⟨pages', hfollow, rfl⟩ := h
        have hrest : pages'.flatten.Perm (rest.drop L) := by
          refine (List.perm_append_left_iff (rest.take L)).1 ?_
          rwa [List.take_append_drop]
        have hdone' : ∀ x ∈ done, key x ≤ key b := fun x hx =>
          (hdone x hx).trans (habove b (List.mem_of_getElem? hb)).le
        have hfront := take_le_of_follow (hxs ▸ hnodup).of_append_right hdone' hpos hb
          (hxs ▸ hfollow) hrest
        refine Orderly.of_drop habove hfront hb (ih (done ++ rest.take L) _ _ pages' ?_ ?_ hfollow
          hrest)
        · rw [List.append_assoc, List.take_append_drop, hxs]
        · exact fun x hx => (List.mem_append.1 hx).elim (hdone' x) (hfront x)
    · refine ⟨habove, fun m b hm hlt hdvd => ?_⟩
      have := Nat.le_of_dvd hm hdvd
      omega

/-- **The client sees every item once** just if there is none, or pages have items and they end
where the keys do. -/
theorem complete_iff (L : Nat) (hnodup : xs.Nodup) (after : Int) :
    Complete key L xs after ↔ xs = [] ∨ 0 < L ∧ Orderly key after L xs := by
  constructor
  · rintro ⟨n, pages, hfollow, hperm⟩
    rw [or_iff_not_imp_left]
    intro hne
    refine ⟨?_, orderly_of_follow xs hnodup n [] xs after pages rfl (by simp) hfollow hperm⟩
    rcases Nat.eq_zero_or_pos L with rfl | hpos
    · obtain ⟨x, hx⟩ := List.exists_mem_of_ne_nil xs hne
      rw [follow_zero hx (mem_follow hfollow x (hperm.mem_iff.2 hx))] at hfollow
      cases hfollow
    · exact hpos
  · rintro (rfl | ⟨hpos, hord⟩)
    · exact ⟨1, [[]], rfl, List.Perm.refl _⟩
    · obtain ⟨n, pages, hfollow, hflat⟩ :=
        follow_orderly hpos xs _ [] xs after rfl rfl (by simp) hord
      exact ⟨n, pages, hfollow, hflat ▸ List.Perm.refl _⟩

end Velox.Paging
