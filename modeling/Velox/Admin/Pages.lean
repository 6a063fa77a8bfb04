import Velox.Admin.Routes

/-!
# Following the cursor

A client reads a collection page by page: it sends the limit, and, from the second request on, the
cursor of the page before. Files are listed by name but the cursor is a number from their headers,
valid or not. So a page can end where the numbers do not, and what stands behind it is never seen,
or seen twice (`crawl_complete_iff`).
-/

namespace Velox.Admin

open Text Paging

inductive Collection where
  | instruments
  | segments (inst : InstrumentInfo)
  | snapshots (inst : InstrumentInfo)

namespace Collection

/-- What the handler lists. -/
def listed (root : Root) : Collection → Except StoError (List Item)
  | instruments => root.listInstruments.map (List.map .instrument)
  | segments inst => .ok (inst.listSegments.map .segment)
  | snapshots inst => .ok (inst.listSnapshots.map .snapshot)

end Collection

/-! ## The client -/

/-- `limit=N`, and `after=K` if there is a cursor. -/
def pageQuery (limit : List UInt8) : Option Int → List UInt8
  | none => text "limit=" ++ limit
  | some after => text "limit=" ++ limit ++ '&'.toUInt8 :: (text "after=" ++ decimalInt after)

/-- The cursor for the next request, if the answer says that there is more. -/
def cursorOf : Json → Option Int
  | .object members =>
    match Json.member members (text "has_more") with
    | some (.bool true) => (Json.member members (text "next_cursor")).bind Json.asInt
    | _ => none
  | _ => none

/-- The pages that a client gets in at most `n` requests; `none` if a request gets no answer or
there is more after that. -/
def crawl (root : Root) (c : Collection) (limit : List UInt8) :
    Nat → Option Int → Option (List (List Item))
  | 0, _ => none
  | n + 1, after =>
    match pageOf (pageQuery limit after) (c.listed root) with
    | .error _ => none
    | .ok p =>
      match cursorOf (pageBody p) with
      | none => some [p.items]
      | some cursor => (crawl root c limit n (some cursor)).map (p.items :: ·)

/-- The client is done after some requests, and it has seen every item that is listed once. -/
def SeesAll (root : Root) (c : Collection) (limit : List UInt8) : Prop :=
  ∃ all, c.listed root = .ok all ∧
    ∃ n pages, crawl root c limit n none = some pages ∧ pages.flatten.Perm all

/-! ## What the server reads in a query -/

theorem cursorOf_pageBody (p : Page Item) :
    cursorOf (pageBody p) = if p.hasMore then some p.lastKey else none := by
  have hnames : text "has_more" ≠ text "next_cursor" := by decide +kernel
  cases hmore : p.hasMore with
  | false => simp [cursorOf, pageBody, Json.member, hmore]
  | true => simp [cursorOf, pageBody, Json.member, hmore, hnames, Item.int, Json.asInt]

theorem mem_decimalInt {n : Int} {c : UInt8} (h : c ∈ decimalInt n) :
    isDigit c = true ∨ c = '-'.toUInt8 := by
  rw [decimalInt] at h
  split at h
  · rcases List.mem_cons.1 h with h | h
    · exact Or.inr h
    · exact Or.inl (isDigit_of_mem_decimal h)
  · exact Or.inl (isDigit_of_mem_decimal h)

/-- Neither digits nor a minus sign end a piece of a query. -/
theorem not_separator {s : List UInt8} (h : ∀ c ∈ s, isDigit c = true ∨ c = '-'.toUInt8) :
    '&'.toUInt8 ∉ s ∧ '='.toUInt8 ∉ s :=
  ⟨fun hmem => absurd (h _ hmem) (by decide), fun hmem => absurd (h _ hmem) (by decide)⟩

theorem queryPair_eq {key value : List UInt8} (hkey : '='.toUInt8 ∉ key) :
    queryPair (key ++ '='.toUInt8 :: value) = some (key, value) := by
  have hpieces := takeWhile_append_of (p := fun c => decide (c ≠ '='.toUInt8)) (a := key)
    (b := '='.toUInt8 :: value)
    (fun c hc => decide_eq_true fun heq : c = '='.toUInt8 => hkey (heq ▸ hc)) (by simp)
  rw [queryPair, if_pos (by simp), hpieces.1, hpieces.2]
  rfl

/-- Pairs with `&` between them are read one by one. -/
theorem parseQuery_join (pairs : List (List UInt8 × List UInt8)) (hne : pairs ≠ [])
    (h : ∀ p ∈ pairs, '&'.toUInt8 ∉ p.1 ∧ '='.toUInt8 ∉ p.1 ∧ '&'.toUInt8 ∉ p.2) :
    parseQuery (['&'.toUInt8].intercalate (pairs.map fun p => p.1 ++ '='.toUInt8 :: p.2)) =
      pairs := by
  rw [parseQuery, List.splitOn_intercalate]
  · rw [List.filterMap_map]
    refine (List.filterMap_congr fun p hp => ?_).trans List.filterMap_some
    exact queryPair_eq (h p hp).2.1
  · intro l hl
    obtain ⟨p, hp, rfl⟩ := List.mem_map.1 hl
    simp [(h p hp).1, (h p hp).2.2, show '&'.toUInt8 ≠ '='.toUInt8 by decide]
  · simpa using hne

section Query

variable {limit : List UInt8} (hdigits : ∀ c ∈ limit, isDigit c = true)

include hdigits

theorem parseQuery_first : parseQuery (pageQuery limit none) = [(text "limit", limit)] := by
  have hjoin := parseQuery_join [(text "limit", limit)] (by simp) (by
    simp only [List.forall_mem_singleton]
    exact ⟨by decide, by decide, (not_separator fun c hc => Or.inl (hdigits c hc)).1⟩)
  simpa [List.intercalate, pageQuery, text] using hjoin

theorem parseQuery_next (after : Int) : parseQuery (pageQuery limit (some after)) =
    [(text "limit", limit), (text "after", decimalInt after)] := by
  have hjoin := parseQuery_join [(text "limit", limit), (text "after", decimalInt after)]
    (by simp) (by
      simp only [List.forall_mem_cons, List.not_mem_nil, false_imp_iff, implies_true, and_true]
      exact ⟨⟨by decide, by decide, (not_separator fun c hc => Or.inl (hdigits c hc)).1⟩,
        by decide, by decide, (not_separator fun c hc => mem_decimalInt hc).1⟩)
  simpa [List.intercalate, pageQuery, text] using hjoin

end Query

/-- The server reads the cursor that it has sent. -/
theorem queryInt_after {q : List (List UInt8 × List UInt8)} {after : Int}
    (h : queryValue q "after" = some (decimalInt after)) (hlo : -1 ≤ after) (hhi : after < 2 ^ 63) :
    queryInt q "after" (-1) = .ok after := by
  rw [queryInt, h]
  by_cases hneg : after < 0
  · -- `-1` is not made of digits, so it is not read; it is also what is taken then.
    have hminus : isAllDigits (decimalInt after) = false := by
      rw [decimalInt, if_pos hneg, isAllDigits]
      simp [show isDigit '-'.toUInt8 = false by decide]
    simp only [hminus, Bool.false_eq_true, if_false, Except.ok.injEq]
    omega
  · have hwrite : decimalInt after = decimal after.natAbs := by rw [decimalInt, if_neg hneg]
    have hall : ∀ c ∈ decimal after.natAbs, isDigit c = true := fun c hc =>
      isDigit_of_mem_decimal hc
    rw [hwrite]
    simp only [isAllDigits_iff.2 ⟨decimal_ne_nil _, hall⟩, if_true]
    rw [stoll_of_digits (decimal_ne_nil _) hall, ofDigits_decimal, if_pos (by omega)]
    congr 1
    omega

/-! ## The pages of a collection -/

section Crawl

variable {root : Root} {c : Collection} {limit : List UInt8} {all : List Item}

/-- How many items a page has at most. -/
def pageSize (limit : List UInt8) : Nat := min (ofDigits 10 limit) 1000

theorem queryInt_limit {q : List (List UInt8 × List UInt8)} (hdigits : isAllDigits limit = true)
    (h : queryValue q "limit" = some limit) :
    queryInt q "limit" kDefaultLimit =
      if ofDigits 10 limit < 2 ^ 63 then .ok (ofDigits 10 limit) else .error .outOfRange := by
  obtain ⟨hne, hall⟩ := isAllDigits_iff.1 hdigits
  rw [queryInt, h]
  simp only [hdigits, if_true, stoll_of_digits hne hall]

/-- The page that the client gets for a cursor, or without one. -/
theorem pageOf_query (hdigits : isAllDigits limit = true) (hfits : ofDigits 10 limit < 2 ^ 63)
    {query : List UInt8} {after : Int}
    (hlimit : queryValue (parseQuery query) "limit" = some limit)
    (hafter : queryInt (parseQuery query) "after" (-1) = .ok after) :
    pageOf query (.ok all) = .ok (page Item.key (pageSize limit) after all) := by
  have hcap : min (ofDigits 10 limit : Int) kMaxLimit = (pageSize limit : Int) := by
    rw [pageSize, kMaxLimit]
    omega
  rw [pageOf, queryInt_limit hdigits hlimit, if_pos hfits, hafter]
  simp only [bind, Except.bind, pure, Except.pure, hcap]

theorem pageOf_first (hdigits : isAllDigits limit = true) (hfits : ofDigits 10 limit < 2 ^ 63) :
    pageOf (pageQuery limit none) (.ok all) = .ok (page Item.key (pageSize limit) (-1) all) := by
  have hparse := parseQuery_first (isAllDigits_iff.1 hdigits).2
  have hnames : text "limit" ≠ text "after" := by decide +kernel
  refine pageOf_query hdigits hfits ?_ ?_
  · simp [hparse, queryValue]
  · simp [hparse, queryInt, queryValue, hnames]

theorem pageOf_next (hdigits : isAllDigits limit = true) (hfits : ofDigits 10 limit < 2 ^ 63)
    {after : Int} (hlo : -1 ≤ after) (hhi : after < 2 ^ 63) :
    pageOf (pageQuery limit (some after)) (.ok all) =
      .ok (page Item.key (pageSize limit) after all) := by
  have hparse := parseQuery_next (isAllDigits_iff.1 hdigits).2 after
  have hnames : text "after" ≠ text "limit" := by decide +kernel
  refine pageOf_query hdigits hfits ?_ (queryInt_after ?_ hlo hhi)
  · simp [hparse, queryValue, hnames]
  · simp [hparse, queryValue]

/-- A page's cursor is that of the request or the key of an item. -/
theorem lastKey_bounds {L : Nat} {after : Int} (hkeys : ∀ x ∈ all, Item.key x < 2 ^ 63)
    (hlo : -1 ≤ after) (hhi : after < 2 ^ 63) :
    -1 ≤ (page Item.key L after all).lastKey ∧ (page Item.key L after all).lastKey < 2 ^ 63 := by
  rw [page_eq]
  simp only
  cases hlast : ((all.filter fun x => decide (after < x.key)).take L).getLast? with
  | none => exact ⟨hlo, hhi⟩
  | some b =>
    obtain ⟨hmem, hbeyond⟩ := List.mem_filter.1 (List.mem_of_mem_take (List.mem_of_getLast? hlast))
    have hbeyond : after < b.key := by simpa using hbeyond
    exact ⟨by simp only [Option.map_some, Option.getD_some]; omega, hkeys b hmem⟩

/-- The client follows the cursor. -/
theorem crawl_some (hdigits : isAllDigits limit = true) (hfits : ofDigits 10 limit < 2 ^ 63)
    (hall : c.listed root = .ok all) (hkeys : ∀ x ∈ all, Item.key x < 2 ^ 63) (n : Nat)
    {after : Int} (hlo : -1 ≤ after) (hhi : after < 2 ^ 63) :
    crawl root c limit n (some after) = follow Item.key (pageSize limit) all n after := by
  induction n generalizing after with
  | zero => rfl
  | succ n ih =>
    rw [crawl, hall, pageOf_next hdigits hfits hlo hhi, follow]
    simp only [cursorOf_pageBody]
    obtain ⟨hlo', hhi'⟩ := lastKey_bounds (L := pageSize limit) hkeys hlo hhi
    cases (page Item.key (pageSize limit) after all).hasMore with
    | false => rfl
    | true => simp only [if_true, ih hlo' hhi']

theorem crawl_none (hdigits : isAllDigits limit = true) (hfits : ofDigits 10 limit < 2 ^ 63)
    (hall : c.listed root = .ok all) (hkeys : ∀ x ∈ all, Item.key x < 2 ^ 63) (n : Nat) :
    crawl root c limit n none = follow Item.key (pageSize limit) all n (-1) := by
  cases n with
  | zero => rfl
  | succ n =>
    rw [crawl, hall, pageOf_first hdigits hfits, follow]
    simp only [cursorOf_pageBody]
    obtain ⟨hlo', hhi'⟩ := lastKey_bounds (L := pageSize limit) hkeys (le_refl (-1)) (by decide)
    cases (page Item.key (pageSize limit) (-1) all).hasMore with
    | false => rfl
    | true => simp only [if_true, crawl_some hdigits hfits hall hkeys n hlo' hhi']

/-- A limit that cannot be converted gets no answer. -/
theorem crawl_long (hdigits : isAllDigits limit = true) (hbig : ¬ ofDigits 10 limit < 2 ^ 63)
    (n : Nat) : crawl root c limit n none = none := by
  cases n with
  | zero => rfl
  | succ n =>
    have hlimit : queryValue (parseQuery (pageQuery limit none)) "limit" = some limit := by
      rw [parseQuery_first (isAllDigits_iff.1 hdigits).2]
      simp [queryValue]
    have hpage : pageOf (pageQuery limit none) (c.listed root) = .error .outOfRange := by
      rw [pageOf, queryInt_limit hdigits hlimit, if_neg hbig]
      rfl
    rw [crawl, hpage]

/-! ## What is listed -/

theorem seqOfU64_lt (x : UInt64) : seqOfU64 x < 2 ^ 63 := Int64.toInt_lt _

/-- A key fits the cursor. -/
theorem key_lt (hall : c.listed root = .ok all) : ∀ x ∈ all, Item.key x < 2 ^ 63 := by
  intro x hx
  cases c with
  | instruments =>
    rw [Collection.listed] at hall
    cases hlist : root.listInstruments with
    | error e => simp [hlist, Except.map] at hall
    | ok insts =>
      simp only [hlist, Except.map, Except.ok.injEq] at hall
      obtain ⟨inst, -, rfl⟩ := List.mem_map.1 (hall ▸ hx)
      have := inst.id.toNat_lt
      rw [Item.key]
      omega
  | segments inst =>
    cases hall
    obtain ⟨s, hs, rfl⟩ := List.mem_map.1 hx
    obtain ⟨e, -, rfl⟩ := List.mem_map.1 hs
    rw [Item.key, segmentInfo]
    split
    · exact seqOfU64_lt _
    · exact seqOfU64_lt 0
  | snapshots inst =>
    cases hall
    obtain ⟨s, hs, rfl⟩ := List.mem_map.1 hx
    obtain ⟨e, -, rfl⟩ := List.mem_map.1 hs
    rw [Item.key, snapshotInfo]
    split
    · split
      · exact seqOfU64_lt _
      · exact seqOfU64_lt 0
    · exact seqOfU64_lt 0

theorem shards_nodup (root : Root) : root.shards.Nodup := by
  have hfound : (root.subdirs.filterMap shardAt).Nodup := by
    refine root.nodup.of_map.filterMap fun d d' inst hd hd' => ?_
    simp only [shardAt, Option.mem_def, Option.map_eq_some_iff] at hd hd'
    obtain ⟨_, -, rfl⟩ := hd
    obtain ⟨_, -, heq⟩ := hd'
    simp only [InstrumentInfo.mk.injEq, Option.some.injEq] at heq
    exact Prod.ext heq.2.1.symm heq.2.2.symm
  rw [Root.shards]
  split
  · exact List.nodup_singleton _
  · exact hfound

/-- Files of one listing have different names. -/
theorem list_map_nodup {α : Type} (d : Storage.Directory FileName) (p : FileName → Bool)
    (f : FileName × Storage.File → α) (name : α → FileName) (h : ∀ e, name (f e) = e.1) :
    ((d.list p).map f).Nodup := by
  refine List.Nodup.of_map name ?_
  have hnames : ((d.list p).map f).map name = (d.list p).map Prod.fst := by
    rw [List.map_map]
    exact List.map_congr_left fun e _ => h e
  rw [hnames]
  exact List.pairwise_map.2 ((d.sorted_list p).imp fun hlt => hlt.ne)

theorem segmentInfo_fileName (f : Folder) (name : FileName) (file : Storage.File) :
    (segmentInfo f name file).fileName = name := by
  rw [segmentInfo]
  split <;> rfl

theorem snapshotInfo_fileName (f : Folder) (name : FileName) (file : Storage.File) :
    (snapshotInfo f name file).fileName = name := by
  rw [snapshotInfo]
  split
  · split <;> rfl
  · rfl

theorem listed_nodup (hall : c.listed root = .ok all) : all.Nodup := by
  cases c with
  | instruments =>
    rw [Collection.listed] at hall
    by_cases hconv : root.Convertible
    · obtain ⟨insts, hlist, hperm, -⟩ := Root.listInstruments_of_convertible hconv
      simp only [hlist, Except.map, Except.ok.injEq] at hall
      rw [← hall]
      refine (hperm.nodup_iff.2 (shards_nodup root)).map fun a b hab => ?_
      exact Item.instrument.inj hab
    · rw [Root.listInstruments_of_not_convertible hconv] at hall
      cases hall
  | segments inst =>
    cases hall
    refine List.Nodup.map (fun a b hab => Item.segment.inj hab) ?_
    exact list_map_nodup _ _ _ SegmentInfo.fileName fun e => segmentInfo_fileName _ e.1 e.2
  | snapshots inst =>
    cases hall
    refine List.Nodup.map (fun a b hab => Item.snapshot.inj hab) ?_
    exact list_map_nodup _ _ _ SnapshotInfo.fileName fun e => snapshotInfo_fileName _ e.1 e.2

/-! ## Every item is seen once -/

theorem seesAll_iff_complete (hdigits : isAllDigits limit = true)
    (hfits : ofDigits 10 limit < 2 ^ 63) (hall : c.listed root = .ok all) :
    SeesAll root c limit ↔ Complete Item.key (pageSize limit) all (-1) := by
  have hcrawl := crawl_none hdigits hfits hall (key_lt hall)
  constructor
  · intro ⟨all', hall', n, pages, hpages, hperm⟩
    cases hall.symm.trans hall'
    exact ⟨n, pages, hcrawl n ▸ hpages, hperm⟩
  · intro ⟨n, pages, hpages, hperm⟩
    exact ⟨all, hall, n, pages, (hcrawl n).trans hpages, hperm⟩

/-- **A client that follows the cursor sees every item once** just if the limit can be converted,
the collection can be listed, and it is empty or its pages have items and end where its keys do. -/
theorem crawl_complete_iff (root : Root) (c : Collection) (limit : List UInt8)
    (hdigits : isAllDigits limit = true) :
    SeesAll root c limit ↔ ofDigits 10 limit < 2 ^ 63 ∧ ∃ all, c.listed root = .ok all ∧
      (all = [] ∨ 0 < ofDigits 10 limit ∧ Orderly Item.key (-1) (pageSize limit) all) := by
  by_cases hfits : ofDigits 10 limit < 2 ^ 63
  · have hpos : 0 < pageSize limit ↔ 0 < ofDigits 10 limit := by
      rw [pageSize]
      omega
    constructor
    · intro hsees
      obtain ⟨all, hall⟩ : ∃ all, c.listed root = .ok all := hsees.imp fun _ h => h.1
      refine ⟨hfits, all, hall, ?_⟩
      rw [← hpos, ← complete_iff _ (listed_nodup hall)]
      exact (seesAll_iff_complete hdigits hfits hall).1 hsees
    · intro ⟨_, all, hall, hord⟩
      rw [seesAll_iff_complete hdigits hfits hall, complete_iff _ (listed_nodup hall), hpos]
      exact hord
  · constructor
    · intro ⟨all, _, n, pages, hpages, _⟩
      rw [crawl_long hdigits hfits] at hpages
      cases hpages
    · intro ⟨h, _⟩
      exact absurd h hfits

end Crawl

/-- A journal after a crash: the header of its second segment was not written. -/
def crashedShard : InstrumentInfo where
  id := 1
  path := some (text "shard-1")
  dirs.journalDir.files := (SortedMap.empty.put "seg-0000000000000001.jnl".toList
    ⟨SegmentHeader.encode { firstSeq := 1, createdCounter := 0 }, []⟩).put
      "seg-0000000000000002.jnl".toList ⟨[], []⟩
  dirs.journalDir.readable := fun _ => true
  dirs.snapshotDir := ⟨.empty, fun _ => true⟩

def crashedRoot : Root := ⟨[(text "shard-1", crashedShard.dirs)], none, by simp⟩

/-- The keys of the two segments are not in the order of their names. -/
theorem crashed_keys :
    (crashedShard.listSegments.map Item.segment).map Item.key = [1, 0] := by decide +kernel

theorem crawl_complete_iff_two :
    isAllDigits (text "2") = true ∧ SeesAll crashedRoot (.segments crashedShard) (text "2") := by
  have hdigits : isAllDigits (text "2") = true := by decide +kernel
  have hsize : ofDigits 10 (text "2") = 2 := by decide +kernel
  have hlen : (crashedShard.listSegments.map Item.segment).length = 2 := by
    rw [← List.length_map (f := Item.key), crashed_keys]
    rfl
  refine ⟨hdigits, (crawl_complete_iff _ _ _ hdigits).2
    ⟨by omega, _, rfl, Or.inr ⟨by omega, ?_, ?_⟩⟩⟩
  · intro x hx
    have hkey := List.mem_map_of_mem (f := Item.key) hx
    rw [crashed_keys] at hkey
    simp only [List.mem_cons, List.not_mem_nil, or_false] at hkey
    omega
  · -- The two segments are on one page.
    intro m b hm hlt hdvd
    have hle : 2 ≤ m := Nat.le_of_dvd hm (by rwa [pageSize, hsize] at hdvd)
    omega

/-- **A segment is never seen**: after the first segment, with key 1, the client asks for what is
beyond it, and the second segment has key 0. -/
theorem crashed_segment_unseen : isAllDigits (text "1") = true ∧
    ¬ SeesAll crashedRoot (.segments crashedShard) (text "1") := by
  have hdigits : isAllDigits (text "1") = true := by decide +kernel
  have hfits : ofDigits 10 (text "1") < 2 ^ 63 := by decide +kernel
  have hsize : pageSize (text "1") = 1 := by decide +kernel
  refine ⟨hdigits, fun hsees => ?_⟩
  have hcomplete := (seesAll_iff_complete hdigits hfits rfl).1 hsees
  rw [hsize, complete_iff 1 (@listed_nodup crashedRoot (.segments crashedShard) _ rfl)] at hcomplete
  obtain ⟨x, y, hlist⟩ : ∃ x y, crashedShard.listSegments.map Item.segment = [x, y] := by
    have hlen := congrArg List.length crashed_keys
    rw [List.length_map] at hlen
    exact List.length_eq_two.1 hlen
  have hkeys := crashed_keys
  rw [hlist] at hkeys hcomplete
  simp only [List.map_cons, List.map_nil, List.cons.injEq, and_true] at hkeys
  rcases hcomplete with hnil | ⟨-, hord⟩
  · cases hnil
  · have hbehind := (hord.split 1 x one_pos (by simp) dvd_rfl rfl).2 y (by simp)
    omega

end Velox.Admin
