import Velox.Admin.Jwt
import Velox.Admin.Store
import Velox.Lib.Paging

/-!
# The routes of the admin daemon

Following `admin/http_server.cpp` and `admin/routes.cpp`: a request is dispatched by its path, and
the handler reads its answer from the store. A text of digits passes the checks of the handlers
whatever its length. The conversions that follow throw for a long one, which nothing catches, or cut
the number to 32 bits, so that the answer is about another instrument (`dispatch_right_iff`).
-/

namespace Velox.Admin

open Text Paging

structure HttpRequest where
  method : List UInt8
  path : List UInt8
  query : List UInt8
  headers : List (List UInt8 × List UInt8)
  pathParams : List (List UInt8 × List UInt8)

structure HttpResponse where
  status : Nat
  body : Json

/-- What the handlers have at hand. -/
structure Server where
  store : Root
  jwtSecret : List UInt8
  revokedJti : List (List UInt8)
  now : Int

abbrev RouteHandler := Server → HttpRequest → Except StoError HttpResponse

def HttpResponse.error (status : Nat) (code : String) : HttpResponse :=
  ⟨status, .object [(text "error", .string (text code))]⟩

/-! ## Texts of a request -/

def kDefaultLimit : Int := 100

def kMaxLimit : Int := 1000

/-- `key=value`, or only a key. -/
def queryPair (pair : List UInt8) : Option (List UInt8 × List UInt8) :=
  if '='.toUInt8 ∈ pair then
    some (pair.takeWhile (· ≠ '='.toUInt8), (pair.dropWhile (· ≠ '='.toUInt8)).drop 1)
  else if pair ≠ [] then some (pair, [])
  else none

def parseQuery (query : List UInt8) : List (List UInt8 × List UInt8) :=
  (query.splitOn '&'.toUInt8).filterMap queryPair

/-- The value of a key. A later pair replaces an earlier one. -/
def queryValue (q : List (List UInt8 × List UInt8)) (key : String) : Option (List UInt8) :=
  (q.reverse.find? fun p => p.1 = text key).map Prod.snd

def isAllDigits (s : List UInt8) : Bool := s ≠ [] && s.all isDigit

def queryInt (q : List (List UInt8 × List UInt8)) (key : String) (default : Int) :
    Except StoError Int :=
  match queryValue q key with
  | none => .ok default
  | some s => if isAllDigits s then stoll 10 s else .ok default

def parseInstrumentId (raw : List UInt8) : Except StoError (Option UInt32) :=
  if isAllDigits raw then (stoul 10 raw).map fun n => some n.toUInt32 else .ok none

/-! ## Authorization -/

def kBearer : List UInt8 := text "Bearer "

def kValidRoles : List (List UInt8) := [text "ADMIN", text "OPERATIONS", text "READ_ONLY"]

/-- `none` if the request may pass, or the rejection. -/
def authorize (srv : Server) (req : HttpRequest) : Except StoError (Option HttpResponse) :=
  match req.headers.lookup (text "authorization") with
  | none => .ok (some (.error 401 "missing_bearer_token"))
  | some value =>
    if kBearer.isPrefixOf value then do
      let r ← verifyJwt (value.drop kBearer.length) srv.jwtSecret srv.now srv.revokedJti
      if r.ok = false then return some (.error 401 "invalid_token")
      else if r.roles.any kValidRoles.contains then return none
      else return some (.error 403 "insufficient_role")
    else .ok (some (.error 401 "missing_bearer_token"))

/-! ## Collections -/

inductive Item where
  | instrument (inst : InstrumentInfo)
  | segment (s : SegmentInfo)
  | snapshot (s : SnapshotInfo)

namespace Item

/-- What the pages go by. -/
def key : Item → Int
  | instrument inst => inst.id.toNat
  | segment s => s.firstSeq
  | snapshot s => s.globalSeq

def int (n : Int) : Json := .number n 0

def fileName (n : FileName) : Json := .string (n.map Char.toUInt8)

def json : Item → Json
  | instrument inst => .object [(text "id", int inst.id.toNat)]
  | segment s => .object [
      (text "file_name", fileName s.fileName),
      (text "first_seq", int s.firstSeq),
      (text "created_counter", int (seqOfU64 s.createdCounter)),
      (text "bytes", int s.bytes),
      (text "header_valid", .bool s.headerValid)]
  | snapshot s => .object [
      (text "file_name", fileName s.fileName),
      (text "global_seq", int s.globalSeq),
      (text "book_seq", int s.bookSeq),
      (text "order_count", int (seqOfU64 s.orderCount)),
      (text "bytes", int s.bytes),
      (text "crc_valid", .bool s.crcValid)]

end Item

/-- The page that a query asks for. -/
def pageOf (query : List UInt8) (listing : Except StoError (List Item)) :
    Except StoError (Page Item) := do
  let q := parseQuery query
  let limit ← queryInt q "limit" kDefaultLimit
  let after ← queryInt q "after" (-1)
  let all ← listing
  return page Item.key (min limit kMaxLimit) after all

def pageBody (p : Page Item) : Json := .object [
  (text "items", .array (p.items.map Item.json)),
  (text "next_cursor", if p.hasMore then Item.int p.lastKey else .null),
  (text "has_more", .bool p.hasMore)]

/-! ## Handlers -/

def healthz : RouteHandler := fun _ _ =>
  .ok ⟨200, .object [(text "status", .string (text "ok"))]⟩

def statusJson (inst : InstrumentInfo) : Json :=
  let st := inst.engineStatus
  .object [
    (text "instrument_id", Item.int inst.id.toNat),
    (text "last_good_seq", Item.int st.lastGoodSeq),
    (text "segment_count", Item.int st.segmentCount),
    (text "snapshot_count", Item.int st.snapshotCount),
    (text "newest_snapshot_seq", Item.int st.newestSnapshotSeq),
    (text "journal_bytes", Item.int st.journalBytes),
    (text "open_segment", .bool st.openSegment)]

/-- The handler of a route that asks for a token. -/
def authorized (answer : RouteHandler) : RouteHandler := fun srv req => do
  match ← authorize srv req with
  | some rejection => return rejection
  | none => answer srv req

def engineStatus : RouteHandler :=
  authorized fun srv _ => do
    let all ← srv.store.listInstruments
    return ⟨200, .object [
      (text "source", .string (text "disk")),
      (text "shards", .array (all.map statusJson))]⟩

def instruments : RouteHandler :=
  authorized fun srv req => do
    let p ← pageOf req.query (srv.store.listInstruments.map (List.map .instrument))
    return ⟨200, pageBody p⟩

/-- The instrument that the `id` of the path names, or the rejection. -/
def instrumentOf (srv : Server) (req : HttpRequest) :
    Except StoError (HttpResponse ⊕ InstrumentInfo) := do
  match ← parseInstrumentId ((req.pathParams.lookup (text "id")).getD []) with
  | none => return .inl (.error 400 "invalid_instrument_id")
  | some id =>
    match ← srv.store.findInstrument id with
    | none => return .inl (.error 404 "instrument_not_found")
    | some inst => return .inr inst

/-- What the two routes with an `id` have in common. -/
def collection (items : InstrumentInfo → List Item) : RouteHandler :=
  authorized fun srv req => do
    match ← instrumentOf srv req with
    | .inl rejection => return rejection
    | .inr inst =>
      let p ← pageOf req.query (.ok (items inst))
      return ⟨200, pageBody p⟩

def segments : RouteHandler :=
  collection fun inst => inst.listSegments.map .segment

def snapshots : RouteHandler :=
  collection fun inst => inst.listSnapshots.map .snapshot

/-! ## Dispatch -/

def splitPath (path : List UInt8) : List (List UInt8) :=
  (path.splitOn '/'.toUInt8).filter (· ≠ [])

/-- `{name}`. -/
def isParam (p : List UInt8) : Bool :=
  2 ≤ p.length && p.head? = some '{'.toUInt8 && p.getLast? = some '}'.toUInt8

/-- The parameters, if the path is of this pattern. -/
def matchPath : List (List UInt8) → List (List UInt8) → Option (List (List UInt8 × List UInt8))
  | [], [] => some []
  | p :: pattern, s :: actual =>
    if isParam p then (matchPath pattern actual).map ((p.tail.dropLast, s) :: ·)
    else if p = s then matchPath pattern actual
    else none
  | _, _ => none

/-- A pattern and what answers it. -/
abbrev Route := List (List UInt8) × RouteHandler

def routes : List Route := [
  (splitPath (text "/healthz"), healthz),
  (splitPath (text "/api/v1/engine/status"), engineStatus),
  (splitPath (text "/api/v1/instruments"), instruments),
  (splitPath (text "/api/v1/instruments/\x7bid\x7d/journal/segments"), segments),
  (splitPath (text "/api/v1/instruments/\x7bid\x7d/snapshots"), snapshots)]

/-- The loop over the routes. -/
def dispatchLoop (srv : Server) (req : HttpRequest) (actual : List (List UInt8)) :
    Bool → List Route → Except StoError HttpResponse
  | matched, [] => .ok (if matched then .error 405 "method_not_allowed" else .error 404 "not_found")
  | matched, (pattern, handler) :: rest =>
    match matchPath pattern actual with
    | none => dispatchLoop srv req actual matched rest
    | some params =>
      if req.method = text "GET" then handler srv { req with pathParams := params }
      else dispatchLoop srv req actual true rest

def dispatch (srv : Server) (req : HttpRequest) : Except StoError HttpResponse :=
  dispatchLoop srv req (splitPath req.path) false routes

/-! ## Which route a path takes -/

theorem matchPath_literal {pattern : List (List UInt8)} (h : ∀ p ∈ pattern, isParam p = false)
    (actual : List (List UInt8)) :
    matchPath pattern actual = if actual = pattern then some [] else none := by
  induction pattern generalizing actual with
  | nil => cases actual <;> simp [matchPath]
  | cons p pattern ih =>
    cases actual with
    | nil => simp [matchPath]
    | cons s actual =>
      have hp : isParam p = false := h p List.mem_cons_self
      have hrest := ih (fun q hq => h q (List.mem_cons_of_mem _ hq)) actual
      by_cases heq : p = s
      · subst heq
        simp [matchPath, hp, hrest]
      · simp [matchPath, hp, heq, Ne.symm heq]

/-- A pattern with one parameter. -/
theorem matchPath_param {pre post : List (List UInt8)} {p : List UInt8}
    (hpre : ∀ q ∈ pre, isParam q = false) (hp : isParam p = true)
    (hpost : ∀ q ∈ post, isParam q = false) {actual : List (List UInt8)}
    {params : List (List UInt8 × List UInt8)} :
    matchPath (pre ++ p :: post) actual = some params ↔
      ∃ s, actual = pre ++ s :: post ∧ params = [(p.tail.dropLast, s)] := by
  induction pre generalizing actual with
  | nil =>
    cases actual with
    | nil => simp [matchPath]
    | cons s actual =>
      simp only [List.nil_append, matchPath, hp, if_true, matchPath_literal hpost, List.cons.injEq]
      by_cases heq : actual = post
      · simp [heq, eq_comm]
      · simp [heq]
  | cons q pre ih =>
    cases actual with
    | nil => simp [matchPath]
    | cons s actual =>
      have hq : isParam q = false := hpre q List.mem_cons_self
      have hrest : matchPath (pre ++ p :: post) actual = some params ↔ _ :=
        ih fun r hr => hpre r (List.mem_cons_of_mem _ hr)
      by_cases heq : q = s
      · subst heq
        simp [matchPath, hq, hrest]
      · simp [matchPath, hq, heq, Ne.symm heq]

def kHealthz : List (List UInt8) := [text "healthz"]

def kStatus : List (List UInt8) := [text "api", text "v1", text "engine", text "status"]

def kInstruments : List (List UInt8) := [text "api", text "v1", text "instruments"]

def kSegments : List (List UInt8) := [text "journal", text "segments"]

def kSnapshots : List (List UInt8) := [text "snapshots"]

def kId : List UInt8 := text "\x7bid\x7d"

theorem routes_eq : routes = [
    (kHealthz, healthz), (kStatus, engineStatus), (kInstruments, instruments),
    (kInstruments ++ kId :: kSegments, segments),
    (kInstruments ++ kId :: kSnapshots, snapshots)] := by
  have h₁ : splitPath (text "/healthz") = kHealthz := by decide +kernel
  have h₂ : splitPath (text "/api/v1/engine/status") = kStatus := by decide +kernel
  have h₃ : splitPath (text "/api/v1/instruments") = kInstruments := by decide +kernel
  have h₄ : splitPath (text "/api/v1/instruments/\x7bid\x7d/journal/segments") =
      kInstruments ++ kId :: kSegments := by decide +kernel
  have h₅ : splitPath (text "/api/v1/instruments/\x7bid\x7d/snapshots") =
      kInstruments ++ kId :: kSnapshots := by decide +kernel
  rw [routes, h₁, h₂, h₃, h₄, h₅]

/-- The request with the parameter that the dispatch adds. -/
def HttpRequest.withId (req : HttpRequest) (id : List UInt8) : HttpRequest :=
  { req with pathParams := [(text "id", id)] }

/-- A path of one of the two routes with an `id`. -/
def IsIdRoute (path id : List UInt8) : Prop :=
  splitPath path = kInstruments ++ id :: kSegments ∨
    splitPath path = kInstruments ++ id :: kSnapshots

section Dispatch

variable {srv : Server} {req : HttpRequest}

theorem dispatchLoop_literal (hget : req.method = text "GET") {pattern actual : List (List UInt8)}
    (h : ∀ p ∈ pattern, isParam p = false) (matched : Bool)
    (handler : RouteHandler) (rest : List Route) :
    dispatchLoop srv req actual matched ((pattern, handler) :: rest) =
      if actual = pattern then handler srv { req with pathParams := [] }
      else dispatchLoop srv req actual matched rest := by
  rw [dispatchLoop, matchPath_literal h]
  by_cases heq : actual = pattern
  · simp [heq, hget]
  · simp [heq]

theorem dispatchLoop_id (hget : req.method = text "GET") {post actual : List (List UInt8)}
    (h : ∀ p ∈ post, isParam p = false) {id : List UInt8}
    (hactual : actual = kInstruments ++ id :: post) (matched : Bool)
    (handler : RouteHandler) (rest : List Route) :
    dispatchLoop srv req actual matched ((kInstruments ++ kId :: post, handler) :: rest) =
      handler srv (req.withId id) := by
  have hmatch : matchPath (kInstruments ++ kId :: post) actual = some [(text "id", id)] :=
    (matchPath_param (by decide +kernel) (by decide +kernel) h).2 ⟨id, hactual, by
      rw [show kId.tail.dropLast = text "id" by decide +kernel]⟩
  rw [dispatchLoop, hmatch]
  simp [hget, HttpRequest.withId]

theorem dispatchLoop_not_id {post actual : List (List UInt8)}
    (h : ∀ p ∈ post, isParam p = false) (hactual : ∀ id, actual ≠ kInstruments ++ id :: post)
    (matched : Bool) (handler : RouteHandler) (rest : List Route) :
    dispatchLoop srv req actual matched ((kInstruments ++ kId :: post, handler) :: rest) =
      dispatchLoop srv req actual matched rest := by
  have hmatch : matchPath (kInstruments ++ kId :: post) actual = none := by
    rw [Option.eq_none_iff_forall_ne_some]
    intro params hparams
    obtain ⟨id, hid, -⟩ :=
      (matchPath_param (by decide +kernel) (by decide +kernel) h).1 hparams
    exact hactual id hid
  rw [dispatchLoop, hmatch]

/-- The routes without parameters come first. -/
theorem dispatch_eq (hget : req.method = text "GET") : dispatch srv req =
    if splitPath req.path = kHealthz then healthz srv { req with pathParams := [] }
    else if splitPath req.path = kStatus then engineStatus srv { req with pathParams := [] }
    else if splitPath req.path = kInstruments then instruments srv { req with pathParams := [] }
    else dispatchLoop srv req (splitPath req.path) false [
      (kInstruments ++ kId :: kSegments, segments),
      (kInstruments ++ kId :: kSnapshots, snapshots)] := by
  rw [dispatch, routes_eq, dispatchLoop_literal hget (by decide +kernel),
    dispatchLoop_literal hget (by decide +kernel), dispatchLoop_literal hget (by decide +kernel)]

/-- Paths of different routes differ in length. -/
theorem ne_of_length {a b : List (List UInt8)} (h : a.length ≠ b.length) : a ≠ b :=
  fun heq => h (congrArg List.length heq)

theorem dispatch_segments (hget : req.method = text "GET") {id : List UInt8}
    (h : splitPath req.path = kInstruments ++ id :: kSegments) :
    dispatch srv req = segments srv (req.withId id) := by
  rw [dispatch_eq hget, h, if_neg (ne_of_length (by simp [kInstruments, kSegments, kHealthz])),
    if_neg (ne_of_length (by simp [kInstruments, kSegments, kStatus])),
    if_neg (ne_of_length (by simp [kInstruments, kSegments])),
    dispatchLoop_id hget (by decide +kernel) rfl]

theorem dispatch_snapshots (hget : req.method = text "GET") {id : List UInt8}
    (h : splitPath req.path = kInstruments ++ id :: kSnapshots) :
    dispatch srv req = snapshots srv (req.withId id) := by
  rw [dispatch_eq hget, h, if_neg (ne_of_length (by simp [kInstruments, kSnapshots, kHealthz])),
    if_neg (ne_of_length (by simp [kInstruments, kSnapshots, kStatus])),
    if_neg (ne_of_length (by simp [kInstruments, kSnapshots])),
    dispatchLoop_not_id (by decide +kernel)
      (fun id' => ne_of_length (by simp [kSegments, kSnapshots])),
    dispatchLoop_id hget (by decide +kernel) rfl]

/-- A path names one instrument. -/
theorem IsIdRoute.unique {path id id' : List UInt8} (h : IsIdRoute path id)
    (h' : IsIdRoute path id') : id' = id := by
  have hlen : ∀ a b : List UInt8,
      kInstruments ++ a :: kSegments ≠ kInstruments ++ b :: kSnapshots :=
    fun a b => ne_of_length (by simp [kSegments, kSnapshots])
  rcases h with h | h <;> rcases h' with h' | h' <;> rw [h] at h'
  · simpa using h'.symm
  · exact absurd h' (hlen _ _)
  · exact absurd h'.symm (hlen _ _)
  · simpa using h'.symm

theorem IsIdRoute.ne_literal {path id : List UInt8} (h : IsIdRoute path id) :
    splitPath path ≠ kStatus ∧ splitPath path ≠ kInstruments := by
  rcases h with h | h <;> rw [h]
  · exact ⟨ne_of_length (by simp [kInstruments, kSegments, kStatus]),
      ne_of_length (by simp [kInstruments, kSegments])⟩
  · exact ⟨ne_of_length (by simp [kInstruments, kSnapshots, kStatus]),
      ne_of_length (by simp [kInstruments, kSnapshots])⟩

theorem dispatch_status (hget : req.method = text "GET") (h : splitPath req.path = kStatus) :
    dispatch srv req = engineStatus srv { req with pathParams := [] } := by
  rw [dispatch_eq hget, h, if_neg (ne_of_length (by simp [kStatus, kHealthz])), if_pos rfl]

theorem dispatch_instruments (hget : req.method = text "GET")
    (h : splitPath req.path = kInstruments) :
    dispatch srv req = instruments srv { req with pathParams := [] } := by
  rw [dispatch_eq hget, h, if_neg (ne_of_length (by simp [kInstruments, kHealthz])),
    if_neg (ne_of_length (by simp [kInstruments, kStatus])), if_pos rfl]

/-- All other paths are answered without a look at the store. -/
theorem dispatch_other (hget : req.method = text "GET") (hstatus : splitPath req.path ≠ kStatus)
    (hinst : splitPath req.path ≠ kInstruments) (hid : ∀ id, ¬ IsIdRoute req.path id) :
    ∃ resp, dispatch srv req = .ok resp := by
  rw [dispatch_eq hget]
  by_cases h : splitPath req.path = kHealthz
  · rw [if_pos h]
    exact ⟨_, rfl⟩
  · rw [if_neg h, if_neg hstatus, if_neg hinst,
      dispatchLoop_not_id (by decide +kernel) (fun id hseg => hid id (Or.inl hseg)),
      dispatchLoop_not_id (by decide +kernel) (fun id hsnap => hid id (Or.inr hsnap))]
    exact ⟨_, rfl⟩

end Dispatch

/-! ## Numbers in a request -/

theorem isAllDigits_iff {s : List UInt8} :
    isAllDigits s = true ↔ s ≠ [] ∧ ∀ c ∈ s, isDigit c = true := by
  simp [isAllDigits]

/-- A number of a query that is used is one that can be converted. -/
def QueryFits (query : List UInt8) : Prop :=
  ∀ key ∈ ["limit", "after"], ∀ v, queryValue (parseQuery query) key = some v →
    isAllDigits v = true → ofDigits 10 v < 2 ^ 63

theorem queryInt_ok_iff (q : List (List UInt8 × List UInt8)) (key : String) (default : Int) :
    (∃ n, queryInt q key default = .ok n) ↔
      ∀ v, queryValue q key = some v → isAllDigits v = true → ofDigits 10 v < 2 ^ 63 := by
  rw [queryInt]
  cases hv : queryValue q key with
  | none => simp
  | some v =>
    by_cases hd : isAllDigits v = true
    · obtain ⟨hne, hdigits⟩ := isAllDigits_iff.1 hd
      simp only [hd, if_true, stoll_of_digits hne hdigits, Option.some.injEq, forall_eq',
        true_imp_iff]
      by_cases hfits : ofDigits 10 v < 2 ^ 63
      · rw [if_pos hfits]
        exact ⟨fun _ => hfits, fun _ => ⟨_, rfl⟩⟩
      · rw [if_neg hfits]
        exact ⟨fun ⟨n, hn⟩ => (by cases hn), fun h => absurd h hfits⟩
    · simp [hd]

theorem pageOf_ok_iff (query : List UInt8) (listing : Except StoError (List Item)) :
    (∃ p, pageOf query listing = .ok p) ↔ QueryFits query ∧ ∃ all, listing = .ok all := by
  have hlimit := queryInt_ok_iff (parseQuery query) "limit" kDefaultLimit
  have hafter := queryInt_ok_iff (parseQuery query) "after" (-1)
  rw [QueryFits]
  simp only [List.forall_mem_cons, List.not_mem_nil, false_imp_iff, implies_true, and_true]
  rw [← hlimit, ← hafter, pageOf]
  cases queryInt (parseQuery query) "limit" kDefaultLimit with
  | error e => simp [bind, Except.bind]
  | ok limit =>
    cases queryInt (parseQuery query) "after" (-1) with
    | error e => simp [bind, Except.bind]
    | ok after =>
      cases listing with
      | error e => simp [bind, Except.bind]
      | ok all => simp [bind, Except.bind, pure, Except.pure]

theorem parseInstrumentId_of_digits {raw : List UInt8} (h : isAllDigits raw = true) :
    parseInstrumentId raw = if 2 ^ 64 ≤ ofDigits 10 raw then .error .outOfRange
      else .ok (some (.ofNat (ofDigits 10 raw))) := by
  obtain ⟨hne, hdigits⟩ := isAllDigits_iff.1 h
  rw [parseInstrumentId, if_pos h, stoul_of_digits hne hdigits]
  by_cases hbig : 2 ^ 64 ≤ ofDigits 10 raw
  · rw [if_pos hbig, if_pos hbig]
    rfl
  · rw [if_neg hbig, if_neg hbig]
    simp [Except.map]

/-! ## The answer is about the right instrument -/

/-- The directory that the handler of the path reads, if it gets that far, is of this instrument. -/
def Reports (srv : Server) (req : HttpRequest) (id : List UInt8) (inst : InstrumentInfo) : Prop :=
  IsIdRoute req.path id ∧ instrumentOf srv (req.withId id) = .ok (.inr inst)

/-- The request gets an answer, and it is about the shard that its path names. -/
structure Right (srv : Server) (req : HttpRequest) : Prop where
  returns : ∃ resp, dispatch srv req = .ok resp
  instrument : ∀ id inst, Reports srv req id inst →
    isAllDigits id = true ∧ ofDigits 10 id = inst.number

/-- All numbers that the handler of the request has to convert fit, and those of shards are not cut
to the number of another one. -/
structure Answerable (srv : Server) (req : HttpRequest) : Prop where
  status : splitPath req.path = kStatus → srv.store.Convertible
  instruments : splitPath req.path = kInstruments → srv.store.Convertible ∧ QueryFits req.query
  id : ∀ id, IsIdRoute req.path id → isAllDigits id = true →
    ofDigits 10 id < 2 ^ 64 ∧ srv.store.Convertible ∧
      ∀ inst, srv.store.shards.find? (fun s => s.number % 2 ^ 32 = ofDigits 10 id % 2 ^ 32) =
          some inst →
        inst.number = ofDigits 10 id ∧ QueryFits req.query

theorem Root.id_of_mem_shards {root : Root} {inst : InstrumentInfo} (h : inst ∈ root.shards) :
    inst.id = .ofNat inst.number := by
  rw [Root.shards] at h
  split at h
  · rw [List.mem_singleton] at h
    rw [h]
    rfl
  · obtain ⟨d, -, hd⟩ := List.mem_filterMap.1 h
    rw [shardAt, Option.map_eq_some_iff] at hd
    obtain ⟨idStr, hid, rfl⟩ := hd
    simp [InstrumentInfo.number, hid]

/-- The instrument that is found is the first one whose number is the same after the cut. -/
theorem Root.find?_shards (root : Root) (n : Nat) :
    root.shards.find? (fun inst => inst.id = .ofNat n) =
      root.shards.find? fun inst => inst.number % 2 ^ 32 = n % 2 ^ 32 := by
  have hcongr : ∀ l : List InstrumentInfo, (∀ inst ∈ l, inst.id = .ofNat inst.number) →
      l.find? (fun inst => inst.id = .ofNat n) =
        l.find? fun inst => inst.number % 2 ^ 32 = n % 2 ^ 32 := by
    intro l hl
    induction l with
    | nil => rfl
    | cons inst l ih =>
      have hinst : inst.id = .ofNat n ↔ inst.number % 2 ^ 32 = n % 2 ^ 32 := by
        rw [hl inst List.mem_cons_self, ← UInt32.toNat_inj, UInt32.toNat_ofNat',
          UInt32.toNat_ofNat']
      rw [List.find?_cons, List.find?_cons, ih fun i hi => hl i (List.mem_cons_of_mem _ hi)]
      simp only [hinst]
  exact hcongr _ fun inst h => id_of_mem_shards h

section Right

variable {srv : Server} {req : HttpRequest} {id : List UInt8}

theorem authorized_eq {answer : RouteHandler} (h : authorize srv req = .ok none) :
    authorized answer srv req = answer srv req := by
  rw [authorized, h]
  rfl

theorem engineStatus_ok_iff (h : authorize srv req = .ok none) :
    (∃ resp, engineStatus srv req = .ok resp) ↔ srv.store.Convertible := by
  rw [engineStatus, authorized_eq h]
  by_cases hconv : srv.store.Convertible
  · obtain ⟨all, hall, -⟩ := Root.listInstruments_of_convertible hconv
    simp [hall, hconv, bind, Except.bind, pure, Except.pure]
  · simp [Root.listInstruments_of_not_convertible hconv, hconv, bind, Except.bind]

theorem instruments_ok_iff (h : authorize srv req = .ok none) :
    (∃ resp, instruments srv req = .ok resp) ↔ srv.store.Convertible ∧ QueryFits req.query := by
  have hlisting : (∃ all, srv.store.listInstruments.map (List.map Item.instrument) = .ok all) ↔
      srv.store.Convertible := by
    by_cases hconv : srv.store.Convertible
    · obtain ⟨all, hall, -⟩ := Root.listInstruments_of_convertible hconv
      simp [hall, hconv, Except.map]
    · simp [Root.listInstruments_of_not_convertible hconv, hconv, Except.map]
  rw [and_comm, ← hlisting, ← pageOf_ok_iff, instruments, authorized_eq h]
  cases pageOf req.query (srv.store.listInstruments.map (List.map Item.instrument)) with
  | error e => simp [bind, Except.bind]
  | ok p => simp [bind, Except.bind, pure, Except.pure]

theorem instrumentOf_other (h : isAllDigits id = false) :
    instrumentOf srv (req.withId id) = .ok (.inl (.error 400 "invalid_instrument_id")) := by
  simp [instrumentOf, HttpRequest.withId, parseInstrumentId, h, bind, Except.bind, pure,
    Except.pure]

theorem instrumentOf_digits (h : isAllDigits id = true) (hlt : ofDigits 10 id < 2 ^ 64)
    (hconv : srv.store.Convertible) : instrumentOf srv (req.withId id) =
      .ok (match srv.store.shards.find? fun s => s.number % 2 ^ 32 = ofDigits 10 id % 2 ^ 32 with
        | none => .inl (.error 404 "instrument_not_found")
        | some inst => .inr inst) := by
  have hparse : parseInstrumentId id = .ok (some (.ofNat (ofDigits 10 id))) := by
    rw [parseInstrumentId_of_digits h, if_neg (by omega)]
  rw [← Root.find?_shards]
  simp only [instrumentOf, HttpRequest.withId, List.lookup_cons_self, Option.getD_some, hparse,
    Root.findInstrument_of_convertible hconv, bind, Except.bind]
  cases srv.store.shards.find? fun s => s.id = .ofNat (ofDigits 10 id) <;> rfl

theorem instrumentOf_error (h : isAllDigits id = true)
    (hno : ¬ (ofDigits 10 id < 2 ^ 64 ∧ srv.store.Convertible)) :
    ∃ e, instrumentOf srv (req.withId id) = .error e := by
  by_cases hlt : ofDigits 10 id < 2 ^ 64
  · have hconv : ¬ srv.store.Convertible := fun hconv => hno ⟨hlt, hconv⟩
    have hparse : parseInstrumentId id = .ok (some (.ofNat (ofDigits 10 id))) := by
      rw [parseInstrumentId_of_digits h, if_neg (by omega)]
    refine ⟨.outOfRange, ?_⟩
    simp [instrumentOf, HttpRequest.withId, hparse, Root.findInstrument_of_not_convertible hconv,
      bind, Except.bind]
  · have hparse : parseInstrumentId id = .error .outOfRange := by
      rw [parseInstrumentId_of_digits h, if_pos (by omega)]
    refine ⟨.outOfRange, ?_⟩
    simp [instrumentOf, HttpRequest.withId, hparse, bind, Except.bind]

theorem collection_ok_iff (items : InstrumentInfo → List Item)
    (h : authorize srv req = .ok none) :
    (∃ resp, collection items srv req = .ok resp) ↔
      ∃ r, instrumentOf srv req = .ok r ∧ ∀ inst, r = .inr inst → QueryFits req.query := by
  rw [collection, authorized_eq h]
  cases instrumentOf srv req with
  | error e => simp [bind, Except.bind]
  | ok r =>
    cases r with
    | inl rejection => simp [bind, Except.bind, pure, Except.pure]
    | inr inst =>
      have hpage := pageOf_ok_iff req.query (.ok (items inst))
      simp only [Except.ok.injEq, exists_eq', and_true] at hpage
      simp only [Except.ok.injEq, exists_eq_left', Sum.inr.injEq, forall_eq', ← hpage]
      cases hp : pageOf req.query (.ok (items inst)) with
      | error e => simp [hp, bind, Except.bind]
      | ok p => simp [hp, bind, Except.bind, pure, Except.pure]

/-- What a request for the files of an instrument needs. -/
theorem idRoute_right_iff (hget : req.method = text "GET") (h : authorize srv req = .ok none)
    (hid : IsIdRoute req.path id) :
    ((∃ resp, dispatch srv req = .ok resp) ∧ ∀ inst,
        instrumentOf srv (req.withId id) = .ok (.inr inst) →
          isAllDigits id = true ∧ ofDigits 10 id = inst.number) ↔
      (isAllDigits id = true → ofDigits 10 id < 2 ^ 64 ∧ srv.store.Convertible ∧
        ∀ inst, srv.store.shards.find? (fun s => s.number % 2 ^ 32 = ofDigits 10 id % 2 ^ 32) =
            some inst →
          inst.number = ofDigits 10 id ∧ QueryFits req.query) := by
  have hdispatch : (∃ resp, dispatch srv req = .ok resp) ↔ ∃ r,
      instrumentOf srv (req.withId id) = .ok r ∧ ∀ inst, r = .inr inst → QueryFits req.query := by
    have hwith : authorize srv (req.withId id) = .ok none := h
    rcases hid with hseg | hsnap
    · rw [dispatch_segments hget hseg, segments, collection_ok_iff _ hwith]
      rfl
    · rw [dispatch_snapshots hget hsnap, snapshots, collection_ok_iff _ hwith]
      rfl
  rw [hdispatch]
  cases hdigits : isAllDigits id with
  | false => simp [instrumentOf_other hdigits]
  | true =>
    by_cases hconv : ofDigits 10 id < 2 ^ 64 ∧ srv.store.Convertible
    · rw [instrumentOf_digits hdigits hconv.1 hconv.2]
      cases hfind : srv.store.shards.find? fun s => s.number % 2 ^ 32 = ofDigits 10 id % 2 ^ 32 with
      | none => simp only [Except.ok.injEq, exists_eq_left', reduceCtorEq, false_imp_iff,
          implies_true, and_true, hconv.1, hconv.2]
      | some inst =>
        simp only [Except.ok.injEq, exists_eq_left', Sum.inr.injEq, forall_eq', hconv.1, hconv.2,
          true_and, Option.some.injEq, true_imp_iff]
        exact ⟨fun ⟨hq, hn⟩ => ⟨hn.symm, hq⟩, fun ⟨hn, hq⟩ => ⟨hq, hn.symm⟩⟩
    · obtain ⟨e, he⟩ := @instrumentOf_error srv req id hdigits hconv
      simp only [he, reduceCtorEq, false_and, exists_false, true_imp_iff, false_iff]
      exact fun hall => hconv ⟨hall.1, hall.2.1⟩

/-- **Every request with a valid token gets an answer, about the right instrument**, just if the
numbers that its handler has to convert fit: those in the names of the directories, in the path and
in the query, and the first shard whose number agrees with the path in 32 bits is the one of the
path. -/
theorem dispatch_right_iff (hget : req.method = text "GET") (h : authorize srv req = .ok none) :
    Right srv req ↔ Answerable srv req := by
  by_cases hid : ∃ id, IsIdRoute req.path id
  · obtain ⟨id, hid⟩ := hid
    have hright := idRoute_right_iff hget h hid
    constructor
    · rintro ⟨hreturns, hinst⟩
      refine ⟨fun hs => absurd hs hid.ne_literal.1, fun hi => absurd hi hid.ne_literal.2, ?_⟩
      intro id' hid' hdigits
      obtain rfl := hid.unique hid'
      exact hright.1 ⟨hreturns, fun inst hof => hinst _ inst ⟨hid', hof⟩⟩ hdigits
    · intro hans
      obtain ⟨hreturns, hinst⟩ := hright.2 (hans.id id hid)
      refine ⟨hreturns, ?_⟩
      rintro id' inst ⟨hid', hof⟩
      obtain rfl := hid.unique hid'
      exact hinst inst hof
  · -- No instrument is named, so only the answer is in question.
    push Not at hid
    have hreports : ∀ id inst, ¬ Reports srv req id inst := fun id inst hr => hid id hr.1
    have hright : Right srv req ↔ ∃ resp, dispatch srv req = .ok resp :=
      ⟨fun hr => hr.returns, fun hr => ⟨hr, fun id inst hrep => absurd hrep (hreports id inst)⟩⟩
    have hplain : authorize srv { req with pathParams := [] } = .ok none := h
    rw [hright]
    by_cases hstatus : splitPath req.path = kStatus
    · have hne : splitPath req.path ≠ kInstruments := by
        rw [hstatus]
        exact ne_of_length (by simp [kStatus, kInstruments])
      rw [dispatch_status hget hstatus, engineStatus_ok_iff hplain]
      exact ⟨fun hc => ⟨fun _ => hc, fun hi => absurd hi hne, fun id hr => absurd hr (hid id)⟩,
        fun hans => hans.status hstatus⟩
    · by_cases hinst : splitPath req.path = kInstruments
      · rw [dispatch_instruments hget hinst, instruments_ok_iff hplain]
        exact ⟨fun hc => ⟨fun hs => absurd hs hstatus, fun _ => hc,
          fun id hr => absurd hr (hid id)⟩, fun hans => hans.instruments hinst⟩
      · exact ⟨fun _ => ⟨fun hs => absurd hs hstatus, fun hi => absurd hi hinst,
          fun id hr => absurd hr (hid id)⟩, fun _ => dispatch_other hget hstatus hinst hid⟩

end Right

/-- One shard, and nothing in it. -/
def oneShard : Server where
  store := ⟨[(text "shard-1", ⟨⟨.empty, fun _ => true⟩, ⟨.empty, fun _ => true⟩⟩)], none, by simp⟩
  jwtSecret := text "key"
  revokedJti := []
  now := 100

def goodPayload : List UInt8 :=
  text "\x7b\"sub\":\"a\",\"jti\":\"1\",\"roles\":[\"ADMIN\"],\"iat\":0,\"exp\":600\x7d"

/-- A request with a token for this path. -/
def signedGet (path : String) : HttpRequest :=
  ⟨text "GET", text path, [],
    [(text "authorization", kBearer ++ mint (text "key") kJwtHeader goodPayload)], []⟩

/-- A token that is verified and has a role lets the request pass. -/
theorem authorize_bearer {srv : Server} {req : HttpRequest} {token : List UInt8} {r : VerifyResult}
    (hheader : req.headers.lookup (text "authorization") = some (kBearer ++ token))
    (hverify : verifyJwt token srv.jwtSecret srv.now srv.revokedJti = .ok r) (hok : r.ok = true)
    (hrole : r.roles.any kValidRoles.contains = true) : authorize srv req = .ok none := by
  have hbearer : kBearer.isPrefixOf (kBearer ++ token) = true :=
    List.isPrefixOf_iff_prefix.2 (List.prefix_append ..)
  simp only [authorize, hheader, hbearer, if_true, List.drop_left, hverify, bind, Except.bind, hok,
    hrole, Bool.true_eq_false, if_false]
  rfl

theorem authorize_signedGet (path : String) : authorize oneShard (signedGet path) = .ok none := by
  have hverify : verifyJwt (mint (text "key") kJwtHeader goodPayload) (text "key") 100 [] =
      .ok ⟨true, text "a", [text "ADMIN"], .ok⟩ := by
    rw [verifyJwt_signed (signed_mint _ _ _) (by decide +kernel)]
    decide +kernel
  exact authorize_bearer List.lookup_cons_self hverify rfl (by decide +kernel)

theorem dispatch_right_iff_snapshots :
    authorize oneShard (signedGet "/api/v1/instruments/1/snapshots") = .ok none ∧
      (Right oneShard (signedGet "/api/v1/instruments/1/snapshots") ↔
        Answerable oneShard (signedGet "/api/v1/instruments/1/snapshots")) :=
  ⟨authorize_signedGet _, dispatch_right_iff rfl (authorize_signedGet _)⟩

theorem long_id_throws : ¬ ∀ srv req, req.method = text "GET" → authorize srv req = .ok none →
    Right srv req := by
  intro h
  have hauth := authorize_signedGet "/api/v1/instruments/18446744073709551616/snapshots"
  have hroute : IsIdRoute (text "/api/v1/instruments/18446744073709551616/snapshots")
      (text "18446744073709551616") := Or.inr (by decide +kernel)
  have hright := h _ _ rfl hauth
  have hsmall := (idRoute_right_iff rfl hauth hroute).1
    ⟨hright.returns, fun inst hof => hright.instrument _ inst ⟨hroute, hof⟩⟩ (by decide +kernel)
  exact absurd hsmall.1 (by decide +kernel)

end Velox.Admin
