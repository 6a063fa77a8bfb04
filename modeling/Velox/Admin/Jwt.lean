import Velox.Admin.Sha256
import Velox.Common.Base64
import Velox.Common.Types
import Velox.Lib.Json

/-!
# Admin tokens

Following `admin/jwt.cpp`: a token is `header.payload.signature`, and the claims are found by
searching the payload for their names. The search takes the first place where a name stands in
quotes, whether it is a member of the object or part of something in it, and a number is converted
by a function that throws. `verifyJwt_sound_iff` says for which tokens the verdict can be relied on
whatever the time and the revocations are: those for which what the search finds is what the object
says.
-/

namespace Velox.Admin

open Text Base64 Sha256

inductive JwtReason where
  | ok
  | malformed
  | algRejected
  | badSignature
  | missingClaim
  | ttlTooLong
  | notYetValid
  | expired
  | revoked
  deriving DecidableEq, Repr

structure VerifyResult where
  ok : Bool
  sub : List UInt8
  roles : List (List UInt8)
  reason : JwtReason
  deriving DecidableEq

def fail (reason : JwtReason) : VerifyResult := ⟨false, [], [], reason⟩

/-! ## The search for claims -/

def kQuote : UInt8 := '"'.toUInt8

def kDot : UInt8 := '.'.toUInt8

/-- What follows the first occurrence of `needle`. -/
def afterFirst (needle : List UInt8) : List UInt8 → Option (List UInt8)
  | [] => none
  | c :: s => if needle.isPrefixOf (c :: s) then some ((c :: s).drop needle.length)
    else afterFirst needle s

/-- The text from the value of `key` on; `none` where the source has `npos`. -/
def findValueStart (json key : List UInt8) : Option (List UInt8) :=
  match afterFirst (kQuote :: key ++ [kQuote]) json with
  | none => none
  | some s =>
    match Json.skipBlanks s with
    | [] => none
    | c :: s =>
      if c ≠ ':'.toUInt8 then none
      else if Json.skipBlanks s = [] then none
      else some (Json.skipBlanks s)

def extractString (json key : List UInt8) : Option (List UInt8) :=
  match findValueStart json key with
  | some (c :: s) =>
    if c = kQuote ∧ kQuote ∈ s then some (s.takeWhile (· ≠ kQuote)) else none
  | _ => none

/-- `false` is `none`; `std::stoll` may throw. -/
def extractInt (json key : List UInt8) : Except StoError (Option Int) :=
  match findValueStart json key with
  | none => .ok none
  | some s =>
    let run := s.takeWhile fun c => isDigit c || c = '-'.toUInt8
    if run = [] then .ok none else (stoll 10 run).map some

/-- The pieces of a text that stand between two quotes. `piece` is what has been read of the one
that is open. -/
def quoted : Option (List UInt8) → List UInt8 → List (List UInt8)
  | _, [] => []
  | none, c :: s => if c = kQuote then quoted (some []) s else quoted none s
  | some piece, c :: s =>
    if c = kQuote then piece :: quoted none s else quoted (some (piece ++ [c])) s

def extractStringArray (json key : List UInt8) : Option (List (List UInt8)) :=
  match findValueStart json key with
  | some (c :: s) =>
    if c = '['.toUInt8 ∧ ']'.toUInt8 ∈ s then some (quoted none (s.takeWhile (· ≠ ']'.toUInt8)))
    else none
  | _ => none

structure Claims where
  sub : List UInt8
  jti : List UInt8
  roles : List (List UInt8)
  iat : Int
  exp : Int

/-- The five claims; `none` if one is missing. -/
def readClaims (json : List UInt8) : Except StoError (Option Claims) :=
  match extractString json (text "sub"), extractString json (text "jti"),
      extractStringArray json (text "roles") with
  | some sub, some jti, some roles => do
    match ← extractInt json (text "iat") with
    | none => return none
    | some iat =>
      match ← extractInt json (text "exp") with
      | none => return none
      | some exp => return some ⟨sub, jti, roles, iat, exp⟩
  | _, _, _ => return none

/-! ## The verdict -/

/-- The checks of the claims. The difference is one of 64 bits. -/
def Claims.verdict (c : Claims) (nowUnix : Int) (revokedJti : List (List UInt8)) : VerifyResult :=
  if c.roles = [] then fail .missingClaim
  else if 3600 < wrap64 (c.exp - c.iat) then fail .ttlTooLong
  else if nowUnix < c.iat then fail .notYetValid
  else if c.exp < nowUnix then fail .expired
  else if c.jti ∈ revokedJti then fail .revoked
  else ⟨true, c.sub, c.roles, .ok⟩

def verifyPayload (payload : List UInt8) (nowUnix : Int) (revokedJti : List (List UInt8)) :
    Except StoError VerifyResult := do
  match ← readClaims payload with
  | none => return fail .missingClaim
  | some c => return c.verdict nowUnix revokedJti

def verifyJwt (token secret : List UInt8) (nowUnix : Int) (revokedJti : List (List UInt8)) :
    Except StoError VerifyResult :=
  match token.splitOn kDot with
  | [headerB64, payloadB64, sigB64] =>
    match base64Decode true headerB64, base64Decode true payloadB64, base64Decode true sigB64 with
    | some header, some payload, some sig =>
      if extractString header (text "alg") ≠ some (text "HS256") then .ok (fail .algRejected)
      else if sig.length ≠ 32 then .ok (fail .badSignature)
      else if constantTimeEquals sig (hmacSha256 secret (headerB64 ++ kDot :: payloadB64)) = false
        then .ok (fail .badSignature)
      else verifyPayload payload nowUnix revokedJti
    | _, _, _ => .ok (fail .malformed)
  | _ => .ok (fail .malformed)

/-! ## What a token says -/

/-- The token has three parts, and the last one is the signature of the other two. -/
structure Signed (token secret header payload : List UInt8) : Prop where
  parts : ∃ h p s, token.splitOn kDot = [h, p, s] ∧ base64Decode true h = some header ∧
    base64Decode true p = some payload ∧
    base64Decode true s = some (hmacSha256 secret (h ++ kDot :: p))

/-- The member of a header or a payload, as an integer. -/
def claimInt (members : List (List UInt8 × Json)) (name : String) : Option Int :=
  (Json.member members (text name)).bind Json.asInt

/-- There is a role in the object. -/
def HasRole (members : List (List UInt8 × Json)) : Prop :=
  ∃ roles, Json.member members (text "roles") = some (.array roles) ∧ roles ≠ []

/-- What the claims of a payload have to satisfy, as integers. -/
def Current (members : List (List UInt8 × Json)) (now : Int) (revoked : List (List UInt8)) :
    Prop :=
  ∃ iat exp jti, claimInt members "iat" = some iat ∧ claimInt members "exp" = some exp ∧
    Json.member members (text "jti") = some (.string jti) ∧ HasRole members ∧
    iat ≤ now ∧ now ≤ exp ∧ exp - iat ≤ 3600 ∧ jti ∉ revoked

def IsHS256 (header : List UInt8) : Prop :=
  ∃ members, Json.parseObject header = some members ∧
    Json.member members (text "alg") = some (.string (text "HS256"))

/-- What a token that is accepted should be. -/
def Vouches (token secret : List UInt8) (now : Int) (revoked : List (List UInt8)) : Prop :=
  ∃ header payload, Signed token secret header payload ∧ IsHS256 header ∧
    ∀ members, Json.parseObject payload = some members → Current members now revoked

/-- The verification returns, and what it accepts is what it should be. -/
def Sound (token secret : List UInt8) (now : Int) (revoked : List (List UInt8)) : Prop :=
  ∃ r, verifyJwt token secret now revoked = .ok r ∧ (r.ok = true → Vouches token secret now revoked)

/-! ## When the search is right -/

/-- There is a time at which these claims pass. -/
def Claims.Usable (c : Claims) : Prop :=
  c.roles ≠ [] ∧ c.iat ≤ c.exp ∧ wrap64 (c.exp - c.iat) ≤ 3600

/-- The object allows the claims all the time that they have, and that is not too long. -/
def Claims.Within (c : Claims) (members : List (List UInt8 × Json)) : Prop :=
  ∃ iat exp, claimInt members "iat" = some iat ∧ claimInt members "exp" = some exp ∧
    Json.member members (text "jti") = some (.string c.jti) ∧ HasRole members ∧
    iat ≤ c.iat ∧ c.exp ≤ exp ∧ exp - iat ≤ 3600

/-- What is found in this header and this payload is what they say. -/
def ReadsTrue (header payload : List UInt8) : Prop :=
  (∃ r, readClaims payload = .ok r) ∧
    ∀ c, readClaims payload = .ok (some c) → c.Usable →
      IsHS256 header ∧ ∀ members, Json.parseObject payload = some members → c.Within members

theorem Claims.verdict_ok_iff (c : Claims) (now : Int) (revoked : List (List UInt8)) :
    (c.verdict now revoked).ok = true ↔
      c.roles ≠ [] ∧ wrap64 (c.exp - c.iat) ≤ 3600 ∧ c.iat ≤ now ∧ now ≤ c.exp ∧
        c.jti ∉ revoked := by
  simp only [Claims.verdict]
  split_ifs with hroles httl hearly hlate hrevoked
  · simp [fail, hroles]
  · simp [fail, httl]
  · simp [fail, hearly]
  · simp [fail, hlate]
  · simp [fail, hrevoked]
  · simp only [not_lt] at httl hearly hlate
    simp [hroles, httl, hearly, hlate, hrevoked]

/-- What happens after the signature. -/
theorem verifyPayload_eq {payload : List UInt8} {r : Option Claims}
    (h : readClaims payload = .ok r) (now : Int) (revoked : List (List UInt8)) :
    verifyPayload payload now revoked =
      .ok ((r.map fun c => c.verdict now revoked).getD (fail .missingClaim)) := by
  rw [verifyPayload, h]
  cases r <;> rfl

theorem verifyPayload_error {payload : List UInt8} {e : StoError}
    (h : readClaims payload = .error e) (now : Int) (revoked : List (List UInt8)) :
    verifyPayload payload now revoked = .error e := by
  rw [verifyPayload, h]
  rfl

/-- A token that is signed and names the algorithm is judged by its payload. -/
theorem verifyJwt_signed {token secret header payload : List UInt8}
    (h : Signed token secret header payload)
    (halg : extractString header (text "alg") = some (text "HS256")) (now : Int)
    (revoked : List (List UInt8)) :
    verifyJwt token secret now revoked = verifyPayload payload now revoked := by
  obtain ⟨hb, pb, sb, hsplit, hh, hp, hs⟩ := h.parts
  have heq : constantTimeEquals (hmacSha256 secret (hb ++ kDot :: pb)) _ = true :=
    (constantTimeEquals_iff rfl).2 rfl
  simp only [verifyJwt, hsplit, hh, hp, hs, halg, ne_eq, not_true_eq_false, if_false,
    length_hmacSha256, heq, Bool.true_eq_false]

/-- All others are turned down. -/
theorem verifyJwt_unsigned {token secret : List UInt8}
    (h : ∀ header payload, Signed token secret header payload →
      extractString header (text "alg") ≠ some (text "HS256")) (now : Int)
    (revoked : List (List UInt8)) :
    ∃ r, verifyJwt token secret now revoked = .ok r ∧ r.ok = false := by
  unfold verifyJwt
  split
  · next hb pb sb hsplit =>
    split
    · next header payload sig hh hp hs =>
      by_cases halg : extractString header (text "alg") = some (text "HS256")
      · rw [if_neg (not_not.2 halg)]
        by_cases hlen : sig.length = 32
        · rw [if_neg (not_not.2 hlen)]
          cases heq : constantTimeEquals sig (hmacSha256 secret (hb ++ kDot :: pb)) with
          | false => exact ⟨_, rfl, rfl⟩
          | true =>
            rw [constantTimeEquals_iff (by rw [hlen, length_hmacSha256])] at heq
            exact absurd halg (h header payload ⟨hb, pb, sb, hsplit, hh, hp, heq ▸ hs⟩)
        · rw [if_pos hlen]
          exact ⟨_, rfl, rfl⟩
      · rw [if_pos halg]
        exact ⟨_, rfl, rfl⟩
    · exact ⟨_, rfl, rfl⟩
  · exact ⟨_, rfl, rfl⟩

/-- A token has one header and one payload. -/
theorem Signed.unique {token secret header payload header' payload' : List UInt8}
    (h : Signed token secret header payload) (h' : Signed token secret header' payload') :
    header = header' ∧ payload = payload' := by
  obtain ⟨hb, pb, sb, hsplit, hh, hp, -⟩ := h.parts
  obtain ⟨hb', pb', sb', hsplit', hh', hp', -⟩ := h'.parts
  rw [hsplit] at hsplit'
  cases hsplit'
  rw [hh] at hh'
  rw [hp] at hp'
  cases hh'
  cases hp'
  exact ⟨rfl, rfl⟩

section Search

variable {token secret header payload : List UInt8}

/-- Claims that can pass do so as soon as they begin and until they end. -/
theorem Claims.Usable.accepted {c : Claims} (h : c.Usable) {now : Int} (hfrom : c.iat ≤ now)
    (hto : now ≤ c.exp) {revoked : List (List UInt8)} (hjti : c.jti ∉ revoked) :
    (c.verdict now revoked).ok = true :=
  (c.verdict_ok_iff now revoked).2 ⟨h.1, h.2.2, hfrom, hto, hjti⟩

/-- A signed token is sound at all times if what is found in it is what it says. -/
theorem sound_of_readsTrue (hs : Signed token secret header payload)
    (halg : extractString header (text "alg") = some (text "HS256"))
    (h : ReadsTrue header payload) (now : Int) (revoked : List (List UInt8)) :
    Sound token secret now revoked := by
  obtain ⟨⟨r, hr⟩, hreads⟩ := h
  refine ⟨_, (verifyJwt_signed hs halg now revoked).trans (verifyPayload_eq hr now revoked), ?_⟩
  cases r with
  | none =>
    intro hok
    cases hok
  | some c =>
    intro hok
    obtain ⟨hroles, httl, hfrom, hto, hjti⟩ := (c.verdict_ok_iff now revoked).1 hok
    obtain ⟨hhs, hwithin⟩ := hreads c hr ⟨hroles, hfrom.trans hto, httl⟩
    refine ⟨header, payload, hs, hhs, fun members hmembers => ?_⟩
    obtain ⟨iat, exp, hiat, hexp, hmjti, hrole, hle, hge, hlen⟩ := hwithin members hmembers
    exact ⟨iat, exp, c.jti, hiat, hexp, hmjti, hrole, hle.trans hfrom, hto.trans hge, hlen, hjti⟩

/-- Otherwise there is a time, or a revocation, that shows the difference. -/
theorem readsTrue_of_sound (hs : Signed token secret header payload)
    (halg : extractString header (text "alg") = some (text "HS256"))
    (h : ∀ now revoked, Sound token secret now revoked) : ReadsTrue header payload := by
  have hreturns : ∃ r, readClaims payload = .ok r := by
    obtain ⟨r, hr, -⟩ := h 0 []
    rw [verifyJwt_signed hs halg] at hr
    cases hread : readClaims payload with
    | ok r => exact ⟨r, rfl⟩
    | error e =>
      rw [verifyPayload_error hread] at hr
      cases hr
  refine ⟨hreturns, fun c hc husable => ?_⟩
  have hvouches : ∀ now revoked, c.iat ≤ now → now ≤ c.exp → c.jti ∉ revoked →
      IsHS256 header ∧ ∀ members, Json.parseObject payload = some members →
        Current members now revoked := by
    intro now revoked hfrom hto hjti
    obtain ⟨r, hr, hok⟩ := h now revoked
    rw [verifyJwt_signed hs halg, verifyPayload_eq hc] at hr
    cases hr
    obtain ⟨header', payload', hs', hhs, hcurrent⟩ := hok (husable.accepted hfrom hto hjti)
    obtain ⟨rfl, rfl⟩ := hs.unique hs'
    exact ⟨hhs, hcurrent⟩
  have hbegin := hvouches c.iat [] le_rfl husable.2.1 (by simp)
  have hend := hvouches c.exp [] husable.2.1 le_rfl (by simp)
  refine ⟨hbegin.1, fun members hmembers => ?_⟩
  obtain ⟨iat, exp, jti, hiat, hexp, hjti, hrole, hle, -, hlen, -⟩ := hbegin.2 members hmembers
  obtain ⟨iat', exp', jti', hiat', hexp', -, -, -, hge, -, -⟩ := hend.2 members hmembers
  rw [hexp] at hexp'
  cases hexp'
  refine ⟨iat, exp, hiat, hexp, ?_, hrole, hle, hge, hlen⟩
  -- Revoke what the object names: if the search finds another name, it does not notice.
  by_cases hsame : c.jti = jti
  · rw [hsame, hjti]
  · have hrevoked := hvouches c.iat [jti] le_rfl husable.2.1 (by simpa using hsame)
    obtain ⟨_, _, jti'', _, _, hjti'', _, _, _, _, hnot⟩ := hrevoked.2 members hmembers
    rw [hjti] at hjti''
    cases hjti''
    exact absurd List.mem_cons_self hnot

end Search

/-- **The verdict on a token can be relied on**, at all times and for all revocations, just if the
token is not signed with `HS256` in its header, or the claims that the search finds are those of the
object: their numbers can be converted, and where they are fit for use at all, the object is an
`HS256` header and a payload of the same `jti` with a role, and it covers the time between them. -/
theorem verifyJwt_sound_iff (token secret : List UInt8) :
    (∀ now revoked, Sound token secret now revoked) ↔
      ∀ header payload, Signed token secret header payload →
        extractString header (text "alg") = some (text "HS256") → ReadsTrue header payload := by
  constructor
  · exact fun h header payload hs halg => readsTrue_of_sound hs halg h
  · intro h now revoked
    by_cases hex : ∃ header payload, Signed token secret header payload ∧
        extractString header (text "alg") = some (text "HS256")
    · obtain ⟨header, payload, hs, halg⟩ := hex
      exact sound_of_readsTrue hs halg (h header payload hs halg) now revoked
    · obtain ⟨r, hr, hno⟩ := verifyJwt_unsigned (fun header payload hs halg =>
        hex ⟨header, payload, hs, halg⟩) now revoked
      refine ⟨r, hr, fun hok => ?_⟩
      rw [hno] at hok
      cases hok

/-- Issue a token, as `scripts/issue-admin-token.sh` does. -/
def mint (secret header payload : List UInt8) : List UInt8 :=
  let input := base64Encode true false header ++ kDot :: base64Encode true false payload
  input ++ kDot :: base64Encode true false (hmacSha256 secret input)

/-- What was issued is signed. -/
theorem signed_mint (secret header payload : List UInt8) :
    Signed (mint secret header payload) secret header payload := by
  have hdot : ∀ x, kDot ∉ base64Encode true false x := by
    intro x hmem
    exact absurd (mem_table_of_mem_encode hmem) (by decide +kernel)
  refine ⟨base64Encode true false header, base64Encode true false payload, _, ?_,
    base64Decode_encode true false header, base64Decode_encode true false payload,
    base64Decode_encode true false _⟩
  rw [show mint secret header payload = [kDot].intercalate
    [base64Encode true false header, base64Encode true false payload, _] by simp [mint]; rfl]
  refine List.splitOn_intercalate kDot ?_ (by simp)
  simp only [List.forall_mem_cons, List.not_mem_nil, false_imp_iff, implies_true, and_true]
  exact ⟨hdot _, hdot _, hdot _⟩

def kJwtHeader : List UInt8 := text "\x7b\"alg\":\"HS256\",\"typ\":\"JWT\"\x7d"

/-- Issued a long time from now. -/
def hugePayload : List UInt8 :=
  text "\x7b\"sub\":\"a\",\"jti\":\"1\",\"roles\":[\"ADMIN\"],\"iat\":9999999999999999999\x7d"

theorem verifyJwt_throws : ¬ ∀ token secret now revoked, Sound token secret now revoked := by
  intro h
  obtain ⟨r, hr, -⟩ := h (mint (text "key") kJwtHeader hugePayload) (text "key") 0 []
  have herror : verifyPayload hugePayload 0 [] = .error .outOfRange := by decide +kernel
  rw [verifyJwt_signed (signed_mint _ _ _) (by decide +kernel), herror] at hr
  cases hr

end Velox.Admin
