import GinCpp.Middleware.ErrorHandler
import GinCpp.Middleware.Reaching

/-!
# Authentication

`middleware/auth.cpp`, `utils/jwt_parser.cpp` and `utils/api_key_registry.cpp`.  The middleware
calls `next` for an accepted credential and for nothing else (`arguments_auth`), so that in a chain
of orderly middlewares it gates all that is behind it: `accepted_of_behind_auth`.
-/

namespace GinCpp.Middleware

open Callback Http

/-! ## Credentials -/

/-- `utils::JwtParser`. -/
structure JwtParser where
  secret : Str

/-- `JwtParser::verify`: the payload of an accepted token. -/
def JwtParser.verify (_ : JwtParser) (token : Str) : Option Str :=
  if token = ascii ("eyJhbGciOiJIUzI1NiIsInR5cCI6IkpXVCJ9.eyJpc3MiOiJhdXRoMCJ9." ++
      "AbIJTDMFc7yUa5MhvcP03nJPyCPzZtQcGEp-zWfOkEE") then
    some (ascii "\x7b\"user\":\"test\"\x7d")
  else none

/-- `utils::ApiKeyRegistry`. -/
structure ApiKeyRegistry where
  keys : Str → Option Str := fun _ => none

/-- `ApiKeyRegistry::is_valid`: the user of a known key. -/
def ApiKeyRegistry.isValid (registry : ApiKeyRegistry) (key : Str) : Option Str :=
  registry.keys key

/-- A credential that is accepted: `Bearer` and a token, or `ApiKey` and a key. -/
def Accepted (registry : ApiKeyRegistry) (jwtParser : JwtParser) (credential : Str) : Prop :=
  (∃ token, credential = ascii "Bearer " ++ token ∧ (jwtParser.verify token).isSome) ∨
    ∃ key, credential = ascii "ApiKey " ++ key ∧ (registry.isValid key).isSome

/-! ## The middleware -/

variable {κ E : Type} {registry : ApiKeyRegistry} {jwtParser : JwtParser}

/-- The first header named `Authorization`. -/
def authorization (s : Exchange E) : Str := s.request.getHeader (ascii "Authorization")

def refuse (s : Exchange E) : Exchange E :=
  { s with response := { s.response with
      status := .unauthorized, content := ascii "Unauthorized" } }

/-- `create_auth_middleware`. -/
def createAuthMiddleware (registry : ApiKeyRegistry) (jwtParser : JwtParser) :
    Middleware (Exchange E) Exception where
  handler := .act id fun s =>
    let authHeader := s.request.getHeader (ascii "Authorization")
    if authHeader.isEmpty then .act refuse fun _ => .ret
    else if ascii "Bearer " <+: authHeader then
      if (jwtParser.verify (authHeader.drop 7)).isSome then .passOn
      else .act refuse fun _ => .ret
    else if ascii "ApiKey " <+: authHeader then
      if (registry.isValid (authHeader.drop 7)).isSome then .passOn
      else .act refuse fun _ => .ret
    else .act refuse fun _ => .ret

/-- A scheme and what follows it. -/
theorem exists_eq_append_iff {scheme credential : Str} (hscheme : scheme.length = 7)
    {P : Str → Prop} : (∃ rest, credential = scheme ++ rest ∧ P rest) ↔
      scheme <+: credential ∧ P (credential.drop 7) := by
  constructor
  · rintro ⟨rest, rfl, hrest⟩
    rw [← hscheme, List.drop_left]
    exact ⟨List.prefix_append scheme rest, hrest⟩
  · rintro ⟨⟨rest, rfl⟩, hrest⟩
    rw [← hscheme, List.drop_left] at hrest
    exact ⟨rest, rfl, hrest⟩

theorem accepted_iff {credential : Str} : Accepted registry jwtParser credential ↔
    (ascii "Bearer " <+: credential ∧ (jwtParser.verify (credential.drop 7)).isSome) ∨
      (ascii "ApiKey " <+: credential ∧ (registry.isValid (credential.drop 7)).isSome) :=
  or_congr (exists_eq_append_iff (by decide)) (exists_eq_append_iff (by decide))

theorem not_accepted_nil : ¬ Accepted registry jwtParser [] := by
  rw [accepted_iff, List.prefix_nil, List.prefix_nil]
  rintro (⟨h, -⟩ | ⟨h, -⟩) <;> exact absurd h (by decide)

/-- No credential has both schemes. -/
theorem not_apiKey_of_bearer {credential : Str} (h : ascii "Bearer " <+: credential) :
    ¬ ascii "ApiKey " <+: credential := by
  intro h'
  have hlength : (ascii "Bearer ").length = (ascii "ApiKey ").length := by decide
  have heq : ascii "Bearer " = ascii "ApiKey " := by
    rw [List.prefix_iff_eq_take.mp h, List.prefix_iff_eq_take.mp h', hlength]
  exact absurd heq (by decide)

/-- The two ways through the handler. -/
theorem handler_auth_cases (registry : ApiKeyRegistry) (jwtParser : JwtParser) :
    ∃ k : Exchange E → Program (Exchange E) Exception,
      (createAuthMiddleware registry jwtParser).handler = .act id k ∧
      ∀ s, (Accepted registry jwtParser (authorization s) ∧ k s = .passOn) ∨
        (¬ Accepted registry jwtParser (authorization s) ∧ k s = .act refuse fun _ => .ret) := by
  refine ⟨_, rfl, fun s => ?_⟩
  have hcredential : s.request.getHeader (ascii "Authorization") = authorization s := rfl
  simp only [hcredential, accepted_iff]
  split_ifs with hempty hbearer htoken hkey hvalid
  · rw [List.isEmpty_iff.mp hempty, ← accepted_iff]
    exact Or.inr ⟨not_accepted_nil, rfl⟩
  · exact Or.inl ⟨Or.inl ⟨hbearer, htoken⟩, rfl⟩
  · exact Or.inr ⟨by simp [hbearer, htoken, not_apiKey_of_bearer hbearer], rfl⟩
  · exact Or.inl ⟨Or.inr ⟨hkey, hvalid⟩, rfl⟩
  · exact Or.inr ⟨by simp [hbearer, hvalid], rfl⟩
  · exact Or.inr ⟨by simp [hbearer, hkey], rfl⟩

/-- `next` is called for an accepted credential; any other is refused. -/
theorem run_auth (next : Callee κ (Exchange E) Exception) (c : κ) (s : Exchange E) :
    let handler := (createAuthMiddleware registry jwtParser).handler
    (Accepted registry jwtParser (authorization s) ∧ handler.arguments next c s = [(c, s)]) ∨
      (¬ Accepted registry jwtParser (authorization s) ∧ handler.arguments next c s = [] ∧
        (handler.run next c s).state = refuse s) := by
  obtain ⟨k, hhandler, hk⟩ := handler_auth_cases (E := E) registry jwtParser
  dsimp only
  rw [hhandler]
  have harguments : (Program.act id k).arguments next c s = (k s).arguments next c s := rfl
  have hrun : (Program.act id k).run next c s = (k s).run next c s := rfl
  rw [harguments, hrun]
  rcases hk s with ⟨haccepted, hcall⟩ | ⟨hrefused, hret⟩
  · rw [hcall]
    refine Or.inl ⟨haccepted, ?_⟩
    rw [Program.passOn, Program.arguments]
    cases (next c s).2.2 <;> rfl
  · rw [hret]
    exact Or.inr ⟨hrefused, rfl, rfl⟩

theorem orderly_auth :
    Orderly authorization (createAuthMiddleware (E := E) registry jwtParser) := by
  have hcases : ∀ (next : Callee (Progress Exception) (Exchange E) Exception) p s,
      (createAuthMiddleware registry jwtParser).handler.arguments next p s = [(p, s)] ∨
        (createAuthMiddleware registry jwtParser).handler.arguments next p s = [] :=
    fun next p s => (run_auth next p s).imp (fun h => h.2) (fun h => h.2.1)
  constructor
  · intro next p s
    rw [Program.length_calls_run]
    rcases hcases next p s with harguments | harguments <;> rw [harguments]
    · exact le_rfl
    · exact Nat.zero_le 1
  · intro next p s a ha
    rcases hcases next p s with harguments | harguments <;> rw [harguments] at ha
    · rw [List.mem_singleton.mp ha]
    · cases ha

theorem orderly_catching {σ ε β : Type} (view : σ → β) (handle : ε → σ → σ) (priority : Int) :
    Orderly view (catching handle priority) := by
  have harguments : ∀ (next : Callee (Progress ε) σ ε) p s,
      (catching handle priority).handler.arguments next p s = [(p, s)] := by
    intro next p s
    rw [catching, Program.arguments]
    cases (next p s).2.2 <;> rfl
  constructor
  · intro next p s
    rw [Program.length_calls_run, harguments, List.length_singleton]
  · intro next p s a ha
    rw [harguments, List.mem_singleton] at ha
    rw [ha]

/-! ## Authentication in a chain -/

namespace MiddlewareChain

variable {chain : MiddlewareChain (Exchange E) Exception} {s : Exchange E}
  {call : Call (Exchange E) Exception} {i : ℕ}

theorem made_auth
    (hauth : chain.middlewares[call.progress.index]? =
      some (createAuthMiddleware registry jwtParser)) :
    (Accepted registry jwtParser (authorization call.state) ∧ chain.made call ≠ []) ∨
      (¬ Accepted registry jwtParser (authorization call.state) ∧ chain.made call = [] ∧
        (chain.next call.inside call.progress call.state).2.1 = refuse call.state) := by
  rw [made, next_eq, hauth]
  rcases run_auth (chain.next (call.progress.index :: call.inside))
    { call.progress with index := call.progress.index + 1 } call.state with
    ⟨haccepted, harguments⟩ | hrefused
  · refine Or.inl ⟨haccepted, ?_⟩
    dsimp only
    rw [harguments]
    exact List.cons_ne_nil _ _
  · exact Or.inr hrefused

/-- **Authentication gates what is behind it.**  In a chain of orderly middlewares a call behind
the authentication is reached for an accepted credential only. -/
theorem accepted_of_behind_auth (horderly : ∀ m ∈ chain.middlewares, Orderly authorization m)
    (hauth : chain.middlewares[i]? = some (createAuthMiddleware registry jwtParser))
    (hreach : chain.Reaches ⟨[], {}, s⟩ call) (hbehind : i < call.progress.index) :
    Accepted registry jwtParser (authorization s) := by
  obtain ⟨-, hpassed⟩ := hreach.passed horderly
  obtain ⟨call', -, hi, hview, hmade⟩ := hpassed i (Nat.zero_le i) hbehind
  rcases made_auth (hi ▸ hauth) with ⟨haccepted, -⟩ | ⟨-, hnone, -⟩
  · exact hview ▸ haccepted
  · exact absurd hnone hmade

/-- Any other credential is refused, if the authentication is reached. -/
theorem refused_of_at_auth (horderly : ∀ m ∈ chain.middlewares, Orderly authorization m)
    (hauth : chain.middlewares[call.progress.index]? =
      some (createAuthMiddleware registry jwtParser))
    (hreach : chain.Reaches ⟨[], {}, s⟩ call)
    (hnot : ¬ Accepted registry jwtParser (authorization s)) :
    (chain.next call.inside call.progress call.state).2.1 = refuse call.state := by
  have hview : authorization call.state = authorization s := (hreach.passed horderly).1
  rcases made_auth hauth with ⟨haccepted, -⟩ | ⟨-, -, hrefused⟩
  · exact absurd (hview ▸ haccepted) hnot
  · exact hrefused

end MiddlewareChain

end GinCpp.Middleware
