import GinCpp.Context.Storage
import GinCpp.Middleware.Auth
import GinCpp.Middleware.RateLimiter
import GinCpp.Middleware.Session
import GinCpp.Utils.MiddlewareUtils

/-!
# The middlewares of a context

The middlewares of `src/middleware` leave what they find out in the `Context` that they are given,
not in headers of the request, and `MiddlewareChainBuilder` runs them in front of an application.

A pipeline of them, in any order and each as often as one likes, is a row of gates: the application
is started if all of them admit the request, and otherwise the answer is that of the first one that
does not (`run?_pipeline`).  What the application finds in the context is what they found out, and
nothing else has changed (`informed_pipeline`).
-/

namespace GinCpp

open Callback Http Middleware Utils

/-- The types of what is kept in a context: strings and others. -/
inductive ContextType (Ty : Type)
  | string
  | other (t : Ty)

def ContextType.Value {Ty : Type} (Value : Ty → Type) : ContextType Ty → Type
  | string => Str
  | other t => Value t

/-- `Context`: the request, the response and what is kept. -/
abbrev Ctx {Ty : Type} (Value : Ty → Type) := Exchange (Context (ContextType.Value Value))

variable {Ty : Type} {Value : Ty → Type}

/-- `ctx.set(key, value)` for a string. -/
def Ctx.setString (ctx : Ctx Value) (key value : Str) : Ctx Value :=
  { ctx with captured := ctx.captured.set .string key value }

/-- `ctx.get<std::string>(key)`, for what was stored as a string. -/
def Ctx.HasString (ctx : Ctx Value) (key value : Str) : Prop :=
  ctx.captured.get .string key = some ⟨⟨.string, value⟩⟩

namespace Middleware

/-! ## The middlewares -/

/-- `RequestId::operator()` in front of `next`. -/
def RequestId.identify (random : Ctx Value → RequestIdGenerator.Draws) (ctx : Ctx Value) :
    Ctx Value :=
  let requestIdHeader := ctx.request.getHeader (ascii "X-Request-ID")
  if !requestIdHeader.isEmpty then ctx.setString (ascii "request_id") requestIdHeader
  else
    let requestId := RequestIdGenerator.generate (random ctx)
    let ctx := ctx.setString (ascii "request_id") requestId
    { ctx with response := { ctx.response with
        headers := ctx.response.headers ++ [⟨ascii "X-Request-ID", requestId⟩] } }

/-- `Session::operator()` in front of `next`. -/
def Session.establish (random : Ctx Value → RequestIdGenerator.Draws) (ctx : Ctx Value) :
    Ctx Value :=
  match sessionCookie ctx.request with
  | some sessionId => ctx.setString (ascii "session_id") sessionId
  | none =>
      let sessionId := RequestIdGenerator.generate (random ctx)
      let ctx : Ctx Value := { ctx with response := { ctx.response with
        headers := ctx.response.headers ++ [setCookie sessionId] } }
      ctx.setString (ascii "session_id") sessionId

/-- `Auth::operator()`. -/
def Auth.handle (apiKeyRegistry : ApiKeyRegistry) (jwtParser : JwtParser) :
    Program (Ctx Value) Exception :=
  .act id fun ctx =>
    let authHeader := ctx.request.getHeader (ascii "Authorization")
    if authHeader.isEmpty then .act refuse fun _ => .ret
    else if ascii "Bearer " <+: authHeader then
      match jwtParser.verify (authHeader.drop 7) with
      | some payload => .act (·.setString (ascii "user") payload) fun _ => .passOn
      | none => .act refuse fun _ => .ret
    else if ascii "ApiKey " <+: authHeader then
      match apiKeyRegistry.isValid (authHeader.drop 7) with
      | some user => .act (·.setString (ascii "user") user) fun _ => .passOn
      | none => .act refuse fun _ => .ret
    else .act refuse fun _ => .ret

/-- `ErrorHandler::operator()`. -/
def ErrorHandler.handle : Program (Ctx Value) Exception :=
  .call fun
    | none => .ret
    | some e => .act (renderException e) fun _ => .ret

/-- A middleware of a pipeline.  The session store is not used; a limiter comes with the time. -/
inductive Stage (Value : Ty → Type)
  | requestId (random : Ctx Value → RequestIdGenerator.Draws)
  | session (random : Ctx Value → RequestIdGenerator.Draws)
  | auth (apiKeyRegistry : ApiKeyRegistry) (jwtParser : JwtParser)
  | rateLimiter (limiter : RateLimiter) (now : ℚ)
  | errorHandler

/-- `operator()`. -/
def Stage.handle : Stage Value → Program (Ctx Value) Exception
  | requestId random => .act (RequestId.identify random) fun _ => .passOn
  | session random => .act (Session.establish random) fun _ => .passOn
  | auth apiKeyRegistry jwtParser => Auth.handle apiKeyRegistry jwtParser
  | rateLimiter limiter now => (limiter.handle now).2
  | errorHandler => ErrorHandler.handle

/-- The builder with the middlewares of a pipeline, and the application behind them. -/
def pipeline (stages : List (Stage Value)) (app : Program (Ctx Value) Exception) :
    MiddlewareChainBuilder (Ctx Value) Exception :=
  ((stages.map Stage.handle).foldl MiddlewareChainBuilder.add {}).add app

/-! ## What a middleware does -/

/-- The user of a credential. -/
def Auth.user (apiKeyRegistry : ApiKeyRegistry) (jwtParser : JwtParser) (credential : Str) :
    Option Str :=
  if ascii "Bearer " <+: credential then jwtParser.verify (credential.drop 7)
  else if ascii "ApiKey " <+: credential then apiKeyRegistry.isValid (credential.drop 7)
  else none

/-- A credential is that of a user if and only if it is accepted. -/
theorem Auth.isSome_user_iff {apiKeyRegistry : ApiKeyRegistry} {jwtParser : JwtParser}
    {credential : Str} : (Auth.user apiKeyRegistry jwtParser credential).isSome ↔
      Accepted apiKeyRegistry jwtParser credential := by
  rw [accepted_iff, Auth.user]
  split_ifs with hbearer hkey
  · simp [hbearer, not_apiKey_of_bearer hbearer]
  · simp [hbearer, hkey]
  · simp [hbearer, hkey]

namespace Stage

/-- Whether `next` is called. -/
def admits (request : Request) : Stage Value → Bool
  | auth apiKeyRegistry jwtParser =>
      (Auth.user apiKeyRegistry jwtParser (request.getHeader (ascii "Authorization"))).isSome
  | rateLimiter limiter now => (limiter.consume now).1
  | _ => true

/-- What is done in front of `next`. -/
def enter (ctx : Ctx Value) : Stage Value → Ctx Value
  | requestId random => RequestId.identify random ctx
  | session random => Session.establish random ctx
  | auth apiKeyRegistry jwtParser =>
      match Auth.user apiKeyRegistry jwtParser
        (ctx.request.getHeader (ascii "Authorization")) with
      | some user => ctx.setString (ascii "user") user
      | none => ctx
  | _ => ctx

/-- What is answered instead of calling `next`. -/
def refusal (ctx : Ctx Value) : Stage Value → Ctx Value
  | auth _ _ => refuse ctx
  | rateLimiter _ _ => RateLimiter.tooManyRequests ctx
  | _ => ctx

def isErrorHandler : Stage Value → Bool
  | errorHandler => true
  | _ => false

end Stage

/-- What a middleware makes of the answer of `next`. -/
def Stage.settle : Stage Value → Ctx Value × Option Exception → Ctx Value × Option Exception
  | errorHandler => fun answer =>
      match answer.2 with
      | some e => (renderException e answer.1, none)
      | none => answer
  | _ => id

theorem Auth.user_nil {apiKeyRegistry : ApiKeyRegistry} {jwtParser : JwtParser} :
    Auth.user apiKeyRegistry jwtParser [] = none := by
  rw [← Option.not_isSome_iff_eq_none, Auth.isSome_user_iff]
  exact not_accepted_nil

theorem Auth.run?_handle {κ : Type} (apiKeyRegistry : ApiKeyRegistry) (jwtParser : JwtParser)
    (next : PartialCallee κ (Ctx Value) Exception) (c : κ) (ctx : Ctx Value) :
    (Auth.handle apiKeyRegistry jwtParser).run? next c ctx =
      match Auth.user apiKeyRegistry jwtParser
        (ctx.request.getHeader (ascii "Authorization")) with
      | some user => next c (ctx.setString (ascii "user") user)
      | none => some (c, refuse ctx, none) := by
  have hpassOn := Program.run?_passOn next c
  unfold Auth.handle
  rw [Program.run?]
  dsimp only [id]
  generalize ctx.request.getHeader (ascii "Authorization") = authHeader
  by_cases hempty : authHeader.isEmpty
  · obtain rfl := List.isEmpty_iff.mp hempty
    rw [if_pos hempty, Auth.user_nil]
    rfl
  rw [if_neg hempty, Auth.user]
  by_cases hbearer : ascii "Bearer " <+: authHeader
  · rw [if_pos hbearer, if_pos hbearer]
    cases jwtParser.verify (authHeader.drop 7) with
    | some payload => exact hpassOn _
    | none => rfl
  rw [if_neg hbearer, if_neg hbearer]
  by_cases hkey : ascii "ApiKey " <+: authHeader
  · rw [if_pos hkey, if_pos hkey]
    cases apiKeyRegistry.isValid (authHeader.drop 7) with
    | some user => exact hpassOn _
    | none => rfl
  · rw [if_neg hkey, if_neg hkey]
    rfl

/-- A middleware calls `next` once, or refuses. -/
theorem Stage.run?_handle {κ : Type} (stage : Stage Value)
    (next : PartialCallee κ (Ctx Value) Exception) (c : κ) (ctx : Ctx Value) :
    stage.handle.run? next c ctx =
      if stage.admits ctx.request then
        (next c (stage.enter ctx)).map (Prod.map id stage.settle)
      else some (c, stage.refusal ctx, none) := by
  have hpassOn : ∀ ctx : Ctx Value,
      Program.passOn.run? next c ctx = (next c ctx).map (Prod.map id id) := by
    intro ctx
    rw [Program.run?_passOn, Prod.map_id, Option.map_id_fun, id]
  cases stage with
  | requestId random => exact hpassOn _
  | session random => exact hpassOn _
  | auth apiKeyRegistry jwtParser =>
      show (Auth.handle apiKeyRegistry jwtParser).run? next c ctx = _
      rw [Auth.run?_handle, enter, admits]
      cases Auth.user apiKeyRegistry jwtParser
          (ctx.request.getHeader (ascii "Authorization")) with
      | some user =>
          show _ = Option.map (Prod.map id id) _
          rw [Prod.map_id, Option.map_id_fun, id]
      | none => rfl
  | rateLimiter limiter now =>
      show (if (limiter.consume now).1 then Program.passOn else
        .act RateLimiter.tooManyRequests fun _ => .ret).run? next c ctx = _
      rw [admits]
      cases (limiter.consume now).1 with
      | true => exact hpassOn ctx
      | false => rfl
  | errorHandler =>
      show (next c ctx).bind _ = (next c ctx).map _
      cases next c ctx with
      | none => rfl
      | some answer =>
          obtain ⟨c', ctx', outcome⟩ := answer
          cases outcome <;> rfl

/-! ## The pipeline -/

theorem Stage.request_enter (stage : Stage Value) (ctx : Ctx Value) :
    (stage.enter ctx).request = ctx.request := by
  cases stage with
  | requestId random =>
      show (RequestId.identify random ctx).request = _
      unfold RequestId.identify
      dsimp only
      split_ifs <;> rfl
  | session random =>
      show (Session.establish random ctx).request = _
      unfold Session.establish
      cases sessionCookie ctx.request <;> rfl
  | auth apiKeyRegistry jwtParser =>
      unfold enter
      dsimp only
      split <;> rfl
  | rateLimiter limiter now => rfl
  | errorHandler => rfl

section

variable {stages : List (Stage Value)} {app : Program (Ctx Value) Exception}

theorem middlewares_foldl_add {σ ε : Type} (builder : MiddlewareChainBuilder σ ε)
    (programs : List (Program σ ε)) :
    (programs.foldl MiddlewareChainBuilder.add builder).middlewares =
      builder.middlewares ++ programs := by
  induction programs generalizing builder with
  | nil => exact (List.append_nil _).symm
  | cons program programs ih =>
      rw [List.foldl_cons, ih]
      exact List.append_assoc _ _ _

theorem middlewares_pipeline :
    (pipeline stages app).middlewares = stages.map Stage.handle ++ [app] := by
  have hadded := middlewares_foldl_add {} (stages.map Stage.handle)
  show (_ : MiddlewareChainBuilder _ _).middlewares ++ [app] = _
  rw [hadded]
  rfl

/-- The `next` that has nothing behind it. -/
def nothing : Callee Unit (Ctx Value) Exception := fun c ctx => (c, ctx, none)

/-- An application on its own. -/
def alone (app : Program (Ctx Value) Exception) (ctx : Ctx Value) :
    Ctx Value × Option Exception :=
  let run := app.run nothing () ctx
  (run.state, run.outcome)

/-- The gates one behind the other, and the application. -/
def answer (app : Program (Ctx Value) Exception) :
    List (Stage Value) → Ctx Value → Ctx Value × Option Exception
  | [], ctx => alone app ctx
  | stage :: stages, ctx =>
      if stage.admits ctx.request then stage.settle (answer app stages (stage.enter ctx))
      else (stage.refusal ctx, none)

/-- What the closure answers when its iterator is at a gate. -/
theorem next?_pipeline {i depth : ℕ} (hi : i ≤ stages.length)
    (hdepth : stages.length + 1 < depth + i) (ctx : Ctx Value) :
    ((pipeline stages app).next? depth i ctx).map Prod.snd =
      some (answer app (stages.drop i) ctx) := by
  have hlength : (pipeline stages app).middlewares.length = stages.length + 1 := by
    rw [middlewares_pipeline, List.length_append, List.length_map, List.length_singleton]
  induction depth generalizing i ctx with
  | zero => omega
  | succ depth ih =>
      rw [MiddlewareChainBuilder.next?, dif_pos (by omega)]
      rcases hi.lt_or_eq with hlt | rfl
      · have hstage : ∀ h : i < (pipeline stages app).middlewares.length,
            (pipeline stages app).middlewares[i] = stages[i].handle := by
          simp [middlewares_pipeline, hlt]
        rw [hstage, Stage.run?_handle, List.drop_eq_getElem_cons hlt, answer]
        split_ifs with hadmits
        · have hsettle : Prod.snd ∘ Prod.map id stages[i].settle =
              stages[i].settle ∘ (Prod.snd : ℕ × _ → _) := rfl
          rw [Option.map_map, hsettle, ← Option.map_map, ih hlt (by omega), Option.map_some]
        · rfl
      · -- behind the application there is nothing
        have happ : ∀ h : stages.length < (pipeline stages app).middlewares.length,
            (pipeline stages app).middlewares[stages.length] = app := by
          simp [middlewares_pipeline]
        have hcall : ∀ (c : Unit) (c' : ℕ) (ctx : Ctx Value), c' = stages.length + 1 →
            ∃ d', (pipeline stages app).next? depth c' ctx = some (d', (nothing c ctx).2) ∧
              d' = stages.length + 1 := by
          rintro c _ ctx rfl
          obtain ⟨depth, rfl⟩ : ∃ n, depth = n + 1 := ⟨depth - 1, by omega⟩
          refine ⟨stages.length + 1, ?_, rfl⟩
          rw [MiddlewareChainBuilder.next?, dif_neg (by omega)]
          rfl
        obtain ⟨d', hrun, -⟩ := Program.run?_of_simulation hcall app (c := ()) ctx rfl
        rw [happ, hrun, List.drop_length, answer]
        rfl

/-- An error handler answers what is thrown behind it, wherever it is. -/
def settleAll (stages : List (Stage Value)) (answer : Ctx Value × Option Exception) :
    Ctx Value × Option Exception :=
  if stages.any Stage.isErrorHandler then Stage.errorHandler.settle answer else answer

theorem settle_settleAll (stage : Stage Value) (answer : Ctx Value × Option Exception) :
    stage.settle (settleAll stages answer) = settleAll (stage :: stages) answer := by
  have hidempotent : ∀ answer : Ctx Value × Option Exception,
      Stage.errorHandler.settle (Stage.errorHandler.settle answer) =
        Stage.errorHandler.settle answer := by
    rintro ⟨ctx, outcome⟩
    cases outcome <;> rfl
  unfold settleAll
  cases stage with
  | errorHandler =>
      rw [List.any_cons, Stage.isErrorHandler, Bool.true_or, if_pos rfl]
      split_ifs
      · exact hidempotent answer
      · rfl
  | requestId random => rfl
  | session random => rfl
  | auth apiKeyRegistry jwtParser => rfl
  | rateLimiter limiter now => rfl

theorem Stage.settle_returned (stage : Stage Value) (ctx : Ctx Value) :
    stage.settle (ctx, none) = (ctx, none) := by
  cases stage <;> rfl

/-- The first gate that does not admit the request answers. -/
theorem answer_eq (stages : List (Stage Value)) (ctx : Ctx Value) :
    answer app stages ctx =
      match stages.dropWhile (Stage.admits ctx.request) with
      | [] => settleAll stages (alone app (stages.foldl Stage.enter ctx))
      | stage :: _ =>
          (stage.refusal ((stages.takeWhile (Stage.admits ctx.request)).foldl Stage.enter ctx),
            none) := by
  induction stages generalizing ctx with
  | nil => rfl
  | cons stage stages ih =>
      rw [answer]
      split_ifs with hadmits
      · rw [ih, stage.request_enter, List.dropWhile_cons_of_pos hadmits,
          List.takeWhile_cons_of_pos hadmits]
        cases stages.dropWhile (Stage.admits ctx.request) with
        | nil => exact settle_settleAll stage _
        | cons refusing rest => exact stage.settle_returned _
      · rw [List.dropWhile_cons_of_neg hadmits, List.takeWhile_cons_of_neg hadmits]
        rfl

/-- **A pipeline is a row of gates**: the application is started behind all of them, or the first
gate that does not admit the request answers, whatever the application is. -/
theorem run?_pipeline (stages : List (Stage Value)) (app : Program (Ctx Value) Exception)
    (ctx : Ctx Value) (more : ℕ) :
    (pipeline stages app).run? (stages.length + 2 + more) ctx = some (
      match stages.dropWhile (Stage.admits ctx.request) with
      | [] => settleAll stages (alone app (stages.foldl Stage.enter ctx))
      | stage :: _ =>
          (stage.refusal ((stages.takeWhile (Stage.admits ctx.request)).foldl Stage.enter ctx),
            none)) := by
  rw [MiddlewareChainBuilder.run?, next?_pipeline (Nat.zero_le _) (by omega), List.drop_zero,
    answer_eq]

end

/-! ## What the application finds -/

namespace Stage

/-- The key under which a middleware leaves what it finds out. -/
def key? : Stage Value → Option Str
  | requestId _ => some (ascii "request_id")
  | session _ => some (ascii "session_id")
  | auth _ _ => some (ascii "user")
  | _ => none

/-- What a middleware finds out. -/
def finding (ctx : Ctx Value) : Stage Value → Option (Str × Str)
  | requestId random => some (ascii "request_id", Middleware.requestId (random ctx) ctx.request)
  | session random => some (ascii "session_id", sessionId (random ctx) ctx.request)
  | auth apiKeyRegistry jwtParser =>
      (Auth.user apiKeyRegistry jwtParser (ctx.request.getHeader (ascii "Authorization"))).map
        (ascii "user", ·)
  | _ => none

/-- The headers by which a middleware tells the client. -/
def added (ctx : Ctx Value) : Stage Value → List Header
  | requestId random =>
      if !(ctx.request.getHeader (ascii "X-Request-ID")).isEmpty then []
      else [⟨ascii "X-Request-ID", Middleware.requestId (random ctx) ctx.request⟩]
  | session random =>
      if (sessionCookie ctx.request).isSome then []
      else [setCookie (sessionId (random ctx) ctx.request)]
  | _ => []

/-- What is found out is left in the context, and the rest is as it was. -/
theorem enter_eq (stage : Stage Value) (ctx : Ctx Value) :
    stage.enter ctx =
      { request := ctx.request
        response := { ctx.response with
          headers := ctx.response.headers ++ stage.added ctx }
        captured :=
          match stage.finding ctx with
          | some (key, value) => ctx.captured.set .string key value
          | none => ctx.captured } := by
  have hsame : ∀ ctx : Ctx Value, ctx = { ctx with response := { ctx.response with
      headers := ctx.response.headers ++ [] } } := by
    intro ctx
    rw [List.append_nil]
  cases stage with
  | requestId random =>
      show RequestId.identify random ctx = _
      unfold RequestId.identify finding added Middleware.requestId
      dsimp only
      split_ifs
      · exact hsame _
      · rfl
  | session random =>
      show Session.establish random ctx = _
      unfold Session.establish finding added sessionId
      dsimp only
      cases sessionCookie ctx.request with
      | some cookie => exact hsame _
      | none => rfl
  | auth apiKeyRegistry jwtParser =>
      unfold enter finding added
      dsimp only
      cases Auth.user apiKeyRegistry jwtParser
          (ctx.request.getHeader (ascii "Authorization")) with
      | some user => exact hsame _
      | none => exact hsame _
  | rateLimiter limiter now => exact hsame _
  | errorHandler => exact hsame _

/-- A middleware that admits a request finds out what it is for. -/
theorem exists_finding {stage : Stage Value} {ctx : Ctx Value} {key : Str}
    (hkey : stage.key? = some key) (hadmits : stage.admits ctx.request = true) :
    ∃ value, stage.finding ctx = some (key, value) := by
  cases stage with
  | requestId random =>
      obtain rfl := Option.some_inj.mp hkey
      exact ⟨_, rfl⟩
  | session random =>
      obtain rfl := Option.some_inj.mp hkey
      exact ⟨_, rfl⟩
  | auth apiKeyRegistry jwtParser =>
      obtain rfl := Option.some_inj.mp hkey
      obtain ⟨user, huser⟩ := Option.isSome_iff_exists.mp hadmits
      exact ⟨user, by rw [finding, huser, Option.map_some]⟩
  | rateLimiter limiter now => cases hkey
  | errorHandler => cases hkey

end Stage

/-- What is found out about a client: an id of its own choice or one that it is told, and a user
that its credential is that of. -/
inductive Genuine (stages : List (Stage Value)) (request : Request) (headers : List Header) :
    Str → Str → Prop
  | requestId (id : Str)
      (h : if !(request.getHeader (ascii "X-Request-ID")).isEmpty
        then id = request.getHeader (ascii "X-Request-ID")
        else ⟨ascii "X-Request-ID", id⟩ ∈ headers) :
      Genuine stages request headers (ascii "request_id") id
  | session (id : Str)
      (h : match sessionCookie request with
        | some cookie => id = cookie
        | none => setCookie id ∈ headers) :
      Genuine stages request headers (ascii "session_id") id
  | user (name : Str) (apiKeyRegistry : ApiKeyRegistry) (jwtParser : JwtParser)
      (hstage : .auth apiKeyRegistry jwtParser ∈ stages)
      (huser : Auth.user apiKeyRegistry jwtParser (request.getHeader (ascii "Authorization")) =
        some name) :
      Genuine stages request headers (ascii "user") name

/-- The context in which the application is started. -/
structure Informed (stages : List (Stage Value)) (ctx entered : Ctx Value) : Prop where
  request : entered.request = ctx.request
  status : entered.response.status = ctx.response.status
  content : entered.response.content = ctx.response.content
  headers : ctx.response.headers <+: entered.response.headers
  found : ∀ stage ∈ stages, ∀ key, stage.key? = some key → ∃ value,
    entered.HasString key value ∧ Genuine stages ctx.request entered.response.headers key value
  others : ∀ key, (∀ stage ∈ stages, stage.key? ≠ some key) →
    entered.captured.data key = ctx.captured.data key

section

variable {stages stages' : List (Stage Value)} {stage : Stage Value} {ctx entered : Ctx Value}
  {headers headers' : List Header} {request : Request} {key value : Str}

theorem Genuine.mono (h : Genuine stages request headers key value)
    (hstages : ∀ stage ∈ stages, stage ∈ stages')
    (hheaders : ∀ header ∈ headers, header ∈ headers') :
    Genuine stages' request headers' key value := by
  cases h with
  | requestId _ h =>
      refine .requestId _ ?_
      split_ifs at h ⊢
      · exact h
      · exact hheaders _ h
  | session _ h =>
      refine .session _ ?_
      cases hcookie : sessionCookie request with
      | some cookie =>
          rw [hcookie] at h
          exact h
      | none =>
          rw [hcookie] at h
          exact hheaders _ h
  | user _ apiKeyRegistry jwtParser hstage huser =>
      exact .user _ apiKeyRegistry jwtParser (hstages _ hstage) huser

/-- What a middleware finds out is genuine. -/
theorem Stage.genuine_finding (h : stage.finding ctx = some (key, value)) :
    Genuine [stage] ctx.request (ctx.response.headers ++ stage.added ctx) key value := by
  cases stage with
  | requestId random =>
      obtain ⟨rfl, rfl⟩ := Prod.mk.inj (Option.some_inj.mp h)
      refine .requestId _ ?_
      unfold added Middleware.requestId
      dsimp only
      split_ifs
      · rfl
      · exact List.mem_append_right _ (List.mem_singleton_self _)
  | session random =>
      obtain ⟨rfl, rfl⟩ := Prod.mk.inj (Option.some_inj.mp h)
      refine .session _ ?_
      unfold added sessionId
      cases sessionCookie ctx.request with
      | some cookie => rfl
      | none => exact List.mem_append_right _ (List.mem_singleton_self _)
  | auth apiKeyRegistry jwtParser =>
      obtain ⟨user, huser, hfinding⟩ := Option.map_eq_some_iff.mp h
      obtain ⟨rfl, rfl⟩ := Prod.mk.inj hfinding
      exact .user _ apiKeyRegistry jwtParser (List.mem_singleton_self _) huser
  | rateLimiter limiter now => cases h
  | errorHandler => cases h

theorem Stage.key?_of_finding (h : stage.finding ctx = some (key, value)) :
    stage.key? = some key := by
  cases stage with
  | requestId random => exact congrArg some (Prod.mk.inj (Option.some_inj.mp h)).1
  | session random => exact congrArg some (Prod.mk.inj (Option.some_inj.mp h)).1
  | auth apiKeyRegistry jwtParser =>
      obtain ⟨user, -, hfinding⟩ := Option.map_eq_some_iff.mp h
      exact congrArg some (Prod.mk.inj hfinding).1
  | rateLimiter limiter now => cases h
  | errorHandler => cases h

theorem hasString_iff :
    ctx.HasString key value ↔ ctx.captured.data key = some ⟨.string, value⟩ := by
  rw [Ctx.HasString, Context.get]
  cases ctx.captured.data key with
  | none => simp
  | some stored => simp

theorem Stage.hasString_enter (h : stage.finding ctx = some (key, value)) :
    (stage.enter ctx).HasString key value := by
  rw [hasString_iff, enter_eq, h]
  exact Function.update_self _ _ _

/-- A middleware leaves what is kept under the other keys. -/
theorem Stage.data_enter (h : ∀ value, stage.finding ctx ≠ some (key, value)) :
    (stage.enter ctx).captured.data key = ctx.captured.data key := by
  rw [enter_eq]
  cases hfinding : stage.finding ctx with
  | none => rfl
  | some finding =>
      have hother : key ≠ finding.1 := by
        rintro rfl
        exact h finding.2 hfinding
      exact Function.update_of_ne hother _ _

theorem informed_nil (ctx : Ctx Value) : Informed [] ctx ctx :=
  ⟨rfl, rfl, rfl, List.prefix_rfl, nofun, fun _ _ => rfl⟩

/-- One gate more. -/
theorem Informed.enter (h : Informed stages ctx entered)
    (hadmits : stage.admits ctx.request = true) :
    Informed (stages ++ [stage]) ctx (stage.enter entered) := by
  have hheaders : (stage.enter entered).response.headers =
      entered.response.headers ++ stage.added entered := by rw [stage.enter_eq]
  have hmore : ∀ header ∈ entered.response.headers,
      header ∈ (stage.enter entered).response.headers := by
    intro header hheader
    rw [hheaders]
    exact List.mem_append_left _ hheader
  refine ⟨(stage.request_enter entered).trans h.request, ?_, ?_, ?_, ?_, ?_⟩
  · rw [stage.enter_eq]
    exact h.status
  · rw [stage.enter_eq]
    exact h.content
  · rw [hheaders]
    exact h.headers.trans (List.prefix_append _ _)
  · intro stage' hstage' key hkey
    by_cases hfinding : ∃ value, stage.finding entered = some (key, value)
    · -- what the last gate finds out replaces what was there
      obtain ⟨value, hfinding⟩ := hfinding
      have hgenuine := Stage.genuine_finding hfinding
      rw [h.request, ← hheaders] at hgenuine
      refine ⟨value, Stage.hasString_enter hfinding, hgenuine.mono ?_ fun _ => id⟩
      exact fun _ => List.mem_append_right _
    · rw [not_exists] at hfinding
      have hbefore : stage' ∈ stages := by
        refine (List.mem_append.mp hstage').resolve_right fun hlast => ?_
        obtain rfl := List.mem_singleton.mp hlast
        obtain ⟨value, hvalue⟩ := Stage.exists_finding hkey (h.request ▸ hadmits)
        exact hfinding value hvalue
      obtain ⟨value, hvalue, hgenuine⟩ := h.found stage' hbefore key hkey
      refine ⟨value, ?_, hgenuine.mono (fun _ => List.mem_append_left _) hmore⟩
      rw [hasString_iff, Stage.data_enter hfinding]
      exact hasString_iff.mp hvalue
  · intro key hkey
    have hlast : ∀ value, stage.finding entered ≠ some (key, value) := by
      intro value hfinding
      exact hkey stage (List.mem_append_right _ (List.mem_singleton_self _))
        (Stage.key?_of_finding hfinding)
    rw [Stage.data_enter hlast]
    exact h.others key fun stage' hstage' => hkey stage' (List.mem_append_left _ hstage')

theorem informed_foldl (hadmits : ∀ stage ∈ stages, stage.admits ctx.request = true) :
    Informed stages ctx (stages.foldl Stage.enter ctx) := by
  induction stages using List.reverseRecOn with
  | nil => exact informed_nil ctx
  | append_singleton stages stage ih =>
      rw [List.foldl_concat]
      refine (ih fun stage' hstage' => ?_).enter ?_
      · exact hadmits stage' (List.mem_append_left _ hstage')
      · exact hadmits stage (List.mem_append_right _ (List.mem_singleton_self _))

end

/-- **What an application finds is what was found out**: if all the gates admit the request, every
application is started in one and the same context, which says what they found out, and else is
as it was. -/
theorem informed_pipeline (stages : List (Stage Value)) (ctx : Ctx Value)
    (hadmits : ∀ stage ∈ stages, stage.admits ctx.request = true) :
    ∃ entered, Informed stages ctx entered ∧ ∀ (app : Program (Ctx Value) Exception) (more : ℕ),
      (pipeline stages app).run? (stages.length + 2 + more) ctx =
        some (settleAll stages (alone app entered)) := by
  refine ⟨stages.foldl Stage.enter ctx, informed_foldl hadmits, fun app more => ?_⟩
  rw [MiddlewareChainBuilder.run?, next?_pipeline (Nat.zero_le _) (by omega), List.drop_zero,
    answer_eq, List.dropWhile_eq_nil_iff.mpr hadmits]

/-- The session that is found is that of the cookie. -/
theorem Genuine.eq_cookie {stages : List (Stage Value)} {request : Request}
    {headers : List Header} {id cookie : Str}
    (h : Genuine stages request headers (ascii "session_id") id)
    (hcookie : sessionCookie request = some cookie) : id = cookie := by
  generalize hkey : ascii "session_id" = key at h
  cases h with
  | requestId _ h => exact absurd hkey (by decide)
  | session _ h =>
      rw [hcookie] at h
      exact h
  | user _ apiKeyRegistry jwtParser hstage huser => exact absurd hkey (by decide)

/-- A client names another session in a header of its own, and the application throws. -/
theorem informed_pipeline_forged :
    let ctx : Ctx fun _ : Empty => Empty := ⟨forgedRequest, ⟨.ok, [], []⟩, {}⟩
    ∃ entered : Ctx fun _ : Empty => Empty,
      entered.HasString (ascii "session_id") (ascii "mine") ∧
        (pipeline [.session fun _ => ⟨fun _ => 0, 0⟩, .errorHandler] (.throw .other)).run? 4 ctx =
          some (renderException .other entered, none) := by
  intro ctx
  obtain ⟨entered, hinformed, hrun⟩ := informed_pipeline
    [.session fun _ => ⟨fun _ => 0, 0⟩, .errorHandler] ctx
    (List.forall_mem_cons.mpr ⟨rfl, List.forall_mem_singleton.mpr rfl⟩)
  obtain ⟨id, hid, hgenuine⟩ := hinformed.found _ List.mem_cons_self _ rfl
  obtain rfl : id = ascii "mine" := hgenuine.eq_cookie (by decide +kernel)
  exact ⟨entered, hid, hrun (.throw .other) 0⟩

end Middleware

end GinCpp
