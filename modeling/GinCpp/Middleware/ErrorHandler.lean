import GinCpp.Http.Message
import GinCpp.Middleware.Chain

/-!
# The error handler

`middleware/error_handler.cpp` and `utils/error_renderer.cpp`.  The error handler catches what its
call of `next` throws.  As the last middleware of a chain it encloses the final handler alone
(`guarded_next`, `passed_next`).
-/

namespace GinCpp.Middleware

open Callback Http

/-- What is thrown: a `std::exception` with its `what()`, or anything else. -/
inductive Exception
  | std (what : Str)
  | other
  deriving DecidableEq, Repr

/-- The request and the response that handlers are given, and what else they capture. -/
structure Exchange (E : Type) where
  request : Request
  response : Response
  captured : E

/-! ## Rendering errors -/

namespace ErrorRenderer

/-- A response with a rendered error; the header is added to those that are there. -/
def rendered (response : Response) (statusCode : StatusCode) (contentType content : Str) :
    Response :=
  { status := statusCode, headers := response.headers ++ [⟨ascii "Content-Type", contentType⟩],
    content }

def renderHtml (response : Response) (statusCode : StatusCode) (errorMessage : Str) : Response :=
  rendered response statusCode (ascii "text/html")
    (ascii "<html><head><title>Error</title></head><body><h1>" ++ Http.toString statusCode.code ++
      ascii "</h1><p>" ++ errorMessage ++ ascii "</p></body></html>")

def renderJson (response : Response) (statusCode : StatusCode) (errorMessage : Str) : Response :=
  rendered response statusCode (ascii "application/json")
    (ascii "\x7b\"status\": " ++ Http.toString statusCode.code ++ ascii ", \"error\": \"" ++
      errorMessage ++ ascii "\"\x7d")

def renderText (response : Response) (statusCode : StatusCode) (errorMessage : Str) : Response :=
  rendered response statusCode (ascii "text/plain")
    (Http.toString statusCode.code ++ ascii " " ++ errorMessage)

/-- `ErrorRenderer::render`. -/
def render (response : Response) (statusCode : StatusCode) (errorMessage contentType : Str) :
    Response :=
  if ascii "application/json" <:+: contentType then renderJson response statusCode errorMessage
  else if ascii "text/html" <:+: contentType then renderHtml response statusCode errorMessage
  else renderText response statusCode errorMessage

@[simp] theorem render_status (response : Response) (statusCode : StatusCode)
    (errorMessage contentType : Str) :
    (render response statusCode errorMessage contentType).status = statusCode := by
  unfold render
  split_ifs <;> rfl

end ErrorRenderer

example : (ErrorRenderer.render ⟨.ok, [], []⟩ .internalServerError (ascii "Test error")
    (ascii "application/json")).content =
      ascii "\x7b\"status\": 500, \"error\": \"Test error\"\x7d" := by decide

/-! ## Catching exceptions -/

universe u

variable {σ ε : Type u}

/-- A middleware that calls `next` and turns what it throws into a state. -/
def catching (handle : ε → σ → σ) (priority : Int) : Middleware σ ε where
  priority
  handler := .call fun
    | none => .ret
    | some e => .act (handle e) fun _ => .ret

section

variable {E : Type}

/-- The message of the rendered error. -/
def Exception.message : Exception → Str
  | .std what => what
  | .other => ascii "Internal Server Error"

/-- The two catch clauses, less the logging. -/
def renderException (e : Exception) (s : Exchange E) : Exchange E :=
  { s with
    response := ErrorRenderer.render s.response .internalServerError e.message
      (s.request.getHeader (ascii "Accept")) }

/-- `create_error_handler`. -/
def createErrorHandler : Middleware (Exchange E) Exception :=
  catching renderException 100  -- "High priority to run first"

end

/-! ## A chain whose last middleware catches -/

namespace MiddlewareChain

variable {chain : MiddlewareChain σ ε} {outer : List (Middleware σ ε)} {handle : ε → σ → σ}
  {priority : Int}

/-- The state after the last middleware has caught what the final handler threw. -/
def caught (chain : MiddlewareChain σ ε) (handle : ε → σ → σ) (s : σ) : σ :=
  match (chain.finalHandler s).2 with
  | none => (chain.finalHandler s).1
  | some e => handle e (chain.finalHandler s).1

/-- The last middleware returns, whatever the final handler does. -/
theorem next_catching (hchain : chain.middlewares = outer ++ [catching handle priority])
    (inside : List ℕ) {p : Progress ε} (h : p.index = outer.length) (s : σ) :
    chain.next inside p s =
      (⟨outer.length + 1, p.log ++
          [⟨outer.length + 1, outer.length :: inside, [], (chain.finalHandler s).2⟩,
            ⟨outer.length, inside, [(chain.finalHandler s).2], none⟩]⟩,
        chain.caught handle s, none) := by
  have hlength : chain.middlewares.length = outer.length + 1 := by
    rw [hchain, List.length_append, List.length_singleton]
  have hlast : chain.middlewares[p.index]? = some (catching handle priority) := by
    rw [hchain, h]
    simp
  rw [next_eq, hlast]
  dsimp only [catching, Program.run]
  rw [Program.runFrom_call, next_of_le (by rw [hlength, h]), finish, caught, hlength, h]
  dsimp only
  cases (chain.finalHandler s).2 with
  | none => simp [Program.runFrom]
  | some e => simp [Program.runFrom]

end MiddlewareChain

/-- No middleware before a position throws. -/
def Calm (n : ℕ) (log : List (Entry ε)) : Prop := ∀ e ∈ log, e.position < n → e.outcome = none

/-- Something is thrown. -/
def Raised (log : List (Entry ε)) : Prop := ∃ e ∈ log, e.outcome.isSome

theorem calm_concat {n : ℕ} {D : List (Entry ε)} {e : Entry ε} (h : e.position < n) :
    Calm n (D ++ [e]) ↔ Calm n D ∧ e.outcome = none := by
  rw [Calm, List.forall_mem_append, List.forall_mem_singleton]
  exact and_congr_right fun _ => ⟨fun hnone => hnone h, fun hnone _ => hnone⟩

theorem Raised.of_concat {D : List (Entry ε)} {e : Entry ε} (h : Raised (D ++ [e]))
    (hnone : e.outcome = none) : Raised D := by
  obtain ⟨e', he', hthrows⟩ := h
  rcases List.mem_append.mp he' with he' | he'
  · exact ⟨e', he', hthrows⟩
  · rw [List.mem_singleton.mp he', hnone] at hthrows
    cases hthrows

namespace MiddlewareChain

variable {chain : MiddlewareChain σ ε} {outer : List (Middleware σ ε)} {handle : ε → σ → σ}
  {priority : Int} {I : σ → Prop}

/-- A middleware that calls `next` at most once. -/
theorem runAt_cases (inside : List ℕ) {p : Progress ε} (s : σ)
    (hlt : p.index < chain.middlewares.length)
    (honce : (chain.middlewares[p.index]).handler.Once I) :
    (chain.runAt inside p s hlt).control = { p with index := p.index + 1 } ∨ ∃ s',
      (chain.runAt inside p s hlt).control =
        (chain.next (p.index :: inside) { p with index := p.index + 1 } s').1 ∧
      ((chain.next (p.index :: inside) { p with index := p.index + 1 } s').2.2 = none →
        I (chain.next (p.index :: inside) { p with index := p.index + 1 } s').2.1 →
        I (chain.runAt inside p s hlt).state) ∧
      ((chain.middlewares[p.index]).handler.PassesOn → ∀ e,
        (chain.next (p.index :: inside) { p with index := p.index + 1 } s').2.2 = some e →
        (chain.runAt inside p s hlt).outcome = some e) :=
  honce.runFrom_cases _ _ s []

/-- The last middleware returns whatever the final handler does. -/
theorem contained_next_last (hchain : chain.middlewares = outer ++ [catching handle priority])
    (hhandle : ∀ e s, I (handle e s)) (inside : List ℕ) {p : Progress ε}
    (h : p.index = outer.length) (s : σ) :
    (chain.next inside p s).2.2 = none ∧
      ∃ D, (chain.next inside p s).1.log = p.log ++ D ∧ Calm outer.length D ∧
        (Raised D → I (chain.next inside p s).2.1) := by
  rw [next_catching hchain inside h]
  refine ⟨rfl, _, rfl, ?_, ?_⟩
  · refine List.forall_mem_cons.mpr ⟨fun hlt => ?_, List.forall_mem_singleton.mpr fun _ => rfl⟩
    exact absurd hlt (by simp)
  · rintro ⟨e, he, hraised⟩
    simp only [List.mem_cons, List.not_mem_nil, or_false] at he
    rcases he with rfl | rfl
    · obtain ⟨thrown, hthrown⟩ := Option.isSome_iff_exists.mp hraised
      dsimp only at hthrown
      rw [caught, hthrown]
      exact hhandle thrown _
    · cases hraised

/-- **A chain whose last middleware catches**, and whose other middlewares call `next` at most
once.  If none of these throws, the chain returns, in a state of `I` if anything was thrown; and
if they pass on what is thrown, it returns only then. -/
theorem contained_next (hchain : chain.middlewares = outer ++ [catching handle priority])
    (honce : ∀ m ∈ outer, m.handler.Once I) (hhandle : ∀ e s, I (handle e s)) (inside : List ℕ)
    (p : Progress ε) (s : σ) (hle : p.index ≤ outer.length) :
    ∃ D, (chain.next inside p s).1.log = p.log ++ D ∧
      (Calm outer.length D → (chain.next inside p s).2.2 = none ∧
        (Raised D → I (chain.next inside p s).2.1)) ∧
      ((∀ m ∈ outer, m.handler.PassesOn) → (chain.next inside p s).2.2 = none →
        Calm outer.length D) := by
  have hlength : chain.middlewares.length = outer.length + 1 := by
    rw [hchain, List.length_append, List.length_singleton]
  induction inside, p, s using chain.next_induction with
  | final inside p s hend => omega
  | middleware inside p s hlt ih =>
      rcases hle.eq_or_lt with hlast | houter
      · obtain ⟨hreturned, D, hlog, hcalm, hstate⟩ :=
          contained_next_last hchain hhandle inside hlast s
        exact ⟨D, hlog, fun _ => ⟨hreturned, hstate⟩, fun _ _ => hcalm⟩
      · have hmem : chain.middlewares[p.index] ∈ outer := by
          have hget : chain.middlewares[p.index]? = outer[p.index]? := by
            rw [hchain, List.getElem?_append_left houter]
          rw [List.getElem?_eq_getElem hlt, List.getElem?_eq_getElem houter] at hget
          exact Option.some_inj.mp hget ▸ List.getElem_mem houter
        have hcases := runAt_cases inside s hlt (honce _ hmem)
        rw [next_of_lt hlt]
        generalize chain.runAt inside p s hlt = run at hcases ⊢
        -- the middleware ends last, and its entry says how the call of `next` ends
        have hown : ∀ D, Calm outer.length (D ++ [⟨p.index, inside, run.calls, run.outcome⟩]) ↔
            Calm outer.length D ∧ run.outcome = none := fun D => calm_concat houter
        rcases hcases with hcontrol | ⟨s', hcontrol, hreturn, hthrow⟩
        · -- it does not call `next`
          rw [hcontrol]
          refine ⟨[⟨p.index, inside, run.calls, run.outcome⟩], rfl, fun hcalm => ?_,
            fun _ hnone => ?_⟩
          · have hnone : run.outcome = none := ((hown []).mp hcalm).2
            refine ⟨hnone, fun h => ?_⟩
            obtain ⟨e, he, -⟩ := Raised.of_concat (D := []) h hnone
            cases he
          · exact (hown []).mpr ⟨nofun, hnone⟩
        · obtain ⟨D, hlog, hcontained, hcalm⟩ := ih (p.index :: inside)
            { p with index := p.index + 1 } s' (Nat.lt_succ_self _) houter
          rw [hcontrol]
          refine ⟨D ++ [⟨p.index, inside, run.calls, run.outcome⟩], ?_, fun h => ?_,
            fun hpass hnone => ?_⟩
          · dsimp only
            rw [hlog, List.append_assoc]
          · obtain ⟨hD, hnone⟩ := (hown D).mp h
            obtain ⟨hreturned, hstate⟩ := hcontained hD
            exact ⟨hnone, fun h => hreturn hreturned (hstate (h.of_concat hnone))⟩
          · refine (hown D).mpr ⟨hcalm hpass ?_, hnone⟩
            -- what the call threw would be passed on
            cases hresult :
              (chain.next (p.index :: inside) { p with index := p.index + 1 } s').2.2 with
            | none => rfl
            | some e =>
                have hthrown : run.outcome = some e := hthrow (hpass _ hmem) e hresult
                rw [show run.outcome = none from hnone] at hthrown
                cases hthrown

end MiddlewareChain

end GinCpp.Middleware
