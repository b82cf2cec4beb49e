import GinCpp.Middleware.Auth
import GinCpp.Routing.Coverage

/-!
# Authenticated routes

A route is authenticated if the authentication is among the global middlewares, those of its
groups or its own.  Wherever `std::sort` puts it, the handler of the route runs for an accepted
credential only: `Router.authorized_invoke`.
-/

namespace GinCpp.Routing

open Http Middleware

variable {E : Type}

/-- The handler of the route is called. -/
def Invocation.RunsHandler (run : Invocation E) : Prop :=
  ∃ e ∈ run.log, e.position = run.layers.length

/-- **Authentication gates the handler.**  Where all other middlewares call `next` at most once
and leave the credential as it is: the handler runs for an accepted credential only; for any other
the authentication, if it is reached, refuses. -/
theorem Router.authorized_invoke (router : Router (Handler E) (Layer E))
    (files : Str → Option Str) (sorting : Sorting E) (lib : Library (Handler E) (Layer E))
    {request : Request} {params : Params} {node : Node (Handler E) (Layer E)} (s : Exchange E)
    (hmatch : (router.matchRoute lib request params).1 = .route node)
    {registry : ApiKeyRegistry} {jwtParser : JwtParser}
    (hauth : createAuthMiddleware registry jwtParser ∈
      router.globalMiddlewares ++ node.middlewares)
    (hothers : ∀ m ∈ router.globalMiddlewares ++ node.middlewares,
      m ≠ createAuthMiddleware registry jwtParser → Orderly authorization m) :
    let run := (router.matchRoute lib request params).1.invoke files sorting
      router.globalMiddlewares s
    let chain := chainOf sorting router.globalMiddlewares node
    createAuthMiddleware registry jwtParser ∈ run.layers ∧
    (run.RunsHandler → Accepted registry jwtParser (authorization s)) ∧
    (¬ Accepted registry jwtParser (authorization s) → ¬ run.RunsHandler ∧
      ∀ call, chain.Reaches ⟨[], {}, s⟩ call →
        run.layers[call.progress.index]? = some (createAuthMiddleware registry jwtParser) →
        (chain.next call.inside call.progress call.state).2.1.response.status =
          .unauthorized) := by
  intro run chain
  have hrun : run = Dispatch.invoke files sorting router.globalMiddlewares s (.route node) := by
    dsimp only [run]
    rw [hmatch]
  have hlayers : run.layers = chain.middlewares := by
    rw [hrun]
    rfl
  have hlog : run.log = (chain.start s).1.log := by
    rw [hrun]
    rfl
  have hperm : chain.middlewares.Perm (router.globalMiddlewares ++ node.middlewares) :=
    sorting.perm _
  have horderly : ∀ m ∈ chain.middlewares, Orderly authorization m := by
    intro m hm
    by_cases hsame : m = createAuthMiddleware registry jwtParser
    · exact hsame ▸ orderly_auth
    · exact hothers m (hperm.mem_iff.mp hm) hsame
  have hmem : createAuthMiddleware registry jwtParser ∈ chain.middlewares :=
    hperm.mem_iff.mpr hauth
  -- the handler is behind all middlewares, and is reached through the authentication alone
  have haccepted : run.RunsHandler → Accepted registry jwtParser (authorization s) := by
    rintro ⟨e, he, hposition⟩
    obtain ⟨i, hi, hget⟩ := List.getElem_of_mem hmem
    obtain ⟨D, hD, hreached⟩ := chain.exists_reaches_of_mem_log ⟨[], {}, s⟩
    have hall : run.log = D := hlog.trans hD
    obtain ⟨call, hreach, hmin⟩ := hreached e (hall ▸ he)
    have hbehind : i < call.progress.index := by
      rw [hlayers] at hposition
      omega
    exact MiddlewareChain.accepted_of_behind_auth horderly
      (List.getElem?_eq_some_iff.mpr ⟨hi, hget⟩) hreach hbehind
  refine ⟨hlayers ▸ hmem, haccepted, fun hnot => ⟨fun hruns => hnot (haccepted hruns), ?_⟩⟩
  intro call hreach hat
  rw [hlayers] at hat
  rw [MiddlewareChain.refused_of_at_auth horderly hat hreach hnot]
  rfl

/-- A route that no key opens. -/
def lockedRoute : Registration (Handler Unit) (Layer Unit) :=
  .route {
    method := ascii "GET", path := ascii "/test", middlewares := [createAuthMiddleware {} ⟨[]⟩],
    handler := some fun s => (s, none) }

/-- The request carries no credential. -/
theorem not_runsHandler_locked :
    ¬ (invokeGet (.build .last createErrorHandler [lockedRoute]) "/test").RunsHandler := by
  refine ((Router.authorized_invoke (.build .last createErrorHandler [lockedRoute]) appScript
    .stable (.stable digits) ⟨getOf "/test", .stockResponse .ok, ()⟩ rfl
    (List.mem_cons_of_mem _ List.mem_cons_self) ?_).2.2 not_accepted_nil).1
  intro m hm hother
  rcases List.mem_cons.mp hm with rfl | hm
  · exact orderly_catching _ _ _
  · exact absurd (List.mem_singleton.mp hm) hother

end GinCpp.Routing
