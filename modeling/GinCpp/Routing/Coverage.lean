import GinCpp.Middleware.Starts
import GinCpp.Routing.Invocation
import GinCpp.Routing.Soundness

/-!
# Global middleware

The chain of a route contains all global middlewares, and each of them encloses what is behind it
as long as nothing in front of it calls `next` twice.  The handler of a mount has no chain:
`Built.covered_iff`.
-/

namespace GinCpp.Routing

open Http Middleware

variable {E : Type}

namespace Invocation

/-- **The global middlewares cover an invocation.**  All are among its middlewares, and whatever
starts behind one of them, the final handler included, starts inside its call of `next`. -/
def Covered (globals : List (Layer E)) (run : Invocation E) : Prop :=
  globals.Subperm run.layers ∧
    ∀ g m, run.layers[g]? = some m → m ∈ globals → Encloses run.log g

/-- What is in front of a global middleware calls `next` at most once. -/
def OnceBefore (globals : List (Layer E)) (run : Invocation E) : Prop :=
  ∀ g m, run.layers[g]? = some m → m ∈ globals →
    ∀ e ∈ run.log, e.position < g → e.calls.length ≤ 1

end Invocation

variable {placement : KeyedTree.Placement Str (Node (Handler E) (Layer E))}
  {errorHandler : Layer E} {regs : List (Registration (Handler E) (Layer E))}
  {router : Router (Handler E) (Layer E)}

/-- The handler of a route is covered. -/
theorem covered_route {files : Str → Option Str} {sorting : Sorting E} {globals : List (Layer E)}
    {node : Node (Handler E) (Layer E)} {s : Exchange E}
    (honce : (Dispatch.invoke files sorting globals s (.route node)).OnceBefore globals) :
    (Dispatch.invoke files sorting globals s (.route node)).Covered globals := by
  constructor
  · exact (List.sublist_append_left _ _).subperm.trans (sorting.perm _).symm.subperm
  · intro g m hm hglobal
    have hlt : g < (chainOf sorting globals node).middlewares.length :=
      (List.getElem?_eq_some_iff.mp hm).1
    exact MiddlewareChain.encloses_start s hlt (honce g m hm hglobal)

/-- **When the global middlewares cover a request.**  Where nothing in front of them calls `next`
twice: exactly if a route is dispatched to, not a mount. -/
theorem Built.covered_iff (hbuilt : Built placement errorHandler regs router)
    (files : Str → Option Str) (sorting : Sorting E) (lib : Library (Handler E) (Layer E))
    (request : Request) (params : Params) (s : Exchange E) :
    let dispatch := (router.matchRoute lib request params).1
    let run := dispatch.invoke files sorting router.globalMiddlewares s
    run.OnceBefore router.globalMiddlewares →
      (run.Covered router.globalMiddlewares ↔ ∃ node, dispatch = .route node) := by
  intro dispatch run honce
  obtain ⟨further, hglobals⟩ := hbuilt.exists_globalMiddlewares
  constructor
  · rintro ⟨hall, -⟩
    cases hdispatch : dispatch with
    | route node => exact ⟨node, rfl⟩
    | staticFiles | otherMethods | notFound =>
        -- there is no chain
        have hnone : run.layers = [] := by
          dsimp only [run]
          rw [hdispatch]
          rfl
        rw [hnone, List.subperm_nil, hglobals] at hall
        cases hall
  · rintro ⟨node, hnode⟩
    have hrun : run = Dispatch.invoke files sorting router.globalMiddlewares s (.route node) := by
      dsimp only [run]
      rw [hnode]
    rw [hrun] at honce ⊢
    exact covered_route honce

def testRoute : Registration (Handler Unit) (Layer Unit) :=
  .route { method := ascii "GET", path := ascii "/test", handler := some fun s => (s, none) }

def assetsMount : Registration (Handler Unit) (Layer Unit) :=
  .mount (ascii "/assets") (ascii "static")

/-- A middleware that never calls `next`. -/
def silent : Layer Unit := { handler := .ret }

/-- A route and a mount behind a middleware that never calls `next`. -/
def silenced : Router (Handler Unit) (Layer Unit) :=
  (Router.build .last createErrorHandler [testRoute, assetsMount]).use silent

theorem built_silenced : Built .last createErrorHandler [testRoute, assetsMount] silenced := by
  have hroute : Built .last createErrorHandler [testRoute]
      (.build .last createErrorHandler [testRoute]) := .add .construct rfl
  have hmount : (Router.build .last createErrorHandler [testRoute]).add .last assetsMount =
      .ok (.build .last createErrorHandler [testRoute, assetsMount]) := rfl
  exact .use silent (hroute.add hmount)

/-- The only file. -/
def appScript : Str → Option Str := fun path =>
  if path = ascii "static/assets/app.js" then some (ascii "app") else none

/-- What a `GET` request leads to. -/
def invokeGet (router : Router (Handler Unit) (Layer Unit)) (uri : String) : Invocation Unit :=
  (router.matchRoute (.stable digits) (getOf uri) fun _ => none).1.invoke appScript .stable
    router.globalMiddlewares ⟨getOf uri, .stockResponse .ok, ()⟩

/-- The route is not reached. -/
theorem covered_test : (invokeGet silenced "/test").Covered silenced.globalMiddlewares := by
  refine (Built.covered_iff built_silenced appScript .stable (.stable digits) (getOf "/test")
    (fun _ => none) ⟨getOf "/test", .stockResponse .ok, ()⟩ ?_).mpr ⟨_, rfl⟩
  have hlog : ∀ e ∈ (invokeGet silenced "/test").log, e.calls.length ≤ 1 := by decide
  exact fun _ _ _ _ e he _ => hlog e he

/-- The file is served. -/
theorem not_covered_app :
    (invokeGet silenced "/assets/app.js").state.response.content = ascii "app" ∧
      ¬ (invokeGet silenced "/assets/app.js").Covered silenced.globalMiddlewares := by
  refine ⟨by decide +kernel, fun hcovered => ?_⟩
  have hnone : (invokeGet silenced "/assets/app.js").layers.length = 0 := by decide +kernel
  have hboth : silenced.globalMiddlewares.length = 2 := by decide +kernel
  have hle := hcovered.1.length_le
  omega

end GinCpp.Routing
