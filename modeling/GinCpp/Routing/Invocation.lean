import GinCpp.Middleware.ErrorHandler
import GinCpp.Routing.Router

/-!
# Invoking a match

The handlers that `Router::match_route` puts into its result, and `utils/file_server.cpp`.  The
handler of a route sorts the global middlewares and those of the node by priority and runs them as
a chain; the handler of a mount is the file server alone.
-/

namespace GinCpp.Routing

open Http Middleware

variable {E : Type}

/-- The handlers and the middlewares of a router at work. -/
abbrev Handler (E : Type) := HttpHandler (Exchange E) Exception

abbrev Layer (E : Type) := Middleware (Exchange E) Exception

/-! ## The file server -/

namespace FileServer

/-- The path of the file that is asked for. -/
def filePath (baseDir path : Str) : Str :=
  let pathPrefix := SLASH :: baseDir
  baseDir ++ if pathPrefix <+: path then path.drop pathPrefix.length else path

/-- `FileServer::handle_request`, `files` being what the file system has. -/
def handleRequest (files : Str → Option Str) (baseDir : Str) : Handler E := fun s =>
  let path := filePath baseDir s.request.getPath
  let respond (status : StatusCode) (content : Str) : Exchange E × Option Exception :=
    ({ s with response := { s.response with status, content } }, none)
  if ascii ".." <:+: path then respond .badRequest (ascii "Bad Request")
  else
    match files path with
    | none => respond .notFound (ascii "Not Found")
    | some content => respond .ok content

end FileServer

/-! ## The handler of a match -/

/-- `std::sort` on middlewares, whose `operator<` compares the priorities. -/
structure Sorting (E : Type) where
  sort : List (Layer E) → List (Layer E)
  perm : ∀ layers, (sort layers).Perm layers
  sorted : ∀ layers, (sort layers).Pairwise fun a b => a.priority ≤ b.priority

/-- A sort that is stable. -/
def Sorting.stable : Sorting E where
  sort := List.insertionSort fun a b => a.priority ≤ b.priority
  perm := List.perm_insertionSort _
  sorted layers := by
    have : Std.Total fun a b : Layer E => a.priority ≤ b.priority :=
      ⟨fun a b => Int.le_total a.priority b.priority⟩
    have : IsTrans (Layer E) fun a b => a.priority ≤ b.priority := ⟨fun _ _ _ => Int.le_trans⟩
    exact List.pairwise_insertionSort _ layers

/-- What a call of the handler of a match does: the middlewares of its chain, in order, what they
log, and how it ends. -/
structure Invocation (E : Type) where
  layers : List (Layer E) := []
  log : List (Entry Exception) := []
  state : Exchange E
  outcome : Option Exception

/-- The call of a `std::function` without a target. -/
def badFunctionCall : Exception := .std (ascii "bad_function_call")

/-- The chain of a route, its middlewares sorted with the global ones. -/
def chainOf (sorting : Sorting E) (globals : List (Layer E)) (node : Node (Handler E) (Layer E)) :
    MiddlewareChain (Exchange E) Exception where
  middlewares := sorting.sort (globals ++ node.middlewares)
  finalHandler := node.handler.getD fun s => (s, some badFunctionCall)

/-- `MatchResult::handler`. -/
def Dispatch.invoke (files : Str → Option Str) (sorting : Sorting E) (globals : List (Layer E))
    (s : Exchange E) : Dispatch (Handler E) (Layer E) → Invocation E
  | .staticFiles baseDir =>
      let (s', outcome) := FileServer.handleRequest files baseDir s
      { log := [⟨0, [], [], outcome⟩], state := s', outcome }
  | .route node =>
      let chain := chainOf sorting globals node
      let (progress, s', outcome) := chain.start s
      { layers := chain.middlewares, log := progress.log, state := s', outcome }
  | .otherMethods _ =>
      { state := { s with response := { s.response with status := .badRequest } }
        outcome := none }
  | .notFound => { state := s, outcome := some badFunctionCall }

/-! ## The global middlewares -/

namespace Router

variable {H M : Type}

theorem globalMiddlewares_setTree (router : Router H M) (method : Str) (tree : TrieNode H M) :
    (router.setTree method tree).globalMiddlewares = router.globalMiddlewares := rfl

theorem globalMiddlewares_nameRoute (router : Router H M) (r : Route H M) :
    (router.nameRoute r).globalMiddlewares = router.globalMiddlewares := by
  unfold nameRoute
  split <;> rfl

/-- Registrations leave the global middlewares alone. -/
theorem globalMiddlewares_add {placement : KeyedTree.Placement Str (Node H M)}
    {router router' : Router H M} {reg : Registration H M}
    (h : router.add placement reg = .ok router') :
    router'.globalMiddlewares = router.globalMiddlewares := by
  cases reg with
  | mount path baseDir =>
      obtain rfl := Except.ok.inj h
      rfl
  | route r =>
      simp only [add, addRoute] at h
      split_ifs at h with htaken hroot
      · obtain rfl := Except.ok.inj h
        rw [globalMiddlewares_setTree, globalMiddlewares_nameRoute]
      · split at h
        · cases h
        · obtain rfl := Except.ok.inj h
          rw [globalMiddlewares_setTree, globalMiddlewares_nameRoute]

end Router

/-- The error handler of the constructor stays the first global middleware. -/
theorem Built.exists_globalMiddlewares {H M : Type} {placement : KeyedTree.Placement Str (Node H M)}
    {errorHandler : M} {regs : List (Registration H M)} {router : Router H M}
    (h : Built placement errorHandler regs router) :
    ∃ further, router.globalMiddlewares = errorHandler :: further := by
  induction h with
  | construct => exact ⟨[], rfl⟩
  | add _ hadd ih => exact Router.globalMiddlewares_add hadd ▸ ih
  | use middleware _ ih =>
      obtain ⟨further, hfurther⟩ := ih
      exact ⟨further ++ [middleware], by rw [Router.use, hfurther, List.cons_append]⟩

end GinCpp.Routing
