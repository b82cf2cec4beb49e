import GinCpp.Http.Message
import GinCpp.Routing.Matcher

/-!
# The router

`routing/router.cpp`, up to what the chosen handler does.  The runs that lead to a router are
`Built`: any sequence of `add_route` and `add_static_route` calls that do not throw, and of `use`.
A call that throws changes nothing and need not be recorded.
-/

namespace GinCpp.Routing

open Http

variable {H M : Type}

/-- The arguments of an `add_route` call. -/
structure Route (H M : Type) where
  method : Str
  path : Str
  handler : Option H
  middlewares : List M := []
  name : Str := []
  priority : Int := 0

/-- A call of `add_route` or `add_static_route`. -/
inductive Registration (H M : Type)
  | route (r : Route H M)
  | mount (path baseDir : Str)

/-- Why `add_route` does not complete: it throws, or it calls `back()` on an empty string. -/
inductive AddError
  | nameTaken | emptyPart
  deriving DecidableEq, Repr

/-- `Router`.  The trees stand in the order in which their methods were first registered.  The map
of methods is iterated in an order of its own; only `allowed_methods` and the listing of the routes
have this order. -/
structure Router (H M : Type) where
  trees : List (Str × TrieNode H M) := []
  namedRoutes : List (Str × Str) := []
  globalMiddlewares : List M := []

namespace Router

/-- `trees.find(method)`. -/
def tree? (router : Router H M) (method : Str) : Option (TrieNode H M) :=
  (router.trees.find? (·.1 = method)).map Prod.snd

/-- `trees[method] = tree`. -/
def setTree (router : Router H M) (method : Str) (tree : TrieNode H M) : Router H M :=
  { router with
    trees :=
      if (router.tree? method).isSome then
        router.trees.map fun kv => if kv.1 = method then (method, tree) else kv
      else router.trees ++ [(method, tree)] }

/-- The tree of a method, a new one if there is none. -/
def treeFor (router : Router H M) (method : Str) : TrieNode H M :=
  (router.tree? method).getD .root

/-- `Router::use`. -/
def use (router : Router H M) (middleware : M) : Router H M :=
  { router with globalMiddlewares := router.globalMiddlewares ++ [middleware] }

/-- The constructor: `use(create_error_handler())`. -/
def construct (errorHandler : M) : Router H M := use {} errorHandler

variable (placement : KeyedTree.Placement Str (Node H M))

/-- `Router::add_static_route`. -/
def addStaticRoute (router : Router H M) (path baseDir : Str) : Router H M :=
  let tree := router.treeFor (ascii "GET")
  router.setTree (ascii "GET") (tree.addStaticRoute placement (splitPath path) baseDir)

/-- `named_routes[name] = path`, if there is a name. -/
def nameRoute (router : Router H M) (r : Route H M) : Router H M :=
  if r.name ≠ [] then { router with namedRoutes := router.namedRoutes ++ [(r.name, r.path)] }
  else router

/-- `Router::add_route`. -/
def addRoute (router : Router H M) (r : Route H M) : Except AddError (Router H M) :=
  if r.name ≠ [] ∧ (router.namedRoutes.find? (·.1 = r.name)).isSome then .error .nameTaken
  else
    let router := router.nameRoute r
    let tree := router.treeFor r.method
    if r.path = ascii "/" then
      .ok (router.setTree r.method
        { tree with value := tree.value.catchAll r.handler r.middlewares })
    else
      match readPath r.path with
      | none => .error .emptyPart
      | some segments =>
          .ok (router.setTree r.method
            (tree.addRoute placement segments r.handler r.middlewares r.priority))

/-- One registration. -/
def add (router : Router H M) : Registration H M → Except AddError (Router H M)
  | .route r => router.addRoute placement r
  | .mount path baseDir => .ok (router.addStaticRoute placement path baseDir)

/-- `trees.find` and `RouteMatcher::match`. -/
def lookup (lib : Library H M) (router : Router H M) (method path : Str) (params : Params) :
    Option (Match H M) × Params :=
  match router.tree? method with
  | some tree => RouteMatcher.matchRoute lib tree path params
  | none => (none, params)

end Router

/-- The method after the two ways of overriding it. -/
def effectiveMethod (request : Request) : Str :=
  let override := request.getHeader (ascii "X-HTTP-Method-Override")
  if override ≠ [] then override
  else (request.getQueryParams (ascii "_method")).getD request.getMethod

/-- The handler of a `MatchResult`, by the exit that made it. -/
inductive Dispatch (H M : Type)
  | staticFiles (baseDir : Str)
  | route (node : Node H M)
  | otherMethods (allowedMethods : List Str)
  | notFound

/-- `Router::match_route`: what it dispatches to and the parameters afterwards. -/
def Router.matchRoute (lib : Library H M) (router : Router H M) (request : Request)
    (params : Params) : Dispatch H M × Params :=
  let method := effectiveMethod request
  match router.lookup lib method request.getPath params with
  | (some found, params) =>
      if found.node.isStaticFiles then (.staticFiles found.node.staticFilesBaseDir, params)
      else (.route found.node, params)
  | (none, params) =>
      let others := router.trees.filter fun (treeMethod, tree) =>
        treeMethod ≠ method ∧
          (RouteMatcher.matchRoute lib tree request.getPath fun _ => none).1.isSome
      if others.isEmpty then (.notFound, params)
      else (.otherMethods (others.map Prod.fst), params)

/-! ## Route groups -/

/-- `RouteGroup`, less its pointer to the router. -/
structure RouteGroup (M : Type) where
  pathPrefix : Str
  middlewares : List M := []

namespace RouteGroup

/-- `RouteGroup::group` and `Router::group`: the group that is passed on. -/
def group (g : RouteGroup M) (newPrefix : Str) (groupMiddlewares : List M) : RouteGroup M :=
  { pathPrefix := g.pathPrefix ++ newPrefix,
    middlewares := g.middlewares ++ groupMiddlewares }

/-- `RouteGroup::add_route`: the call it makes of the router. -/
def route (g : RouteGroup M) (r : Route H M) : Route H M :=
  { r with path := g.pathPrefix ++ r.path, middlewares := g.middlewares ++ r.middlewares }

end RouteGroup

/-! ## Runs -/

/-- A router reached by the registrations `regs`, in order. -/
inductive Built (placement : KeyedTree.Placement Str (Node H M)) (errorHandler : M) :
    List (Registration H M) → Router H M → Prop
  | construct : Built placement errorHandler [] (Router.construct errorHandler)
  | add {regs router reg router'} : Built placement errorHandler regs router →
      router.add placement reg = .ok router' → Built placement errorHandler (regs ++ [reg]) router'
  | use {regs router} (middleware : M) : Built placement errorHandler regs router →
      Built placement errorHandler regs (router.use middleware)

/-- The router after a list of calls, of which those that throw change nothing. -/
def Router.build (placement : KeyedTree.Placement Str (Node H M)) (errorHandler : M)
    (regs : List (Registration H M)) : Router H M :=
  regs.foldl (fun router reg => (router.add placement reg).toOption.getD router)
    (.construct errorHandler)

end GinCpp.Routing
