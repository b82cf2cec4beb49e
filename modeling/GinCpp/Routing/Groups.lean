import GinCpp.Routing.RegistrationOrder

/-!
# Route groups

The callback of `Router::group` and `RouteGroup::group` makes calls of the group that it is given,
and opens further groups in it.  All of it is a manner of writing: with any nesting of groups a
router comes to the same as by one call after another (`flatten`), in which every route has the
prefixes and the middlewares of the groups around it, and an exception ends all of them at once
(`Built.run_groupRoutes`).  So what holds of the routers that are `Built` holds of those with
groups.
-/

namespace GinCpp.Routing

open Http Middleware

variable {H M : Type}

/-- What a callback does: calls of its group, and of the router itself. -/
inductive GroupRoutes (H M : Type)
  | done
  | route (r : Route H M) (rest : GroupRoutes H M)
  | group (newPrefix : Str) (groupMiddlewares : List M) (groupRoutes rest : GroupRoutes H M)
  | mount (path baseDir : Str) (rest : GroupRoutes H M)
  | use (middleware : M) (rest : GroupRoutes H M)

/-- A call of a router. -/
inductive RouterCall (H M : Type)
  | register (reg : Registration H M)
  | use (middleware : M)

/-- What such calls register. -/
def registrations (calls : List (RouterCall H M)) : List (Registration H M) :=
  calls.filterMap fun
    | .register reg => some reg
    | .use _ => none

namespace Router

variable (placement : KeyedTree.Placement Str (Node H M))

def perform (router : Router H M) : RouterCall H M → Except AddError (Router H M)
  | .register reg => router.add placement reg
  | .use middleware => .ok (router.use middleware)

/-- One call after another, up to the first that does not complete. -/
def performAll (router : Router H M) :
    List (RouterCall H M) → Router H M × Option AddError
  | [] => (router, none)
  | call :: calls =>
      match router.perform placement call with
      | .ok router => performAll router calls
      | .error e => (router, some e)

end Router

namespace RouteGroup

/-- A callback at work: `run` of the group that it opens is a call of `RouteGroup::group`. -/
def run (placement : KeyedTree.Placement Str (Node H M)) (g : RouteGroup M) :
    GroupRoutes H M → Router H M → Router H M × Option AddError
  | .done, router => (router, none)
  | .route r rest, router =>
      match router.addRoute placement (g.route r) with
      | .ok router => g.run placement rest router
      | .error e => (router, some e)
  | .group newPrefix groupMiddlewares groupRoutes rest, router =>
      match (g.group newPrefix groupMiddlewares).run placement groupRoutes router with
      | (router, none) => g.run placement rest router
      | (router, some e) => (router, some e)
  | .mount path baseDir rest, router =>
      g.run placement rest (router.addStaticRoute placement path baseDir)
  | .use middleware rest, router => g.run placement rest (router.use middleware)

/-- The same without groups. -/
def flatten (g : RouteGroup M) : GroupRoutes H M → List (RouterCall H M)
  | .done => []
  | .route r rest => .register (.route (g.route r)) :: g.flatten rest
  | .group newPrefix groupMiddlewares groupRoutes rest =>
      (g.group newPrefix groupMiddlewares).flatten groupRoutes ++ g.flatten rest
  | .mount path baseDir rest => .register (.mount path baseDir) :: g.flatten rest
  | .use middleware rest => .use middleware :: g.flatten rest

end RouteGroup

/-- A route stands in these groups, the outermost first. -/
def GroupRoutes.Within (r : Route H M) : List (Str × List M) → GroupRoutes H M → Prop
  | _, .done => False
  | groups, .route r' rest => (groups = [] ∧ r' = r) ∨ rest.Within r groups
  | groups, .group newPrefix groupMiddlewares groupRoutes rest =>
      (∃ inner, groups = (newPrefix, groupMiddlewares) :: inner ∧ groupRoutes.Within r inner) ∨
        rest.Within r groups
  | groups, .mount _ _ rest => rest.Within r groups
  | groups, .use _ rest => rest.Within r groups

section

variable {placement : KeyedTree.Placement Str (Node H M)} {g : RouteGroup M}
  {router : Router H M}

theorem Router.performAll_append (calls calls' : List (RouterCall H M)) :
    router.performAll placement (calls ++ calls') =
      match router.performAll placement calls with
      | (router, none) => router.performAll placement calls'
      | (router, some e) => (router, some e) := by
  induction calls generalizing router with
  | nil => rfl
  | cons call calls ih =>
      rw [List.cons_append, performAll, performAll]
      cases router.perform placement call with
      | ok router => exact ih
      | error e => rfl

/-- **Groups are a manner of writing.** -/
theorem RouteGroup.run_eq_performAll (g : RouteGroup M) (groupRoutes : GroupRoutes H M)
    (router : Router H M) :
    g.run placement groupRoutes router =
      router.performAll placement (g.flatten groupRoutes) := by
  induction groupRoutes generalizing g router with
  | done => rfl
  | route r rest ih =>
      rw [run, flatten, Router.performAll]
      show _ = match router.addRoute placement (g.route r) with
        | .ok router => router.performAll placement (g.flatten rest)
        | .error e => (router, some e)
      cases router.addRoute placement (g.route r) with
      | ok router => exact ih g router
      | error e => rfl
  | group newPrefix groupMiddlewares groupRoutes rest ihInner ih =>
      rw [run, flatten, Router.performAll_append, ihInner]
      split
      · exact ih g _
      · rfl
  | mount path baseDir rest ih => exact ih g _
  | use middleware rest ih => exact ih g _

/-- What is registered is a route with the groups around it. -/
theorem RouteGroup.mem_flatten_iff (g : RouteGroup M) (groupRoutes : GroupRoutes H M)
    (r' : Route H M) :
    .register (.route r') ∈ g.flatten groupRoutes ↔
      ∃ groups r, groupRoutes.Within r groups ∧
        r' = (nest ((g.pathPrefix, g.middlewares) :: groups)).route r := by
  induction groupRoutes generalizing g with
  | done => simp [flatten, GroupRoutes.Within]
  | route r rest ih =>
      rw [flatten, List.mem_cons, RouterCall.register.injEq, Registration.route.injEq, ih]
      constructor
      · rintro (rfl | ⟨groups, r'', hwithin, rfl⟩)
        · exact ⟨[], r, .inl ⟨rfl, rfl⟩, rfl⟩
        · exact ⟨groups, r'', .inr hwithin, rfl⟩
      · rintro ⟨groups, r'', ⟨rfl, rfl⟩ | hwithin, rfl⟩
        · exact .inl rfl
        · exact .inr ⟨groups, r'', hwithin, rfl⟩
  | group newPrefix groupMiddlewares groupRoutes rest ihInner ih =>
      rw [flatten, List.mem_append, ihInner, ih]
      constructor
      · rintro (⟨groups, r, hwithin, rfl⟩ | ⟨groups, r, hwithin, rfl⟩)
        · exact ⟨_, r, .inl ⟨groups, rfl, hwithin⟩, rfl⟩
        · exact ⟨groups, r, .inr hwithin, rfl⟩
      · rintro ⟨groups, r, ⟨inner, rfl, hwithin⟩ | hwithin, rfl⟩
        · exact .inl ⟨inner, r, hwithin, rfl⟩
        · exact .inr ⟨groups, r, hwithin, rfl⟩
  | mount path baseDir rest ih =>
      rw [flatten, List.mem_cons, or_iff_right (by simp)]
      exact ih g
  | use middleware rest ih =>
      rw [flatten, List.mem_cons, or_iff_right (by simp)]
      exact ih g

end

/-- The middlewares that such calls make global. -/
def globals (calls : List (RouterCall H M)) : List M :=
  calls.filterMap fun
    | .register _ => none
    | .use middleware => some middleware

/-- Where some calls lead: to what those lead to that have been performed, all of them or those
before the one that does not complete. -/
structure Leads (placement : KeyedTree.Placement Str (Node H M)) (errorHandler : M)
    (regs : List (Registration H M)) (router : Router H M) (calls performed : List (RouterCall H M))
    (after : Router H M × Option AddError) : Prop where
  built : Built placement errorHandler (regs ++ registrations performed) after.1
  globals : after.1.globalMiddlewares = router.globalMiddlewares ++ globals performed
  returned : after.2 = none → performed = calls
  threw : ∀ e, after.2 = some e → ∃ call rest, calls = performed ++ call :: rest ∧
    after.1.perform placement call = .error e

section

variable {placement : KeyedTree.Placement Str (Node H M)} {errorHandler : M}
  {regs : List (Registration H M)} {router router' : Router H M} {call : RouterCall H M}

theorem registrations_cons (call : RouterCall H M) (calls : List (RouterCall H M)) :
    registrations (call :: calls) = registrations [call] ++ registrations calls :=
  List.filterMap_append (l := [call])

theorem globals_cons (call : RouterCall H M) (calls : List (RouterCall H M)) :
    globals (call :: calls) = globals [call] ++ globals calls :=
  List.filterMap_append (l := [call])

theorem Built.perform (hbuilt : Built placement errorHandler regs router)
    (h : router.perform placement call = .ok router') :
    Built placement errorHandler (regs ++ registrations [call]) router' ∧
      router'.globalMiddlewares = router.globalMiddlewares ++ globals [call] := by
  cases call with
  | register reg =>
      exact ⟨hbuilt.add h, (Router.globalMiddlewares_add h).trans (List.append_nil _).symm⟩
  | use middleware =>
      obtain rfl := Except.ok.inj h
      refine ⟨?_, rfl⟩
      show Built placement errorHandler (regs ++ []) _
      rw [List.append_nil]
      exact hbuilt.use middleware

theorem Built.leads (hbuilt : Built placement errorHandler regs router)
    (calls : List (RouterCall H M)) :
    ∃ performed, Leads placement errorHandler regs router calls performed
      (router.performAll placement calls) := by
  induction calls generalizing regs router with
  | nil =>
      refine ⟨[], ⟨?_, (List.append_nil _).symm, fun _ => rfl, nofun⟩⟩
      show Built placement errorHandler (regs ++ []) router
      rw [List.append_nil]
      exact hbuilt
  | cons call calls ih =>
      rw [Router.performAll]
      cases hcall : router.perform placement call with
      | error e =>
          refine ⟨[], ⟨?_, (List.append_nil _).symm, nofun, fun e' he => ?_⟩⟩
          · show Built placement errorHandler (regs ++ []) router
            rw [List.append_nil]
            exact hbuilt
          · obtain rfl := Option.some_inj.mp he
            exact ⟨call, calls, rfl, hcall⟩
      | ok router' =>
          obtain ⟨hfirst, hglobals⟩ := hbuilt.perform hcall
          obtain ⟨performed, hleads⟩ := ih hfirst
          refine ⟨call :: performed, ⟨?_, ?_, fun hnone => ?_, fun e he => ?_⟩⟩
          · rw [registrations_cons, ← List.append_assoc]
            exact hleads.built
          · rw [globals_cons, ← List.append_assoc, ← hglobals]
            exact hleads.globals
          · rw [hleads.returned hnone]
          · obtain ⟨call', rest, rfl, hthrew⟩ := hleads.threw e he
            exact ⟨call', rest, rfl, hthrew⟩

/-- **Routers with groups are built** by the calls that the groups stand for: the callback makes
these, in this order, up to the first that does not complete, and the routes among them are those of
the callback with the groups around them. -/
theorem Built.run_groupRoutes (hbuilt : Built placement errorHandler regs router)
    (g : RouteGroup M) (groupRoutes : GroupRoutes H M) :
    g.run placement groupRoutes router = router.performAll placement (g.flatten groupRoutes) ∧
      (∃ performed, Leads placement errorHandler regs router (g.flatten groupRoutes) performed
        (g.run placement groupRoutes router)) ∧
      ∀ r', .register (.route r') ∈ g.flatten groupRoutes ↔
        ∃ groups r, groupRoutes.Within r groups ∧
          r' = (nest ((g.pathPrefix, g.middlewares) :: groups)).route r := by
  have hrun : g.run placement groupRoutes router =
      router.performAll placement (g.flatten groupRoutes) := g.run_eq_performAll groupRoutes router
  refine ⟨hrun, ?_, g.mem_flatten_iff groupRoutes⟩
  rw [hrun]
  exact hbuilt.leads (g.flatten groupRoutes)

end

/-- The callback of a group, with a group and a middleware for all in it. -/
def usersCallback : GroupRoutes (Handler (List String)) (Layer (List String)) :=
  .group (ascii "/v1") [noting "version_middleware"] (.route usersRoute .done)
    (.use (noting "global_middleware") .done)

/-- The group that `Router::group` opens for it. -/
def apiGroup : RouteGroup (Layer (List String)) where
  pathPrefix := ascii "/api"
  middlewares := [noting "group_middleware"]

theorem run_groupRoutes_users :
    let router : Router (Handler (List String)) (Layer (List String)) :=
      .construct createErrorHandler
    let after := apiGroup.run .last usersCallback router
    after.2 = none ∧ after = router.performAll .last (apiGroup.flatten usersCallback) ∧
      (∃ performed, Leads .last createErrorHandler [] router (apiGroup.flatten usersCallback)
        performed after) ∧
      ∀ r', .register (.route r') ∈ apiGroup.flatten usersCallback ↔
        ∃ groups r, usersCallback.Within r groups ∧
          r' = (nest ((apiGroup.pathPrefix, apiGroup.middlewares) :: groups)).route r :=
  ⟨rfl, Built.run_groupRoutes .construct apiGroup usersCallback⟩

end GinCpp.Routing
