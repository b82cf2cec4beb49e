import GinCpp.Routing.Authorization
import GinCpp.Routing.Conflicts
import GinCpp.Routing.Groups
import GinCpp.Routing.MountedFiles
import GinCpp.Routing.Predictability

/-!
# Protected routes

A handler is run with the middlewares that it was registered with and no others, and never for a
path below a mount: what a request is dispatched to is a registration as a whole
(`Built.dispatched_whole`).  So what is registered in a group is behind the middlewares of the
group, whatever is registered before it and after it (`Built.authorized_of_group`).
-/

namespace GinCpp.Routing

open Http KeyedTree Middleware RouteMatcher

variable {H M : Type} {placement : Placement Str (Node H M)} {errorHandler : M}
  {regs : List (Registration H M)} {router : Router H M}

/-! ## Mounts stay -/

theorem Registration.isStaticFiles_atEnd_mono (reg : Registration H M) {node : Node H M}
    (h : node.isStaticFiles = true) : (reg.atEnd node).isStaticFiles = true := by
  cases reg with
  | route r => exact (r.leaf_atEnd.isStaticFiles node).trans h
  | mount path baseDir => rfl

/-- A mount is at an address. -/
def TrieNode.MountAt (tree : TrieNode H M) (address : List Str) : Prop :=
  ∃ node, tree.valueAt? address = some node ∧ node.isStaticFiles = true

/-- A registration leaves the mounts where they are. -/
theorem TrieNode.MountAt.walk {tree : TrieNode H M} {address : List Str} (h : tree.MountAt address)
    (hdistinct : tree.Distinct) (reg : Registration H M) :
    TrieNode.MountAt (Routing.walk placement reg.atEnd reg.pattern tree) address := by
  obtain ⟨old, hold, hmount⟩ := h
  obtain ⟨node, hnode⟩ := Option.isSome_iff_exists.mp
    (isSome_valueAt?_walk hdistinct (.inl (by rw [hold]; rfl)) :
      ((Routing.walk placement reg.atEnd reg.pattern tree).valueAt? address).isSome)
  refine ⟨node, hnode, ?_⟩
  rcases valueAt?_walk hdistinct hnode with ⟨hsame, -⟩ | ⟨rfl, rfl⟩ |
    ⟨before, seg, after, -, -, rfl⟩
  · rwa [Option.some_inj.mp (hsame.symm.trans hold)]
  · obtain rfl := Option.some_inj.mp hold
    split_ifs
    · exact reg.isStaticFiles_atEnd_mono hmount
    · exact hmount
  · have hmarked : (old.mark seg).isStaticFiles = true := (mark_isStaticFiles old seg).trans hmount
    rw [hold, Option.getD_some]
    split_ifs
    · exact reg.isStaticFiles_atEnd_mono hmarked
    · exact hmarked

/-- **Every mount is where it was registered**, whatever is registered later. -/
theorem Built.mountAt (hbuilt : Built placement errorHandler regs router) :
    ∀ path baseDir, .mount path baseDir ∈ regs →
      (router.treeFor (ascii "GET")).MountAt (splitPath path) := by
  refine hbuilt.treeFor_induction (P := fun regs tree => ∀ path baseDir,
    .mount path baseDir ∈ regs → tree.MountAt (splitPath path)) nofun ?_ ?_
  · intro regs reg tree _ hdistinct ih path baseDir hmem
    rcases List.mem_append.mp hmem with hmem | hmem
    · exact (ih path baseDir hmem).walk hdistinct reg
    · obtain rfl := List.mem_singleton.mp hmem
      obtain ⟨node, hnode⟩ := exists_valueAt?_walk_end placement (Node.mount baseDir)
        ((splitPath path).map fun seg => ⟨seg, .static⟩) hdistinct
      rw [List.map_map, show (splitPath path).map (Segment.part ∘ fun seg => ⟨seg, .static⟩) =
        splitPath path from List.map_id _] at hnode
      exact ⟨_, hnode, rfl⟩
  · intro regs reg tree hother ih path baseDir hmem
    rcases List.mem_append.mp hmem with hmem | hmem
    · exact ih path baseDir hmem
    · obtain rfl := List.mem_singleton.mp hmem
      exact absurd rfl hother

/-! ## No way through a mount -/

theorem not_mountAt_nil {t : TrieNode H M} (hmount : t.value.isStaticFiles = false) :
    ¬ t.MountAt [] := by
  rintro ⟨node, hnode, hstatic⟩
  obtain rfl := Option.some_inj.mp hnode
  rw [hmount] at hstatic
  cases hstatic

theorem mountAt_cons {t c : TrieNode H M} {key : Str} {above : List Str}
    (hchild : t.child? key = some c) : t.MountAt (key :: above) ↔ c.MountAt above := by
  rw [TrieNode.MountAt, valueAt?_cons, hchild]
  rfl

/-- The search does not look below a mount. -/
theorem exists_unmounted_of_mem_findMatches {regex : Regex} {segments address : List Str}
    {t : TrieNode H M} {m : Match H M} (hdistinct : t.Distinct)
    (hm : m ∈ findMatches regex segments address t) :
    ∃ below, m.address = address ++ below ∧ t.valueAt? below = some m.node ∧
      ∀ above, above <+: below → above ≠ below → ¬ t.MountAt above := by
  refine findMatches_induction (P := fun _ address t => ∃ below, m.address = address ++ below ∧
    t.valueAt? below = some m.node ∧ ∀ above, above <+: below → above ≠ below → ¬ t.MountAt above)
    ?_ ?_ ?_ ?_ hdistinct hm
  · rintro segments address t - rfl
    exact ⟨[], (List.append_nil _).symm, rfl, fun above h hne =>
      absurd (List.prefix_nil.mp h) hne⟩
  · rintro address t - rfl -
    exact ⟨[], (List.append_nil _).symm, rfl, fun above h hne =>
      absurd (List.prefix_nil.mp h) hne⟩
  · rintro address t key c hmount hchild rfl - -
    refine ⟨[key], rfl, by rw [valueAt?_cons, hchild]; rfl, fun above h hne => ?_⟩
    cases above with
    | nil => exact not_mountAt_nil hmount
    | cons k above =>
        obtain ⟨rfl, habove⟩ := List.cons_prefix_cons.mp h
        rw [List.prefix_nil.mp habove] at hne
        exact absurd rfl hne
  · rintro seg segments address t key c rest hmount hchild - ⟨below, haddress, hvalue, habove⟩
    refine ⟨key :: below, by rw [haddress]; simp, by rw [valueAt?_cons, hchild]; exact hvalue, ?_⟩
    intro above h hne
    cases above with
    | nil => exact not_mountAt_nil hmount
    | cons k above =>
        obtain ⟨rfl, hshorter⟩ := List.cons_prefix_cons.mp h
        rw [mountAt_cons hchild]
        exact habove above hshorter fun heq => hne (congrArg _ heq)

/-! ## Registered together, run together -/

/-- A route that is dispatched to is a node with no mount above it, and none itself. -/
theorem Built.exists_unmounted_of_route (hbuilt : Built placement errorHandler regs router)
    {lib : Library H M} {request : Request} {params : Params} {node : Node H M}
    (hroute : (router.matchRoute lib request params).1 = .route node) :
    ∃ address, (router.treeFor (effectiveMethod request)).valueAt? address = some node ∧
      ∀ above, above <+: address →
        ¬ (router.treeFor (effectiveMethod request)).MountAt above := by
  have hdistinct := hbuilt.distinct (effectiveMethod request)
  have hmatch : router.matchRoute lib request params =
      (.route node, (router.matchRoute lib request params).2) := Prod.ext hroute rfl
  obtain ⟨found, hfound, rfl⟩ := Router.matchRoute_route hmatch
  have hunmounted : found.node.isStaticFiles = false := by
    rw [Bool.eq_false_iff]
    intro hmount
    rw [Router.matchRoute, hfound] at hroute
    dsimp only at hroute
    rw [if_pos hmount] at hroute
    cases hroute
  obtain ⟨address, hnode, habove⟩ : ∃ address,
      (router.treeFor (effectiveMethod request)).valueAt? address = some found.node ∧
        ∀ above, above <+: address → above ≠ address →
          ¬ (router.treeFor (effectiveMethod request)).MountAt above := by
    rw [Router.lookup_eq] at hfound
    rcases RouteMatcher.matchRoute_cases hdistinct hfound with ⟨-, -, rfl, -⟩ | ⟨hmem, -, -⟩
    · exact ⟨[], valueAt?_nil, fun above h hne => absurd (List.prefix_nil.mp h) hne⟩
    · obtain ⟨below, -, hvalue, habove⟩ := exists_unmounted_of_mem_findMatches hdistinct hmem
      exact ⟨below, hvalue, habove⟩
  refine ⟨address, hnode, fun above h => ?_⟩
  by_cases hsame : above = address
  · rintro ⟨node, hvalue, hmount⟩
    rw [hsame, hnode] at hvalue
    rw [← Option.some_inj.mp hvalue, hunmounted] at hmount
    cases hmount
  · exact habove above h hsame

/-- **What a request is dispatched to is a registration as a whole.**  Its handler and its
middlewares are those of the last route at an address, and no mount is on the way there. -/
theorem Built.dispatched_whole (hbuilt : Built placement errorHandler regs router)
    (lib : Library H M) {request : Request} {params : Params} {node : Node H M} {h : H}
    (hroute : (router.matchRoute lib request params).1 = .route node)
    (hhandler : node.handler = some h) :
    ∃ r, .route r ∈ regs ∧ r.method = effectiveMethod request ∧ r.handler = some h ∧
      r.middlewares = node.middlewares ∧
      lastAt (routesOf (effectiveMethod request) regs) r.address = some r ∧
      (effectiveMethod request = ascii "GET" →
        ∀ path baseDir, .mount path baseDir ∈ regs → ¬ splitPath path <+: r.address) := by
  obtain ⟨address, hnode, habove⟩ := hbuilt.exists_unmounted_of_route hroute
  have hlast : (lastAt (routesOf (effectiveMethod request) regs) address).bind (·.handler) =
      some h := by
    rw [← hbuilt.handlerAt_eq, TrieNode.handlerAt, hnode]
    exact hhandler
  obtain ⟨r, hr, hrhandler⟩ := Option.bind_eq_some_iff.mp hlast
  obtain ⟨node', hnode', hmiddlewares⟩ := hbuilt.exists_middlewares _ address r hr
  rw [hnode] at hnode'
  obtain ⟨hmem, haddress⟩ := List.mem_filter.mp (List.mem_of_getLast? hr)
  obtain rfl : r.address = address := by simpa using haddress
  obtain ⟨hreg, hmethod⟩ := mem_routesOf.mp hmem
  refine ⟨r, hreg, hmethod, hrhandler, ?_, hr, fun hget path baseDir hmount hbelow => ?_⟩
  · rw [Option.some_inj.mp hnode', hmiddlewares]
  · have hat := hbuilt.mountAt path baseDir hmount
    rw [← hget] at hat
    exact habove (splitPath path) hbelow hat

/-- A directory, and users. -/
def usersAndAssets : List (Registration ℕ Unit) :=
  [.mount (ascii "/assets") (ascii "static"), .route (getRoute "/users/:id" 1)]

theorem dispatched_whole_user : ∃ node r,
    ((Router.build .last () usersAndAssets).matchRoute (.stable digits) (getOf "/users/5")
      fun _ => none).1 = .route node ∧
    .route r ∈ usersAndAssets ∧ r.handler = some 1 ∧ r.middlewares = node.middlewares ∧
    ¬ splitPath (ascii "/assets") <+: r.address := by
  have hbuilt : Built .last () usersAndAssets (Router.build .last () usersAndAssets) :=
    .add (.add .construct rfl) rfl
  have hroute : ((Router.build .last () usersAndAssets).matchRoute (.stable digits)
      (getOf "/users/5") fun _ => none).1 = .route _ := rfl
  obtain ⟨r, hmem, -, hhandler, hmiddlewares, -, hmounts⟩ :=
    hbuilt.dispatched_whole (.stable digits) hroute (h := 1) rfl
  exact ⟨_, r, hroute, hmem, hhandler, hmiddlewares, hmounts rfl _ _ List.mem_cons_self⟩

/-! ## Routes of groups -/

theorem Leads.mem_performed {calls performed : List (RouterCall H M)} {r : Route H M}
    {after : Router H M × Option AddError}
    (hleads : Leads placement errorHandler regs router calls performed after)
    (hmem : .route r ∈ registrations performed) : .register (.route r) ∈ calls := by
  have hperformed : .register (.route r) ∈ performed := by
    obtain ⟨call, hcall, hreg⟩ := List.mem_filterMap.mp hmem
    cases call with
    | register reg =>
        obtain rfl := Option.some_inj.mp hreg
        exact hcall
    | use middleware => cases hreg
  cases hafter : after.2 with
  | none => exact hleads.returned hafter ▸ hperformed
  | some e =>
      obtain ⟨call, rest, rfl, -⟩ := hleads.threw e hafter
      exact List.mem_append_left _ hperformed

/-- What a callback registers with a middleware around it is behind this middleware, whatever is
registered before and after. -/
theorem Built.guarded_of_group (hbuilt : Built placement errorHandler regs router)
    (g : RouteGroup M) (groupRoutes : GroupRoutes H M) (later : List (RouterCall H M))
    (lib : Library H M) {request : Request} {params : Params} {node : Node H M} {h : H} {m : M}
    (hwithin : ∀ groups r, groupRoutes.Within r groups → r.handler = some h →
      m ∈ g.middlewares ++ (groups.map Prod.snd).flatten)
    (hbefore : ∀ r, .route r ∈ regs → r.handler ≠ some h)
    (hlater : ∀ r, .register (.route r) ∈ later → r.handler ≠ some h)
    (hroute : (((g.run placement groupRoutes router).1.performAll placement later).1.matchRoute
      lib request params).1 = .route node)
    (hhandler : node.handler = some h) : m ∈ node.middlewares := by
  obtain ⟨performed, hleads⟩ := hbuilt.leads (g.flatten groupRoutes)
  rw [← g.run_eq_performAll] at hleads
  obtain ⟨performedLater, hleadsLater⟩ := hleads.built.leads later
  obtain ⟨r, hr, -, hrhandler, hmiddlewares, -⟩ :=
    hleadsLater.built.dispatched_whole lib hroute hhandler
  rw [← hmiddlewares]
  rcases List.mem_append.mp hr with hr | hr
  · rcases List.mem_append.mp hr with hr | hr
    · exact absurd hrhandler (hbefore r hr)
    · obtain ⟨groups, r', hr', rfl⟩ :=
        (g.mem_flatten_iff groupRoutes r).mp (hleads.mem_performed hr)
      refine List.mem_append_left _ ?_
      rw [middlewares_nest]
      exact hwithin groups r' hr' hrhandler
  · exact absurd hrhandler (hlater r (hleadsLater.mem_performed hr))

/-- **What is registered behind the authentication is run for an accepted credential only.**  It
may be the middleware of the group or of any group in it; the router may have other routes, mounts
and middlewares, from before and from later. -/
theorem Built.authorized_of_group {E : Type}
    {placement : Placement Str (Node (Handler E) (Layer E))} {errorHandler : Layer E}
    {regs : List (Registration (Handler E) (Layer E))} {router : Router (Handler E) (Layer E)}
    (hbuilt : Built placement errorHandler regs router) (g : RouteGroup (Layer E))
    (groupRoutes : GroupRoutes (Handler E) (Layer E))
    (later : List (RouterCall (Handler E) (Layer E))) (files : Str → Option Str)
    (sorting : Sorting E) (lib : Library (Handler E) (Layer E)) {params : Params} (s : Exchange E)
    {node : Node (Handler E) (Layer E)} {h : Handler E} {registry : ApiKeyRegistry}
    {jwtParser : JwtParser}
    (hwithin : ∀ groups r, groupRoutes.Within r groups → r.handler = some h →
      createAuthMiddleware registry jwtParser ∈ g.middlewares ++ (groups.map Prod.snd).flatten)
    (hbefore : ∀ r, .route r ∈ regs → r.handler ≠ some h)
    (hlater : ∀ r, .register (.route r) ∈ later → r.handler ≠ some h) :
    let final := ((g.run placement groupRoutes router).1.performAll placement later).1
    let dispatch := (final.matchRoute lib s.request params).1
    dispatch = .route node → node.handler = some h →
      (∀ m ∈ final.globalMiddlewares ++ node.middlewares,
        m ≠ createAuthMiddleware registry jwtParser → Orderly authorization m) →
      (dispatch.invoke files sorting final.globalMiddlewares s).RunsHandler →
      Accepted registry jwtParser (authorization s) := by
  intro final dispatch hroute hhandler hothers
  have hauth := hbuilt.guarded_of_group g groupRoutes later lib hwithin hbefore hlater hroute
    hhandler
  exact (Router.authorized_invoke final files sorting lib s hroute
    (List.mem_append_right _ hauth) hothers).2.1

/-- A group that no key opens. -/
def adminGroup : RouteGroup (Layer Unit) where
  pathPrefix := ascii "/admin"
  middlewares := [createAuthMiddleware {} ⟨[]⟩]

def adminRoute : Route (Handler Unit) (Layer Unit) where
  method := ascii "GET"
  path := ascii "/users"
  handler := some fun s => (s, none)

/-- The router of the group, with a mount from later. -/
def adminRouter : Router (Handler Unit) (Layer Unit) :=
  ((adminGroup.run .last (.route adminRoute .done) (.construct createErrorHandler)).1.performAll
    .last [.register (.mount (ascii "/assets") (ascii "static"))]).1

/-- The request carries no credential. -/
theorem not_runsHandler_admin : ¬ (invokeGet adminRouter "/admin/users").RunsHandler := by
  intro hruns
  have hwithin : ∀ groups r, (GroupRoutes.route adminRoute .done).Within r groups →
      r.handler = adminRoute.handler → createAuthMiddleware {} ⟨[]⟩ ∈
        adminGroup.middlewares ++ (groups.map Prod.snd).flatten :=
    fun _ _ _ _ => List.mem_append_left _ List.mem_cons_self
  refine not_accepted_nil (Built.construct.authorized_of_group adminGroup (.route adminRoute .done)
    [.register (.mount (ascii "/assets") (ascii "static"))] appScript .stable (.stable digits)
    ⟨getOf "/admin/users", .stockResponse .ok, ()⟩ hwithin nofun ?_ rfl rfl ?_ hruns)
  · intro r hr
    cases List.mem_singleton.mp hr
  · intro m hm hother
    rcases List.mem_cons.mp hm with rfl | hm
    · exact orderly_catching _ _ _
    · exact absurd (List.mem_singleton.mp hm) hother

end GinCpp.Routing
