import GinCpp.Middleware.Composition
import GinCpp.Routing.Coverage
import GinCpp.Routing.Selection
import Mathlib.Data.List.Rotate

/-!
# The order of equal priorities

A route of nested groups has the middlewares of the groups, the outermost first, and then its own.
They are started in the order that the sort leaves, and all that `std::sort` promises is an order of
the priorities: middlewares of one priority keep theirs if and only if they are all the same
(`Built.keepsOrder_iff`).
-/

namespace GinCpp.Routing

open Http KeyedTree Middleware

/-! ## Sorting -/

section Sorting

variable {E : Type} {layers : List (Layer E)} {priority : Int}

/-- The middlewares of a priority, in order. -/
def ofPriority (priority : Int) (layers : List (Layer E)) : List (Layer E) :=
  layers.filter (·.priority = priority)

theorem mem_ofPriority {m : Layer E} :
    m ∈ ofPriority priority layers ↔ m ∈ layers ∧ m.priority = priority := by
  rw [ofPriority, List.mem_filter, decide_eq_true_iff]

theorem ofPriority_perm (sorting : Sorting E) (priority : Int) (layers : List (Layer E)) :
    (ofPriority priority (sorting.sort layers)).Perm (ofPriority priority layers) :=
  (sorting.perm layers).filter _

/-- A stable sort keeps the order of equal priorities. -/
theorem ofPriority_stable (priority : Int) (layers : List (Layer E)) :
    ofPriority priority (Sorting.stable.sort layers) = ofPriority priority layers := by
  have hsorted : (ofPriority priority layers).Pairwise fun a b => a.priority ≤ b.priority := by
    refine List.pairwise_of_forall_mem_list fun a ha b hb => ?_
    rw [(mem_ofPriority.mp ha).2, (mem_ofPriority.mp hb).2]
  have hsublist : (ofPriority priority layers).Sublist (Sorting.stable.sort layers) :=
    List.sublist_insertionSort hsorted List.filter_sublist
  have hsame : ofPriority priority (ofPriority priority layers) = ofPriority priority layers :=
    List.filter_filter.trans (by simp [ofPriority])
  have hkept : (ofPriority priority layers).Sublist
      (ofPriority priority (Sorting.stable.sort layers)) := by
    rw [← hsame]
    exact hsublist.filter _
  exact (hkept.eq_of_length (ofPriority_perm _ priority layers).length_eq.symm).symm

/-- A sort that moves the first `k` elements to the end before it compares. -/
def Sorting.rotating (k : ℕ) : Sorting E where
  sort layers := Sorting.stable.sort (layers.rotate k)
  perm layers := (Sorting.stable.perm _).trans (List.rotate_perm layers k)
  sorted _ := Sorting.stable.sorted _

/-- A sort may put the first middleware of a priority behind the others. -/
theorem ofPriority_rotating {before after : List (Layer E)} {first : Layer E}
    (hbefore : ∀ m ∈ before, ¬ m.priority = priority) (hfirst : first.priority = priority) :
    ofPriority priority ((Sorting.rotating (before ++ [first]).length).sort
      (before ++ first :: after)) = ofPriority priority after ++ [first] := by
  have hrotated : (before ++ first :: after).rotate (before ++ [first]).length =
      after ++ (before ++ [first]) := by
    rw [List.append_cons, List.rotate_append_length_eq]
  have hnone : ofPriority priority before = [] :=
    List.filter_eq_nil_iff.mpr fun m hm => by simpa using hbefore m hm
  have hlast : ofPriority priority [first] = [first] := List.filter_eq_self.mpr (by simp [hfirst])
  calc ofPriority priority ((Sorting.rotating (before ++ [first]).length).sort
        (before ++ first :: after))
      = ofPriority priority ((before ++ first :: after).rotate (before ++ [first]).length) :=
        ofPriority_stable priority _
    _ = ofPriority priority after ++
          (ofPriority priority before ++ ofPriority priority [first]) := by
        rw [hrotated, ofPriority, List.filter_append, List.filter_append]
        rfl
    _ = ofPriority priority after ++ [first] := by rw [hnone, hlast, List.nil_append]

/-- **Every sort keeps the order** of the middlewares of a priority if and only if they are all the
same. -/
theorem forall_ofPriority_sort_iff :
    (∀ sorting : Sorting E, ofPriority priority (sorting.sort layers) =
        ofPriority priority layers) ↔
      ∀ m ∈ ofPriority priority layers, ∀ m' ∈ ofPriority priority layers, m = m' := by
  cases hall : ofPriority priority layers with
  | nil =>
      refine iff_of_true (fun sorting => ?_) fun m hm => absurd hm List.not_mem_nil
      exact (hall ▸ ofPriority_perm sorting priority layers).eq_nil
  | cons first others =>
      constructor
      · -- the first one is moved behind the others
        intro hkeep
        obtain ⟨before, after, rfl, hbefore, hfirst, hafter⟩ := List.filter_eq_cons_iff.mp hall
        have hbehind : ofPriority priority after ++ [first] = first :: others :=
          (ofPriority_rotating (by simpa using hbefore) (by simpa using hfirst)).symm.trans
            (hkeep _)
        have hcycle : (first :: others).rotate 1 = first :: others := by
          rw [List.rotate_cons_succ, List.rotate_zero, ← hbehind, ← hafter]
          rfl
        have : Nonempty (Layer E) := ⟨first⟩
        obtain ⟨m, hm⟩ := List.rotate_one_eq_self_iff_eq_replicate.mp hcycle
        intro m' hm' m'' hm''
        rw [hm] at hm' hm''
        exact (List.eq_of_mem_replicate hm').trans (List.eq_of_mem_replicate hm'').symm
      · intro hsame sorting
        have hreplicate : first :: others = List.replicate (first :: others).length first :=
          List.eq_replicate_of_mem fun m hm => hsame m hm first List.mem_cons_self
        have hperm := hall ▸ ofPriority_perm sorting priority layers
        rw [hreplicate] at hperm ⊢
        exact List.perm_replicate.mp hperm

end Sorting

/-! ## The middlewares of a node -/

section Middlewares

variable {H M : Type} {placement : Placement Str (Node H M)} {errorHandler : M}
  {regs : List (Registration H M)} {router : Router H M}

theorem mark_middlewares (node : Node H M) (seg : Segment) :
    (node.mark seg).middlewares = node.middlewares := by
  obtain ⟨part, kind⟩ := seg
  cases kind <;> rfl

theorem Route.atEnd_middlewares (r : Route H M) (node : Node H M) :
    (r.atEnd node).middlewares = r.middlewares := by
  unfold Route.atEnd
  split_ifs
  · rfl
  · rfl

/-- A node that is there keeps its middlewares, the one at the end of the walk aside. -/
theorem exists_valueAt?_walk (placement : Placement Str (Node H M)) {tree : TrieNode H M}
    (leaf : Node H M → Node H M) (pattern : List Segment) {address : List Str} {old : Node H M}
    (hdistinct : tree.Distinct) (hold : tree.valueAt? address = some old)
    (hleaf : address = pattern.map Segment.part →
      ∀ node : Node H M, (leaf node).middlewares = node.middlewares) :
    ∃ node, (walk placement leaf pattern tree).valueAt? address = some node ∧
      node.middlewares = old.middlewares := by
  obtain ⟨node, hnode⟩ := Option.isSome_iff_exists.mp
    (isSome_valueAt?_walk hdistinct (.inl (by rw [hold]; rfl)) :
      ((walk placement leaf pattern tree).valueAt? address).isSome)
  refine ⟨node, hnode, ?_⟩
  rcases valueAt?_walk hdistinct hnode with ⟨hsame, -⟩ | ⟨rfl, rfl⟩ |
    ⟨before, seg, after, rfl, haddress, rfl⟩
  · rw [Option.some_inj.mp (hsame.symm.trans hold)]
  · obtain rfl := Option.some_inj.mp hold
    by_cases hnil : pattern = []
    · rw [if_pos hnil, hleaf (by rw [hnil]; rfl)]
    · rw [if_neg hnil]
      rfl
  · rw [hold, Option.getD_some]
    by_cases hnil : after = []
    · rw [if_pos hnil, hleaf (by rw [haddress, hnil]; simp), mark_middlewares]
    · rw [if_neg hnil]
      exact mark_middlewares old seg

/-- **A node has the middlewares of the last route with its address.** -/
theorem Built.exists_middlewares (hbuilt : Built placement errorHandler regs router)
    (method : Str) : ∀ address r, lastAt (routesOf method regs) address = some r →
      ∃ node, (router.treeFor method).valueAt? address = some node ∧
        node.middlewares = r.middlewares := by
  refine hbuilt.treeFor_induction (P := fun regs tree => ∀ address r,
    lastAt (routesOf method regs) address = some r →
      ∃ node, tree.valueAt? address = some node ∧ node.middlewares = r.middlewares) ?_ ?_ ?_
  · exact fun address r h => nomatch h
  · intro regs reg tree hmethod hdistinct ih address r hlast
    cases reg with
    | mount path baseDir =>
        have hsame : routesOf method (regs ++ [.mount path baseDir]) = routesOf method regs := by
          simp [routesOf]
        rw [hsame] at hlast
        obtain ⟨old, hold, hmiddlewares⟩ := ih address r hlast
        obtain ⟨node, hnode, hkept⟩ := exists_valueAt?_walk placement (.mount baseDir)
          (Registration.mount path baseDir : Registration H M).pattern hdistinct hold
          fun _ _ => rfl
        exact ⟨node, hnode, hkept.trans hmiddlewares⟩
    | route q =>
        rw [routesOf_append, if_pos (show q.method = method from hmethod), lastAt_append] at hlast
        split_ifs at hlast with haddress
        · obtain rfl := Option.some_inj.mp hlast
          obtain ⟨node, hnode⟩ := exists_valueAt?_walk_end placement q.atEnd q.segments hdistinct
          rw [← haddress]
          exact ⟨_, hnode, q.atEnd_middlewares node⟩
        · obtain ⟨old, hold, hmiddlewares⟩ := ih address r hlast
          obtain ⟨node, hnode, hkept⟩ := exists_valueAt?_walk placement q.atEnd q.segments
            hdistinct hold fun heq => absurd heq.symm haddress
          exact ⟨node, hnode, hkept.trans hmiddlewares⟩
  · intro regs reg tree hother ih address r hlast
    refine ih address r ?_
    cases reg with
    | mount path baseDir => simpa [routesOf] using hlast
    | route q =>
        rwa [routesOf_append, if_neg (show ¬ q.method = method from hother), List.append_nil]
          at hlast

/-- The node that is looked up is the one at its address. -/
theorem Built.valueAt?_of_lookup (hbuilt : Built placement errorHandler regs router)
    {lib : Library H M} {method path : Str} {params : Params} {found : Match H M}
    (hfound : (router.lookup lib method path params).1 = some found) :
    (router.treeFor method).valueAt? found.address = some found.node := by
  have hlookup : router.lookup lib method path params =
      (some found, (router.lookup lib method path params).2) := Prod.ext hfound rfl
  have hdistinct := hbuilt.distinct method
  rw [Router.lookup_eq] at hlookup
  rcases RouteMatcher.matchRoute_cases hdistinct hlookup with ⟨-, -, rfl, -⟩ | ⟨hmem, -, -⟩
  · exact valueAt?_nil
  · obtain ⟨below, haddress, hnode, -⟩ :=
      RouteMatcher.exists_address_of_mem_findMatches hdistinct hmem
    rw [haddress, List.nil_append]
    exact hnode

end Middlewares

/-! ## Groups in groups -/

/-- The innermost of some groups, from the outermost on. -/
def nest {M : Type} (groups : List (Str × List M)) : RouteGroup M :=
  groups.foldl (fun g (newPrefix, middlewares) => g.group newPrefix middlewares) ⟨[], []⟩

theorem middlewares_nest {M : Type} (groups : List (Str × List M)) :
    (nest groups).middlewares = (groups.map Prod.snd).flatten := by
  have hfold : ∀ g : RouteGroup M,
      (groups.foldl (fun g (newPrefix, middlewares) => g.group newPrefix middlewares)
        g).middlewares = g.middlewares ++ (groups.map Prod.snd).flatten := by
    induction groups with
    | nil => exact fun g => (List.append_nil _).symm
    | cons newest groups ih =>
        intro g
        rw [List.foldl_cons, ih, List.map_cons, List.flatten_cons, ← List.append_assoc]
        rfl
  exact hfold ⟨[], []⟩

/-! ## The order of the starts -/

section Starts

variable {E : Type}

/-- The middlewares in the order of their starts, where each is started inside the one before. -/
def Invocation.started (run : Invocation E) : List (Layer E) :=
  run.log.reverse.filterMap fun e => run.layers[e.position]?

theorem Invocation.started_of_nested {run : Invocation E}
    (h : Nested [] 0 run.layers.length run.log) : run.started = run.layers := by
  have hpositions : run.log.reverse.map (·.position) =
      List.range run.layers.length ++ [run.layers.length] := by
    rw [List.map_reverse, h.positions, List.reverse_reverse, ← List.range_succ,
      List.range_eq_range']
    rfl
  have hgets : (List.range run.layers.length).map (run.layers[·]?) = run.layers.map some := by
    refine List.ext_getElem (by simp) fun i hi _ => ?_
    simp only [List.length_map, List.length_range] at hi
    simp [hi]
  calc run.started
      = (run.log.reverse.map (·.position)).filterMap (run.layers[·]?) :=
        List.filterMap_map.symm
    _ = ((List.range run.layers.length).map (run.layers[·]?)).filterMap id := by
        rw [hpositions, List.filterMap_append, List.filterMap_map]
        simp
    _ = run.layers := by
        rw [hgets, List.filterMap_map]
        exact List.filterMap_some

theorem exactlyOnce_createErrorHandler :
    (createErrorHandler (E := E)).handler.ExactlyOnce
  | none => trivial
  | some _ => ⟨fun _ _ => trivial, fun _ => trivial⟩

/-- All middlewares of a route are started, in the order that the sort leaves. -/
theorem started_invoke_route {globals : List (Layer E)} {node : Node (Handler E) (Layer E)}
    (hcalls : ∀ m ∈ globals ++ node.middlewares, m.handler.ExactlyOnce)
    (files : Str → Option Str) (sorting : Sorting E) (s : Exchange E) :
    let run := Dispatch.invoke files sorting globals s (.route node)
    Nested [] 0 (globals ++ node.middlewares).length run.log ∧
      run.started = sorting.sort (globals ++ node.middlewares) := by
  intro run
  have hperm := sorting.perm (globals ++ node.middlewares)
  have hnested : Nested [] 0 run.layers.length run.log :=
    (chainOf sorting globals node).nested_start (fun m hm => hcalls m (hperm.mem_iff.mp hm)) s
  refine ⟨?_, Invocation.started_of_nested hnested⟩
  rw [← hperm.length_eq]
  exact hnested

/-- **When equal priorities keep their order.** -/
theorem Built.keepsOrder_iff {placement : Placement Str (Node (Handler E) (Layer E))}
    {regs : List (Registration (Handler E) (Layer E))} {router : Router (Handler E) (Layer E)}
    (hbuilt : Built placement createErrorHandler regs router)
    (lib : Library (Handler E) (Layer E)) (files : Str → Option Str) {params : Params}
    {s : Exchange E} {groups : List (Str × List (Layer E))} {r : Route (Handler E) (Layer E)}
    {found : Match (Handler E) (Layer E)}
    (hlast : lastAt (routesOf (effectiveMethod s.request) regs) ((nest groups).route r).address =
      some ((nest groups).route r))
    (hfound : (router.lookup lib (effectiveMethod s.request) s.request.getPath params).1 =
      some found)
    (haddress : found.address = ((nest groups).route r).address)
    (hroute : found.node.isStaticFiles = false)
    (hcalls : ∀ m ∈ router.globalMiddlewares.tail ++ (groups.map Prod.snd).flatten ++
      r.middlewares, m.handler.ExactlyOnce)
    (priority : Int) :
    let registered := router.globalMiddlewares ++ (groups.map Prod.snd).flatten ++ r.middlewares
    let run := fun sorting => (router.matchRoute lib s.request params).1.invoke files sorting
      router.globalMiddlewares s
    (∀ sorting, Nested [] 0 registered.length (run sorting).log) ∧
      ((∀ sorting, ofPriority priority (run sorting).started = ofPriority priority registered) ↔
        ∀ m ∈ ofPriority priority registered, ∀ m' ∈ ofPriority priority registered,
          m = m') := by
  intro registered run
  have hmiddlewares : router.globalMiddlewares ++ found.node.middlewares = registered := by
    obtain ⟨node, hnode, hkept⟩ := hbuilt.exists_middlewares _ _ _ hlast
    rw [← haddress, hbuilt.valueAt?_of_lookup hfound] at hnode
    rw [Option.some_inj.mp hnode, hkept]
    dsimp only [RouteGroup.route]
    rw [middlewares_nest, ← List.append_assoc]
  have hdispatch : (router.matchRoute lib s.request params).1 = .route found.node := by
    have hlookup : router.lookup lib (effectiveMethod s.request) s.request.getPath params =
      (some found, (router.lookup lib (effectiveMethod s.request) s.request.getPath params).2) :=
      Prod.ext hfound rfl
    rw [Router.matchRoute, hlookup]
    simp [hroute]
  have hexactly : ∀ m ∈ router.globalMiddlewares ++ found.node.middlewares,
      m.handler.ExactlyOnce := by
    obtain ⟨further, hglobals⟩ := hbuilt.exists_globalMiddlewares
    rw [hmiddlewares]
    dsimp only [registered]
    rw [hglobals] at hcalls ⊢
    exact List.forall_mem_cons.mpr ⟨exactlyOnce_createErrorHandler, hcalls⟩
  have hstarted := fun sorting => started_invoke_route hexactly files sorting s
  rw [hmiddlewares] at hstarted
  dsimp only [run]
  rw [hdispatch]
  refine ⟨fun sorting => (hstarted sorting).1, ?_⟩
  rw [← forall_ofPriority_sort_iff]
  exact forall_congr' fun sorting => by rw [(hstarted sorting).2]

end Starts

/-- Note a name, then call `next`. -/
def noting (name : String) : Layer (List String) where
  handler := .act (fun s => { s with captured := s.captured ++ [name] }) fun _ =>
    .call fun
      | none => .ret
      | some e => .throw e

theorem exactlyOnce_noting (name : String) : (noting name).handler.ExactlyOnce := by
  intro _ result
  cases result <;> exact trivial

/-- A group with one middleware, and in it a route with another. -/
def usersGroup : List (Str × List (Layer (List String))) :=
  [(ascii "/api", [noting "group_middleware"])]

def usersRoute : Route (Handler (List String)) (Layer (List String)) where
  method := ascii "GET"
  path := ascii "/users"
  middlewares := [noting "route_middleware"]
  handler := some fun s => (s, none)

/-- The router with this route alone. -/
def usersRouter : Router (Handler (List String)) (Layer (List String)) :=
  .build .last createErrorHandler [.route ((nest usersGroup).route usersRoute)]

def usersExchange : Exchange (List String) := ⟨getOf "/api/users", .stockResponse .ok, []⟩

theorem built_usersRouter : Built .last createErrorHandler
    [.route ((nest usersGroup).route usersRoute)] usersRouter := .add .construct rfl

/-- The middlewares of priority 0 that are started. -/
def startedOnUsers (sorting : Sorting (List String)) : List (Layer (List String)) :=
  let dispatch := (usersRouter.matchRoute (.stable digits) usersExchange.request fun _ => none).1
  ofPriority 0 (dispatch.invoke (fun _ => none) sorting usersRouter.globalMiddlewares
    usersExchange).started

theorem keepsOrder_iff_users :
    (∀ sorting, startedOnUsers sorting =
        [noting "group_middleware", noting "route_middleware"]) ↔
      ∀ m ∈ [noting "group_middleware", noting "route_middleware"],
        ∀ m' ∈ [noting "group_middleware", noting "route_middleware"], m = m' := by
  have hlast : lastAt (routesOf (effectiveMethod usersExchange.request)
      [.route ((nest usersGroup).route usersRoute)]) ((nest usersGroup).route usersRoute).address =
        some ((nest usersGroup).route usersRoute) := rfl
  refine (Built.keepsOrder_iff built_usersRouter (.stable digits) (fun _ => none) hlast rfl rfl rfl
    ?_ 0).2
  exact List.forall_mem_cons.mpr
    ⟨exactlyOnce_noting _, List.forall_mem_singleton.mpr (exactlyOnce_noting _)⟩

/-- A sort may swap the two. -/
theorem not_keepsOrder_users : ¬ ∀ sorting,
    startedOnUsers sorting = [noting "group_middleware", noting "route_middleware"] := by
  intro hkeeps
  have hnotes := congrArg (List.map fun m : Layer (List String) =>
    (m.handler.run (fun (_ : Unit) s => ((), s, none)) () usersExchange).state.captured)
    (hkeeps (.rotating 2))
  exact absurd hnotes (by decide +kernel)

end GinCpp.Routing
