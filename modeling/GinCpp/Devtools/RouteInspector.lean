import GinCpp.KeyedTree.Entries
import GinCpp.Routing.Conflicts
import GinCpp.Routing.Naming
import GinCpp.Routing.PatternSafety
import GinCpp.Routing.Predictability
import Mathlib.Data.Finset.Max

/-!
# The route inspector

`RouteInspector::list_routes` walks the trees of a router and writes down a path for every node
with a handler, the keys on the way to it with slashes between them.  The keys are the bare names
of the segments, so the listing is faithful if and only if the segments are all literal
(`faithful_iff`).

A route whose marks are lost is shorter in the listing.  So the longest route with a mark is not
listed as it was written: no route is longer.
-/

namespace GinCpp.Devtools

open KeyedTree Routing

variable {H M : Type}

/-! ## The listing -/

/-- `RouteInfo`. -/
structure RouteInfo where
  method : Str
  path : Str
  handlerName : Str
  deriving DecidableEq, Repr

/-- `next_path` in the loop of `traverse_trie`. -/
def nextPath (currentPath key : Str) : Str :=
  (if currentPath ≠ [] ∧ currentPath.getLast? ≠ some SLASH then currentPath ++ [SLASH]
    else currentPath) ++ key

mutual

/-- `traverse_trie`: the routes that it pushes, in order. -/
def traverseTrie (method currentPath : Str) : TrieNode H M → List RouteInfo
  | ⟨node, children⟩ =>
      (if node.handler.isSome then [⟨method, currentPath, []⟩] else []) ++
        traverseChildren method currentPath children

/-- The loop of `traverse_trie`. -/
def traverseChildren (method currentPath : Str) : List (Str × TrieNode H M) → List RouteInfo
  | [] => []
  | (key, child) :: children =>
      traverseTrie method (nextPath currentPath key) child ++
        traverseChildren method currentPath children

end

/-- `RouteInspector::list_routes`. -/
def listRoutes (router : Router H M) : List RouteInfo :=
  router.trees.flatMap fun (method, tree) => traverseTrie method [] tree

/-! ## Faithfulness -/

/-- The method and the segments of an entry. -/
def RouteInfo.route (info : RouteInfo) : Str × List Str := (info.method, splitPath info.path)

/-- The method and the segments of every `add_route` call, as they were written. -/
def written (regs : List (Registration H M)) : List (Str × List Str) :=
  regs.filterMap fun
    | .route r => some (r.method, splitPath r.path)
    | .mount _ _ => none

/-- **The listing is faithful.**  It has one entry for each route, however often the route was
registered. -/
def Faithful (regs : List (Registration H M)) (infos : List RouteInfo) : Prop :=
  (infos.map RouteInfo.route).Perm (written regs).dedup

instance (regs : List (Registration H M)) (infos : List RouteInfo) :
    Decidable (Faithful regs infos) :=
  inferInstanceAs (Decidable ((infos.map RouteInfo.route).Perm (written regs).dedup))

theorem mem_written {regs : List (Registration H M)} {route : Str × List Str} :
    route ∈ written regs ↔ ∃ r, .route r ∈ regs ∧ (r.method, splitPath r.path) = route := by
  rw [written, List.mem_filterMap]
  constructor
  · rintro ⟨reg, hreg, hroute⟩
    cases reg with
    | mount path baseDir => cases hroute
    | route r => exact ⟨r, hreg, Option.some_inj.mp hroute⟩
  · rintro ⟨r, hr, rfl⟩
    exact ⟨.route r, hr, rfl⟩

/-! ## Segments and their names -/

/-- Reading a segment takes its marks off. -/
theorem length_part_lt {s : Str} {seg : Segment} (hread : Segment.read s = some seg)
    (h : ¬ Literal s) : seg.part.length < s.length := by
  have hne : s ≠ [] := by
    rintro rfl
    exact h (by decide)
  calc seg.part.length
      ≤ s.tail.length :=
        ((Segment.part_cases hread).resolve_right fun hliteral => h hliteral.1).length_le
    _ < s.length := by
        rw [List.length_tail]
        exact Nat.sub_one_lt_of_lt (List.length_pos_iff.mpr hne)

section Names

variable {pieces : List Str} {segments : List Segment}

theorem map_part_of_literal (hread : pieces.mapM Segment.read = some segments)
    (h : ∀ s ∈ pieces, Literal s) : segments.map Segment.part = pieces := by
  have hall := forall₂_of_mapM hread
  clear hread
  induction hall with
  | nil => rfl
  | @cons s seg pieces rest hseg _ ih =>
      obtain ⟨hs, hpieces⟩ := List.forall_mem_cons.mp h
      rw [Segment.read_of_literal hs] at hseg
      rw [List.map_cons, ih hpieces, ← Option.some_inj.mp hseg]

/-- **The names of a pattern are shorter than its segments**, unless they are the segments. -/
theorem length_names (hread : pieces.mapM Segment.read = some segments) :
    (segments.map Segment.part).flatten.length ≤ pieces.flatten.length ∧
      ((∃ s ∈ pieces, ¬ Literal s) →
        (segments.map Segment.part).flatten.length < pieces.flatten.length) := by
  have hall := forall₂_of_mapM hread
  clear hread
  induction hall with
  | nil => exact ⟨le_rfl, by simp⟩
  | @cons s seg pieces rest hseg _ ih =>
      obtain ⟨hle, hlt⟩ := ih
      simp only [List.map_cons, List.flatten_cons, List.length_append]
      by_cases hs : Literal s
      · rw [Segment.read_of_literal hs] at hseg
        rw [← Option.some_inj.mp hseg]
        refine ⟨Nat.add_le_add_left hle _, ?_⟩
        rintro ⟨s', hs', hmark⟩
        rcases List.mem_cons.mp hs' with rfl | hs'
        · exact absurd hs hmark
        · exact Nat.add_lt_add_left (hlt ⟨s', hs', hmark⟩) _
      · have hshort : seg.part.length < s.length := length_part_lt hseg hs
        exact ⟨by omega, fun _ => by omega⟩

end Names

/-! ## The paths that are written down -/

theorem splitPath_append_cons (path rest : Str) :
    splitPath (path ++ SLASH :: rest) = splitPath path ++ splitPath rest := by
  rw [splitPath, List.splitOn_append_cons_self, List.filter_append]
  rfl

theorem splitPath_of_slash_notMem {key : Str} (h : SLASH ∉ key) :
    splitPath key = [key].filter (!·.isEmpty) := by
  rw [splitPath, List.splitOn_eq_singleton h]

theorem splitPath_nextPath (currentPath : Str) {key : Str} (h : SLASH ∉ key) :
    splitPath (nextPath currentPath key) =
      splitPath currentPath ++ [key].filter (!·.isEmpty) := by
  rw [← splitPath_of_slash_notMem h, nextPath]
  split_ifs with hslash
  · rw [List.append_assoc, List.singleton_append, splitPath_append_cons]
  · rcases List.eq_nil_or_concat' currentPath with rfl | ⟨front, last, rfl⟩
    · rfl
    · obtain rfl : last = SLASH := by simpa using hslash
      rw [List.append_assoc, List.singleton_append, splitPath_append_cons, splitPath_append_cons]
      exact congrArg (· ++ splitPath key) (List.append_nil _).symm

/-- The path of an address is split into its names, of which those that are empty are lost. -/
theorem splitPath_foldl_nextPath (currentPath : Str) {address : List Str}
    (h : ∀ key ∈ address, SLASH ∉ key) :
    splitPath (address.foldl nextPath currentPath) =
      splitPath currentPath ++ address.filter (!·.isEmpty) := by
  induction address generalizing currentPath with
  | nil => exact (List.append_nil _).symm
  | cons key address ih =>
      obtain ⟨hkey, haddress⟩ := List.forall_mem_cons.mp h
      rw [List.foldl_cons, ih _ haddress, splitPath_nextPath _ hkey, List.append_assoc,
        ← List.filter_append, List.singleton_append]

/-! ## The nodes with handlers -/

/-- The addresses of the nodes with handlers, in the order in which they are visited. -/
def handled (tree : TrieNode H M) : List (List Str) :=
  (tree.entries.filter (·.2.handler.isSome)).map Prod.fst

mutual

/-- **The traversal writes down the path of every node with a handler.** -/
theorem traverseTrie_eq (method currentPath : Str) : (tree : TrieNode H M) →
    traverseTrie method currentPath tree =
      (handled tree).map fun address => ⟨method, address.foldl nextPath currentPath, []⟩
  | ⟨node, children⟩ => by
      rw [traverseTrie, traverseChildren_eq, handled, entries, List.filter_cons]
      split_ifs
      · rfl
      · rfl

theorem traverseChildren_eq (method currentPath : Str) :
    (children : List (Str × TrieNode H M)) → traverseChildren method currentPath children =
      (((entriesOf children).filter (·.2.handler.isSome)).map Prod.fst).map fun address =>
        ⟨method, address.foldl nextPath currentPath, []⟩
  | [] => rfl
  | (key, child) :: children => by
      rw [traverseChildren, traverseTrie_eq, traverseChildren_eq, handled, entriesOf,
        List.filter_append, List.map_append, List.map_append, List.filter_map]
      simp [Function.comp_def]

end

theorem mem_handled_iff {tree : TrieNode H M} (h : tree.Distinct) {address : List Str} :
    address ∈ handled tree ↔ (tree.handlerAt address).isSome := by
  rw [handled, List.mem_map, TrieNode.handlerAt, Option.isSome_bind, Option.any_eq_true]
  constructor
  · rintro ⟨⟨_, node⟩, hmem, rfl⟩
    obtain ⟨hentry, hhandler⟩ := List.mem_filter.mp hmem
    exact ⟨node, (mem_entries_iff h).mp hentry, hhandler⟩
  · rintro ⟨node, hnode, hhandler⟩
    exact ⟨(address, node), List.mem_filter.mpr ⟨(mem_entries_iff h).mpr hnode, hhandler⟩, rfl⟩

theorem handlerAt_root (address : List Str) :
    (TrieNode.root : TrieNode H M).handlerAt address = none := by
  cases address <;> rfl

theorem nodup_handled {tree : TrieNode H M} (h : tree.Distinct) : (handled tree).Nodup :=
  (nodup_entries h).sublist (List.filter_sublist.map Prod.fst)

section Handlers

variable {placement : Placement Str (Node H M)} {errorHandler : M}
  {regs : List (Registration H M)} {router : Router H M}

/-- **The nodes with handlers are those of the routes.** -/
theorem isSome_handlerAt_iff (hbuilt : Built placement errorHandler regs router)
    (hhandler : ∀ r, .route r ∈ regs → r.handler.isSome) (method : Str) (address : List Str) :
    ((router.treeFor method).handlerAt address).isSome ↔
      ∃ r ∈ routesOf method regs, r.address = address := by
  rw [hbuilt.handlerAt_eq]
  constructor
  · intro hsome
    by_contra hnone
    push Not at hnone
    rw [lastAt_eq_none hnone] at hsome
    cases hsome
  · rintro ⟨r, hr, rfl⟩
    obtain ⟨last, hlast, hsome, -⟩ := exists_lastAt hr
    rw [hsome, Option.bind_some]
    exact hhandler last (mem_routesOf.mp hlast).1

/-! ## The entries of a router -/

theorem readPath_eq_segments (hbuilt : Built placement errorHandler regs router) {r : Route H M}
    (hr : .route r ∈ regs) : readPath r.path = some r.segments := by
  rcases ((exists_built_iff placement errorHandler).mp ⟨router, hbuilt⟩).2 _ hr with hroot | hsome
  · rw [segments_of_root hroot, hroot]
    decide
  · obtain ⟨segments, hread⟩ := Option.isSome_iff_exists.mp hsome
    rw [Route.segments, hread, Option.getD_some]

theorem mem_handled_iff_route (hbuilt : Built placement errorHandler regs router)
    (hhandler : ∀ r, .route r ∈ regs → r.handler.isSome) {method : Str} {tree : TrieNode H M}
    (htree : (method, tree) ∈ router.trees) {address : List Str} :
    address ∈ handled tree ↔ ∃ r ∈ routesOf method regs, r.address = address := by
  obtain rfl := Router.treeFor_of_mem hbuilt.nodup_trees htree
  rw [mem_handled_iff (hbuilt.distinct method), isSome_handlerAt_iff hbuilt hhandler]

/-- The methods of the routes have trees. -/
theorem exists_tree (hbuilt : Built placement errorHandler regs router)
    (hhandler : ∀ r, .route r ∈ regs → r.handler.isSome) {r : Route H M}
    (hr : .route r ∈ regs) : ∃ tree, (r.method, tree) ∈ router.trees := by
  have hsome : ((router.treeFor r.method).handlerAt r.address).isSome :=
    (isSome_handlerAt_iff hbuilt hhandler _ _).mpr ⟨r, mem_routesOf.mpr ⟨hr, rfl⟩, rfl⟩
  cases htree : router.tree? r.method with
  | none =>
      rw [Router.treeFor, htree, Option.getD_none, handlerAt_root] at hsome
      cases hsome
  | some tree => exact ⟨tree, Router.mem_trees_of_tree? htree⟩

/-- The entries by method and segments. -/
theorem map_route_listRoutes (hbuilt : Built placement errorHandler regs router)
    (hhandler : ∀ r, .route r ∈ regs → r.handler.isSome) :
    (listRoutes router).map RouteInfo.route = router.trees.flatMap fun kv =>
      (handled kv.2).map fun address => (kv.1, address.filter (!·.isEmpty)) := by
  rw [listRoutes, List.map_flatMap]
  apply List.flatMap_congr
  rintro ⟨method, tree⟩ htree
  dsimp only
  rw [traverseTrie_eq, List.map_map]
  apply List.map_congr_left
  intro address haddress
  obtain ⟨r, hr, rfl⟩ := (mem_handled_iff_route hbuilt hhandler htree).mp haddress
  have hslash : ∀ key ∈ r.address, SLASH ∉ key := by
    intro key hkey
    obtain ⟨seg, hseg, rfl⟩ := List.mem_map.mp hkey
    exact slash_not_mem_part (readPath_eq_segments hbuilt (mem_routesOf.mp hr).1) hseg
  rw [Function.comp_apply, RouteInfo.route, splitPath_foldl_nextPath _ hslash]
  rfl

/-- **What is listed** are the names of the routes. -/
theorem mem_map_route_listRoutes (hbuilt : Built placement errorHandler regs router)
    (hhandler : ∀ r, .route r ∈ regs → r.handler.isSome) {route : Str × List Str} :
    route ∈ (listRoutes router).map RouteInfo.route ↔
      ∃ r, .route r ∈ regs ∧ (r.method, r.address.filter (!·.isEmpty)) = route := by
  rw [map_route_listRoutes hbuilt hhandler, List.mem_flatMap]
  constructor
  · rintro ⟨⟨method, tree⟩, htree, hroute⟩
    obtain ⟨address, haddress, rfl⟩ := List.mem_map.mp hroute
    obtain ⟨r, hr, rfl⟩ := (mem_handled_iff_route hbuilt hhandler htree).mp haddress
    obtain ⟨hreg, rfl⟩ := mem_routesOf.mp hr
    exact ⟨r, hreg, rfl⟩
  · rintro ⟨r, hr, rfl⟩
    obtain ⟨tree, htree⟩ := exists_tree hbuilt hhandler hr
    have haddress : r.address ∈ handled tree := by
      rw [mem_handled_iff_route hbuilt hhandler htree]
      exact ⟨r, mem_routesOf.mpr ⟨hr, rfl⟩, rfl⟩
    exact ⟨(r.method, tree), htree, List.mem_map.mpr ⟨r.address, haddress, rfl⟩⟩

/-! ## Faithful listings -/

/-- The names of a route of literal segments are its segments. -/
theorem names_of_literal (hbuilt : Built placement errorHandler regs router) {r : Route H M}
    (hr : .route r ∈ regs) (hliteral : ∀ s ∈ splitPath r.path, Literal s) :
    r.address = splitPath r.path ∧ r.address.filter (!·.isEmpty) = r.address := by
  have hnames : r.address = splitPath r.path :=
    map_part_of_literal (readPath_eq_segments hbuilt hr) hliteral
  refine ⟨hnames, ?_⟩
  rw [hnames, List.filter_eq_self]
  intro s hs
  simpa using ne_nil_of_mem_splitPath hs

/-- Nothing is listed twice. -/
theorem nodup_map_route_listRoutes (hbuilt : Built placement errorHandler regs router)
    (hhandler : ∀ r, .route r ∈ regs → r.handler.isSome)
    (hliteral : ∀ r, .route r ∈ regs → ∀ s ∈ splitPath r.path, Literal s) :
    ((listRoutes router).map RouteInfo.route).Nodup := by
  rw [map_route_listRoutes hbuilt hhandler, List.nodup_flatMap]
  constructor
  · rintro ⟨method, tree⟩ htree
    have hdistinct : tree.Distinct :=
      Router.treeFor_of_mem hbuilt.nodup_trees htree ▸ hbuilt.distinct method
    refine (nodup_handled hdistinct).map_on fun address haddress address' haddress' heq => ?_
    obtain ⟨r, hr, rfl⟩ := (mem_handled_iff_route hbuilt hhandler htree).mp haddress
    obtain ⟨r', hr', rfl⟩ := (mem_handled_iff_route hbuilt hhandler htree).mp haddress'
    replace hr := (mem_routesOf.mp hr).1
    replace hr' := (mem_routesOf.mp hr').1
    have hsame := (Prod.mk.inj heq).2
    rwa [(names_of_literal hbuilt hr (hliteral r hr)).2,
      (names_of_literal hbuilt hr' (hliteral r' hr')).2] at hsame
  · -- the trees are of different methods
    refine (List.pairwise_map.mp hbuilt.nodup_trees).imp fun {kv kv'} hne => ?_
    intro route hroute hroute'
    obtain ⟨address, -, rfl⟩ := List.mem_map.mp hroute
    obtain ⟨address', -, heq⟩ := List.mem_map.mp hroute'
    exact hne (Prod.mk.inj heq).1.symm

/-- **All routes are listed only if all segments are literal**: a route is listed as the names of
one that is longer, if it has a segment that is not. -/
theorem literal_of_listed (hbuilt : Built placement errorHandler regs router)
    (h : ∀ r, .route r ∈ regs → ∃ r', .route r' ∈ regs ∧
      (r'.method, r'.address.filter (!·.isEmpty)) = (r.method, splitPath r.path)) :
    ∀ r, .route r ∈ regs → ∀ s ∈ splitPath r.path, Literal s := by
  by_contra! hmarked
  obtain ⟨r, hr, s, hs, hmark⟩ := hmarked
  -- a longest route with a segment that is not literal
  obtain ⟨route, hroute, hlongest⟩ := Finset.exists_max_image
    ((written regs).filter fun route => ∃ s ∈ route.2, ¬ Literal s).toFinset
    (fun route => route.2.flatten.length)
    ⟨(r.method, splitPath r.path), by simpa using ⟨mem_written.mpr ⟨r, hr, rfl⟩, s, hs, hmark⟩⟩
  obtain ⟨hwritten, hmarked⟩ : route ∈ written regs ∧ ∃ s ∈ route.2, ¬ Literal s := by
    simpa using hroute
  obtain ⟨q, hq, rfl⟩ := mem_written.mp hwritten
  obtain ⟨q', hq', heq⟩ := h q hq
  obtain ⟨hmethod, hnames⟩ := Prod.mk.inj heq
  have hread := readPath_eq_segments hbuilt hq'
  have hmarked' : ∃ s ∈ splitPath q'.path, ¬ Literal s := by
    by_contra! hliteral
    obtain ⟨s, hs, hmark⟩ := hmarked
    have hsame := names_of_literal hbuilt hq' hliteral
    rw [hsame.2, hsame.1] at hnames
    exact hmark (hliteral s (hnames ▸ hs))
  have hlonger : (splitPath q.path).flatten.length < (splitPath q'.path).flatten.length := by
    rw [← hnames, List.flatten_filter_not_isEmpty]
    exact (length_names hread).2 hmarked'
  have hle := hlongest (q'.method, splitPath q'.path)
    (by simpa using ⟨mem_written.mpr ⟨q', hq', rfl⟩, hmarked'⟩)
  exact absurd hlonger (Nat.not_lt.mpr hle)

/-- **The listing is faithful if and only if every segment is literal.** -/
theorem faithful_iff (hbuilt : Built placement errorHandler regs router)
    (hhandler : ∀ r, .route r ∈ regs → r.handler.isSome) :
    Faithful regs (listRoutes router) ↔
      ∀ r, .route r ∈ regs → ∀ s ∈ splitPath r.path, Literal s := by
  constructor
  · intro hfaithful
    refine literal_of_listed hbuilt fun r hr => ?_
    rw [← mem_map_route_listRoutes hbuilt hhandler, hfaithful.mem_iff, List.mem_dedup]
    exact mem_written.mpr ⟨r, hr, rfl⟩
  · intro hliteral
    rw [Faithful, List.perm_ext_iff_of_nodup
      (nodup_map_route_listRoutes hbuilt hhandler hliteral) (List.nodup_dedup _)]
    intro route
    rw [List.mem_dedup, mem_map_route_listRoutes hbuilt hhandler, mem_written]
    refine exists_congr fun r => and_congr_right fun hr => ?_
    have hnames := names_of_literal hbuilt hr (hliteral r hr)
    rw [hnames.2, hnames.1]

end Handlers

/-- A route with a handler. -/
def listed (method path : String) : Registration Unit Unit :=
  .route { method := ascii method, path := ascii path, handler := some () }

/-- Two methods of one path. -/
def users : List (Registration Unit Unit) := [listed "GET" "/users", listed "POST" "/users"]

theorem built_users : Built .last () users (.build .last () users) := by
  have hget : Built .last () [listed "GET" "/users"] (.build .last () [listed "GET" "/users"]) :=
    .add .construct rfl
  have hpost : (Router.build .last () [listed "GET" "/users"]).add .last (listed "POST" "/users") =
      .ok (.build .last () users) := rfl
  exact hget.add hpost

theorem faithful_iff_users : Faithful users (listRoutes (.build .last () users)) := by
  refine (faithful_iff built_users ?_).mpr ?_
  · intro r hr
    rcases List.mem_pair.mp hr with heq | heq
    · rw [Registration.route.inj heq]
      rfl
    · rw [Registration.route.inj heq]
      rfl
  · intro r hr
    rcases List.mem_pair.mp hr with heq | heq
    · rw [Registration.route.inj heq]
      decide
    · rw [Registration.route.inj heq]
      decide

def userById : List (Registration Unit Unit) := [listed "GET" "/users/:id"]

/-- The colon is lost. -/
theorem not_faithful_userById :
    Built .last () userById (.build .last () userById) ∧
      listRoutes (.build .last () userById) = [⟨ascii "GET", ascii "users/id", []⟩] ∧
      ¬ Faithful userById (listRoutes (.build .last () userById)) := by
  have hadd : (Router.construct ()).add .last (listed "GET" "/users/:id") =
      .ok (.build .last () userById) := rfl
  have hnew : Built .last () [] (Router.construct () : Router Unit Unit) := .construct
  exact ⟨hnew.add hadd, by decide +kernel, by decide +kernel⟩

end GinCpp.Devtools
