import GinCpp.Routing.Completeness
import GinCpp.Routing.Contenders

/-!
# Specific routes and wildcards

Nodes get a default priority by their type, static segments the highest and regex segments none, and
the search does not look behind a mount.  A path that a route without `*` and a `*` route or a mount
both match is routed to the former exactly if it outranks whatever else the search finds:
`Built.overrides_iff`.
-/

namespace GinCpp.Routing

open Http KeyedTree RouteMatcher

variable {H M : Type} {regex : Regex}

/-! ## Who matches a path -/

namespace Registration

/-- A route without a `*` segment. -/
def Specific : Registration H M → Prop
  | .route r => ∀ seg ∈ r.segments, seg.kind ≠ .wildcard
  | .mount _ _ => False

/-- The segments of a path match the pattern, or begin with the path of the mount. -/
def Serves (regex : Regex) (segments : List Str) : Registration H M → Prop
  | .route r => Matches regex r.segments segments
  | .mount path _ => splitPath path <+: segments

instance decidableSpecific : (reg : Registration H M) → Decidable reg.Specific
  | .route r => inferInstanceAs (Decidable (∀ seg ∈ r.segments, seg.kind ≠ .wildcard))
  | .mount _ _ => inferInstanceAs (Decidable False)

instance decidableServes (regex : Regex) (segments : List Str) :
    (reg : Registration H M) → Decidable (reg.Serves regex segments)
  | .route r => inferInstanceAs (Decidable (Matches regex r.segments segments))
  | .mount path _ => inferInstanceAs (Decidable (splitPath path <+: segments))

end Registration

/-- The path of a request is matched by a route without `*` and by something else. -/
def Contested (regex : Regex) (regs : List (Registration H M)) (request : Request) : Prop :=
  (∃ reg ∈ regs, reg.method = effectiveMethod request ∧ reg.Specific ∧
    reg.Serves regex (splitPath request.getPath)) ∧
  ∃ reg ∈ regs, reg.method = effectiveMethod request ∧ ¬ reg.Specific ∧
    reg.Serves regex (splitPath request.getPath)

instance (regex : Regex) (regs : List (Registration H M)) (request : Request) :
    Decidable (Contested regex regs request) :=
  inferInstanceAs (Decidable ((∃ reg ∈ regs, _ ∧ _ ∧ _) ∧ ∃ reg ∈ regs, _ ∧ ¬ _ ∧ _))

/-- The node at an address is no mount, and its handler is that of a route without `*`. -/
def SpecificAt (routes : List (Route H M)) (address : List Str) (node : Node H M) : Prop :=
  node.isStaticFiles = false ∧
    ∃ r, lastAt routes address = some r ∧ (Registration.route r).Specific

/-- **Specific routes override wildcards**, whatever the sort does with nodes of one priority. -/
def Router.Overrides (regex : Regex) (regs : List (Registration H M)) (router : Router H M)
    (request : Request) : Prop :=
  Contested regex regs request → ∀ lib : Library H M, lib.regex = regex → ∀ params,
    ∃ found params', router.lookup lib (effectiveMethod request) request.getPath params =
        (some found, params') ∧
      (router.matchRoute lib request params).1 = .route found.node ∧
      SpecificAt (routesOf (effectiveMethod request) regs) found.address found.node

/-! ## What the nodes hold -/

/-- The default priority of the node at an address: that of its type if a route ends there. -/
def Node.rank (routes : List (Route H M)) (address : List Str) (node : Node H M) : Int :=
  if Prioritized routes address then node.type.priority else 0

/-- A candidate with the handler of a route without `*` ranks above every mount and every node of a
`*` route among the candidates; or there is no candidate, but a route for `/`. -/
def Outranks (regex : Regex) (routes : List (Route H M)) (tree : TrieNode H M)
    (segments : List Str) : Prop :=
  (∃ address node, Candidate regex tree segments address node ∧ SpecificAt routes address node ∧
    ∀ address' node', Candidate regex tree segments address' node' →
      ¬ SpecificAt routes address' node' → node'.rank routes address' < node.rank routes address) ∨
  ((∀ address node, ¬ Candidate regex tree segments address node) ∧
    ∃ r ∈ routes, r.path = ascii "/")

/-- What routes with default priorities leave in a tree, with or without mounts. -/
structure Recorded (tree : TrieNode H M) (routes : List (Route H M)) : Prop
    extends Registered tree routes where
  distinct : tree.Distinct
  present : ∀ r ∈ routes, (tree.valueAt? r.address).isSome

namespace Recorded

variable {placement : Placement Str (Node H M)} {tree : TrieNode H M} {routes : List (Route H M)}

theorem root : Recorded (TrieNode.root : TrieNode H M) [] where
  toRegistered := Registered.root
  distinct := Invariant.root.distinct
  present := nofun

/-- The nodes that were there are still there. -/
theorem present_walk (h : Recorded tree routes) {pattern : List Segment}
    {leaf : Node H M → Node H M} :
    ∀ r ∈ routes, ((Routing.walk placement leaf pattern tree).valueAt? r.address).isSome :=
  fun r hr => isSome_valueAt?_walk h.distinct (.inl (h.present r hr))

theorem walk (h : Recorded tree routes) {r : Route H M} (hdefault : r.priority = 0) :
    Recorded (Routing.walk placement r.atEnd r.segments tree) (routes ++ [r]) where
  toRegistered := h.toRegistered.walk h.distinct h.present hdefault
  distinct := h.distinct.insert
  present := by
    refine List.forall_mem_append.mpr ⟨h.present_walk, List.forall_mem_singleton.mpr ?_⟩
    exact isSome_valueAt?_walk h.distinct (.inr List.prefix_rfl)

/-- A mount has no handler and no priority. -/
theorem mount (h : Recorded tree routes) (pattern : List Segment) (baseDir : Str) :
    Recorded (Routing.walk placement (Node.mount baseDir) pattern tree) routes where
  holds := h.holds_walk h.distinct h.present (fun _ _ _ hnode => hnode)
    fun _ hnode => ⟨hnode.handler, hnode.priority⟩
  catchAll := by
    rw [← h.catchAll]
    cases pattern with
    | nil => exact Iff.rfl
    | cons seg pattern =>
        have hvalue : (Routing.walk placement (Node.mount baseDir) (seg :: pattern) tree).value =
            tree.value := value_insert_cons
        rw [hvalue]
  distinct := h.distinct.insert
  present := h.present_walk

/-- The priority of what the search finds is the default. -/
theorem priority_eq_rank (h : Recorded tree routes) {segments : List Str} {m : Match H M}
    (hm : m ∈ findMatches regex segments [] tree) :
    m.node.priority = m.node.rank routes m.address := by
  obtain ⟨below, haddress, hnode, -⟩ := exists_address_of_mem_findMatches h.distinct hm
  rw [haddress, List.nil_append]
  exact (h.holds below m.node hnode).priority

end Recorded

variable {placement : Placement Str (Node H M)} {errorHandler : M}
  {regs : List (Registration H M)} {router : Router H M}

theorem Built.recorded (hbuilt : Built placement errorHandler regs router)
    (hdefault : ∀ r, .route r ∈ regs → r.priority = 0) (method : Str) :
    Recorded (router.treeFor method) (routesOf method regs) := by
  have hmount : ∀ regs (path baseDir : Str),
      routesOf method (regs ++ [.mount path baseDir]) = (routesOf method regs : List (Route H M)) :=
    fun regs path baseDir => by simp [routesOf, List.filterMap_append]
  refine hbuilt.treeFor_induction (P := fun regs tree =>
    (∀ r, .route r ∈ regs → r.priority = 0) → Recorded tree (routesOf method regs))
    (fun _ => Recorded.root) ?_ ?_ hdefault
  · intro regs reg tree hmethod _ ih hdefault
    have hold := ih fun r hr => hdefault r (List.mem_append_left _ hr)
    cases reg with
    | route r =>
        rw [routesOf_append, if_pos (show r.method = method from hmethod)]
        exact hold.walk (hdefault r (by simp))
    | mount path baseDir =>
        rw [hmount]
        exact hold.mount _ baseDir
  · intro regs reg tree hmethod ih hdefault
    have hold := ih fun r hr => hdefault r (List.mem_append_left _ hr)
    cases reg with
    | route r =>
        rw [routesOf_append, if_neg (show ¬ r.method = method from hmethod), List.append_nil]
        exact hold
    | mount path baseDir =>
        rw [hmount]
        exact hold

/-! ## Which route is picked -/

section Picked

variable {tree : TrieNode H M} {routes : List (Route H M)} {path : Str}

/-- Whatever the sort does, the node picked is that of a route without `*`. -/
def Picks (regex : Regex) (routes : List (Route H M)) (tree : TrieNode H M) (path : Str) : Prop :=
  ∀ lib : Library H M, lib.regex = regex → ∀ params, ∃ found,
    (matchRoute lib tree path params).1 = some found ∧ SpecificAt routes found.address found.node

/-- No candidate, no match other than the root. -/
theorem matchRoute_of_findMatches_eq_nil {lib : Library H M} (params : Params)
    (hnone : findMatches lib.regex (splitPath path) [] tree = []) :
    (matchRoute lib tree path params).1 =
      if tree.value.isCatchAll then some ⟨[], tree.value⟩ else none := by
  unfold matchRoute
  dsimp only
  rw [hnone, sort_eq_nil.mpr rfl]
  split_ifs <;> rfl

namespace Recorded

theorem mem_iff (h : Recorded tree routes) {segments address : List Str} {node : Node H M} :
    ⟨address, node⟩ ∈ findMatches regex segments [] tree ↔
      Candidate regex tree segments address node := by
  rw [mem_findMatches_iff_candidate h.distinct]
  constructor
  · rintro ⟨below, haddress, hcandidate⟩
    obtain rfl : address = below := haddress
    exact hcandidate
  · intro hcandidate
    exact ⟨address, rfl, hcandidate⟩

theorem eq_nil_of_no_candidate (h : Recorded tree routes) {segments : List Str}
    (hnone : ∀ address node, ¬ Candidate regex tree segments address node) :
    findMatches regex segments [] tree = [] :=
  List.eq_nil_iff_forall_not_mem.mpr fun m hm => hnone m.address m.node (h.mem_iff.mp hm)

/-- The root without a candidate is that of a route for `/`. -/
theorem specificAt_root {segments : List Str}
    (hnone : ∀ address node, ¬ Candidate regex tree segments address node)
    (hroot : ∃ r ∈ routes, r.path = ascii "/") : SpecificAt routes [] tree.value := by
  obtain ⟨r, hr, hpath⟩ := hroot
  obtain ⟨r', -, hlast, haddress⟩ := exists_lastAt hr
  have hnil : r.address = [] := by rw [Route.address, segments_of_root hpath, List.map_nil]
  refine ⟨?_, r', hnil ▸ hlast, fun seg hseg => ?_⟩
  · rw [Bool.eq_false_iff]
    exact fun hmount => hnone _ _ (.mount hmount)
  · have hsegments : r'.segments = [] := List.map_eq_nil_iff.mp (haddress.trans hnil)
    rw [hsegments] at hseg
    cases hseg

theorem picks_of_outranks (h : Recorded tree routes)
    (hranks : Outranks regex routes tree (splitPath path)) : Picks regex routes tree path := by
  rintro lib rfl params
  rcases hranks with ⟨address, node, hcandidate, -, hhighest⟩ | ⟨hnone, hroot⟩
  · have hm := h.mem_iff.mpr hcandidate
    obtain ⟨best, hbest, hmatch, hmax⟩ := exists_matchRoute_of_mem lib params hm
    refine ⟨best, hmatch, ?_⟩
    by_contra hgeneral
    have hlower := hhighest best.address best.node (h.mem_iff.mp hbest) hgeneral
    have hle := hmax _ hm
    rw [h.priority_eq_rank hm, h.priority_eq_rank hbest] at hle
    exact absurd hle (Int.not_le.mpr hlower)
  · have hcatchAll : tree.value.isCatchAll = true := h.catchAll.mpr hroot
    refine ⟨⟨[], tree.value⟩, ?_, specificAt_root hnone hroot⟩
    rw [matchRoute_of_findMatches_eq_nil params (h.eq_nil_of_no_candidate hnone), if_pos hcatchAll]

/-- A node of the highest priority can be picked. -/
theorem specificAt_of_picks (h : Recorded tree routes) (hpicks : Picks regex routes tree path)
    {m : Match H M} (hm : m ∈ findMatches regex (splitPath path) [] tree)
    (hhighest : ∀ n ∈ findMatches regex (splitPath path) [] tree,
      n.node.priority ≤ m.node.priority) : SpecificAt routes m.address m.node := by
  obtain ⟨found, hfound, hspecific⟩ := hpicks (.favouring regex m.address) rfl fun _ => none
  rw [matchRoute_favouring (fun _ => none) h.distinct hm rfl hhighest] at hfound
  rw [Option.some_inj.mp hfound]
  exact hspecific

theorem outranks_of_picks (h : Recorded tree routes) (hpicks : Picks regex routes tree path) :
    Outranks regex routes tree (splitPath path) := by
  obtain ⟨found, hfound, -⟩ := hpicks (.stable regex) rfl fun _ => none
  by_cases hnone : ∀ address node, ¬ Candidate regex tree (splitPath path) address node
  · refine .inr ⟨hnone, h.catchAll.mp ?_⟩
    rw [matchRoute_of_findMatches_eq_nil _ (h.eq_nil_of_no_candidate hnone)] at hfound
    by_contra hcatchAll
    rw [if_neg hcatchAll] at hfound
    cases hfound
  · push Not at hnone
    obtain ⟨address, node, hcandidate⟩ := hnone
    obtain ⟨best, hbest, -, hmax⟩ :=
      exists_matchRoute_of_mem (.stable regex) (fun _ => none) (h.mem_iff.mpr hcandidate)
    refine .inl ⟨best.address, best.node, h.mem_iff.mp hbest,
      h.specificAt_of_picks hpicks hbest hmax, fun address' node' hcandidate' hgeneral => ?_⟩
    -- otherwise this one is of the highest priority as well
    by_contra hle
    have hm := h.mem_iff.mpr hcandidate'
    refine hgeneral (h.specificAt_of_picks hpicks hm fun n hn => ?_)
    have hn := hmax n hn
    rw [h.priority_eq_rank hbest] at hn
    rw [h.priority_eq_rank hm]
    dsimp only
    omega

end Recorded

end Picked

/-- **When specific routes override wildcards.**  With default priorities, for every path that a
route without `*` and a `*` route or a mount both match: exactly if a route without `*` outranks all
of these. -/
theorem Built.overrides_iff (hbuilt : Built placement errorHandler regs router)
    (hdefault : ∀ r, .route r ∈ regs → r.priority = 0) (regex : Regex) (request : Request) :
    router.Overrides regex regs request ↔ (Contested regex regs request →
      Outranks regex (routesOf (effectiveMethod request) regs)
        (router.treeFor (effectiveMethod request)) (splitPath request.getPath)) := by
  have hrecorded := hbuilt.recorded hdefault (effectiveMethod request)
  refine imp_congr_right fun _ => ⟨fun hoverrides => ?_, fun hranks lib hlib params => ?_⟩
  · refine hrecorded.outranks_of_picks fun lib hlib params => ?_
    obtain ⟨found, params', hfound, -, hspecific⟩ := hoverrides lib hlib params
    rw [Router.lookup_eq] at hfound
    exact ⟨found, congrArg Prod.fst hfound, hspecific⟩
  · obtain ⟨found, hfound, hspecific⟩ := hrecorded.picks_of_outranks hranks lib hlib params
    rw [← Router.lookup_eq] at hfound
    refine ⟨found, _, Prod.ext hfound rfl, ?_, hspecific⟩
    exact Router.matchRoute_of_lookup (Prod.ext hfound rfl) hspecific.1

/-- Items by number, and anything else. -/
def itemRoutes : List (Registration ℕ Unit) :=
  [.route (getRoute "/items/<id:\\d+>" 0), .route (getRoute "/items/*rest" 1)]

theorem built_itemRoutes : Built .last () itemRoutes (.build .last () itemRoutes) :=
  .add (.add .construct rfl) rfl

/-- The item is routed to anything else. -/
theorem not_overrides_item :
    ¬ (Router.build .last () itemRoutes).Overrides digits itemRoutes (getOf "/items/5") := by
  intro hoverrides
  have hcontested : Contested digits itemRoutes (getOf "/items/5") := by decide +kernel
  obtain ⟨found, params', hfound, -, -, r, hlast, hspecific⟩ :=
    hoverrides hcontested (.stable digits) rfl fun _ => none
  have haddress : found.address = [ascii "items", ascii "rest"] := by
    have hpicked : ((Router.build .last () itemRoutes).lookup (.stable digits)
        (effectiveMethod (getOf "/items/5")) (getOf "/items/5").getPath fun _ => none).1.map
          Match.address = some [ascii "items", ascii "rest"] := by decide +kernel
    rw [hfound] at hpicked
    exact Option.some_inj.mp hpicked
  have hr : r = getRoute "/items/*rest" 1 := by
    rw [haddress] at hlast
    exact (Option.some_inj.mp hlast).symm
  subst hr
  exact absurd hspecific (by decide +kernel)

theorem overrides_iff_item :
    (Router.build .last () itemRoutes).Overrides digits itemRoutes (getOf "/items/5") ↔
      (Contested digits itemRoutes (getOf "/items/5") →
        Outranks digits (routesOf (effectiveMethod (getOf "/items/5")) itemRoutes)
          ((Router.build .last () itemRoutes).treeFor (effectiveMethod (getOf "/items/5")))
          (splitPath (getOf "/items/5").getPath)) := by
  refine built_itemRoutes.overrides_iff ?_ digits (getOf "/items/5")
  intro r hr
  rcases List.mem_pair.mp hr with hr | hr
  · rw [Registration.route.inj hr]
    rfl
  · rw [Registration.route.inj hr]
    rfl

end GinCpp.Routing
