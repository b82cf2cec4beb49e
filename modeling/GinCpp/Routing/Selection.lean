import GinCpp.Routing.Params

/-!
# Which nodes are found

`find_matches` finds the nodes of the patterns that are reached, and no others:
`mem_findMatches_iff`.
With default priorities the handler and the priority of a node can be read off the routes
(`Registered`), whatever the order of the children.
-/

namespace GinCpp.Routing

open Http KeyedTree RouteMatcher

variable {H M : Type} {regex : Regex}

/-! ## Finding a pattern -/

/-- A segment that is reached is entered. -/
theorem exists_enters_of_reached {seg : Segment} {s : Str} {segments : List Str}
    {pattern : List Segment} {val : Node H M} (hshows : val.Shows seg)
    (h : Reached regex false (seg :: pattern) (s :: segments)) :
    ∃ rest, Enters regex s segments seg.part val rest ∧ Reached regex false pattern rest := by
  obtain ⟨-, htype, -, hfields⟩ := hshows
  obtain ⟨part, kind⟩ := seg
  rcases h with ⟨hname, hrest⟩ | h
  · exact ⟨segments, .name hname.symm, hrest⟩
  · cases kind with
    | static => exact h.elim
    | parameter isOptional defaultValue => exact ⟨segments, .parameter htype, h⟩
    | wildcard => exact ⟨[], .wildcard htype, h⟩
    | regex expression => exact ⟨segments, .regex htype (hfields ▸ h.1), h.2⟩

/-- The node of a pattern that is reached is found, if it has a handler. -/
theorem mem_findMatches_of_reached {t u : TrieNode H M} {pattern : List Segment}
    {segments address : List Str} (hdistinct : t.Distinct) (hmount : Unmounted t)
    (hspells : Spells t pattern u) (hhandler : u.value.handler.isSome)
    (h : Reached regex false pattern segments) :
    ⟨address ++ pattern.map Segment.part, u.value⟩ ∈ findMatches regex segments address t := by
  induction pattern generalizing t segments address with
  | nil =>
      cases hspells
      obtain rfl : segments = [] := h.resolve_left (by simp)
      refine (mem_arrive hdistinct (hmount [] _ valueAt?_nil)).mpr (Or.inl ⟨?_, hhandler⟩)
      rw [List.map_nil, List.append_nil]
  | cons seg pattern ih =>
      obtain ⟨c, hchild, hshows, hspells⟩ := Spells.cons_iff.mp hspells
      cases segments with
      | nil =>
          obtain ⟨rfl, hoptional⟩ := h
          obtain rfl : c = u := by
            cases hspells
            rfl
          refine (mem_arrive hdistinct (hmount [] _ valueAt?_nil)).mpr (Or.inr ?_)
          exact ⟨seg.part, c, hchild, rfl, hshows.2.2.1.trans hoptional, hhandler⟩
      | cons s segments =>
          obtain ⟨rest, henters, hrest⟩ := exists_enters_of_reached hshows h
          have hbelow : ⟨(address ++ [seg.part]) ++ pattern.map Segment.part, u.value⟩ ∈
              findMatches regex rest (address ++ [seg.part]) c :=
            ih (hdistinct.child (mem_of_child? hchild)) (hmount.child hchild) hspells hrest
          rw [List.append_assoc] at hbelow
          exact (mem_findMatches_cons hdistinct (hmount [] _ valueAt?_nil)).mpr
            ⟨seg.part, c, rest, hchild, henters, hbelow⟩

/-- Patterns with the same address are the same. -/
theorem Compatible.eq_of_address_eq {pattern pattern' : List Segment}
    (h : Compatible pattern pattern')
    (haddress : pattern.map Segment.part = pattern'.map Segment.part) : pattern = pattern' := by
  induction pattern generalizing pattern' with
  | nil => exact (List.map_eq_nil_iff.mp haddress.symm).symm
  | cons seg pattern ih =>
      cases pattern' with
      | nil => cases haddress
      | cons seg' pattern' =>
          obtain ⟨hpart, hrest⟩ := List.cons.inj haddress
          obtain ⟨rfl, hcompatible⟩ := h hpart
          rw [ih hcompatible hrest]

/-! ## What a node holds -/

/-- The priority that `add_route` gives to a node by default. -/
def NodeType.priority : NodeType → Int
  | .static => 3
  | .parameter => 2
  | .wildcard => 1
  | .regex => 0

/-- The last route with an address. -/
def lastAt (routes : List (Route H M)) (address : List Str) : Option (Route H M) :=
  (routes.filter (·.address = address)).getLast?

/-- A route with an address has set the priority of its node.  The path `/` does not. -/
def Prioritized (routes : List (Route H M)) (address : List Str) : Prop :=
  ∃ r ∈ routes, r.address = address ∧ r.path ≠ ascii "/"

instance (routes : List (Route H M)) (address : List Str) :
    Decidable (Prioritized routes address) :=
  inferInstanceAs (Decidable (∃ r ∈ routes, r.address = address ∧ r.path ≠ ascii "/"))

/-- The handler of a node is that of the last route with its address, and its priority is the
default. -/
structure Node.Holds (routes : List (Route H M)) (address : List Str) (node : Node H M) : Prop where
  handler : node.handler = (lastAt routes address).bind Route.handler
  priority : node.priority = if Prioritized routes address then node.type.priority else 0

/-- What routes with default priorities leave in a tree. -/
structure Registered (tree : TrieNode H M) (routes : List (Route H M)) : Prop where
  holds : ∀ address node, tree.valueAt? address = some node → node.Holds routes address
  catchAll : tree.value.isCatchAll = true ↔ ∃ r ∈ routes, r.path = ascii "/"

theorem lastAt_append (routes : List (Route H M)) (r : Route H M) (address : List Str) :
    lastAt (routes ++ [r]) address =
      if r.address = address then some r else lastAt routes address := by
  rw [lastAt, List.filter_append]
  split_ifs with haddress
  · simp [haddress]
  · simp [haddress, lastAt]

theorem prioritized_append (routes : List (Route H M)) (r : Route H M) (address : List Str) :
    Prioritized (routes ++ [r]) address ↔
      Prioritized routes address ∨ (r.address = address ∧ r.path ≠ ascii "/") := by
  simp [Prioritized, or_and_right, exists_or]

theorem exists_lastAt {routes : List (Route H M)} {r : Route H M} (hr : r ∈ routes) :
    ∃ r' ∈ routes, lastAt routes r.address = some r' ∧ r'.address = r.address := by
  have hmem : r ∈ routes.filter (·.address = r.address) := List.mem_filter.mpr ⟨hr, by simp⟩
  obtain ⟨r', hr'⟩ := Option.isSome_iff_exists.mp
    (List.getLast?_isSome.mpr (List.ne_nil_of_mem hmem))
  obtain ⟨hmem', haddress⟩ := List.mem_filter.mp (List.mem_of_getLast? hr')
  exact ⟨r', hmem', hr', by simpa using haddress⟩

theorem lastAt_eq_none {routes : List (Route H M)} {address : List Str}
    (h : ∀ r ∈ routes, r.address ≠ address) : lastAt routes address = none := by
  rw [lastAt, List.getLast?_eq_none_iff, List.filter_eq_nil_iff]
  simpa using h

namespace Node.Holds

variable {routes : List (Route H M)} {address : List Str} {node : Node H M} {r : Route H M}

/-- A later route with another address. -/
theorem append (h : node.Holds routes address) (hne : r.address ≠ address) :
    node.Holds (routes ++ [r]) address where
  handler := by rw [lastAt_append, if_neg hne, h.handler]
  priority := by
    rw [h.priority]
    simp only [prioritized_append, hne, false_and, or_false]

/-- The route itself. -/
theorem atEnd (h : node.Holds routes r.address) (hdefault : r.priority = 0) :
    (r.atEnd node).Holds (routes ++ [r]) r.address where
  handler := by
    rw [r.leaf_atEnd.handler, lastAt_append, if_pos rfl]
    rfl
  priority := by
    have hpriority := h.priority
    simp only [prioritized_append, true_and]
    unfold Route.atEnd
    by_cases hroot : r.path = ascii "/"
    · simpa [hroot, Node.catchAll] using hpriority
    · simp only [hroot, if_false, Node.register, hdefault, ne_eq, not_true_eq_false,
        not_false_eq_true, or_true, if_true]
      cases htype : node.type with
      | static | parameter | wildcard => rfl
      | regex =>
          -- there is no default, but nothing has set the priority either
          rw [hpriority, htype]
          exact ite_self 0

theorem mark (h : node.Holds routes address) (seg : Segment) :
    (node.mark seg).Holds routes address := by
  obtain ⟨part, kind⟩ := seg
  cases kind <;> exact ⟨h.handler, h.priority⟩

/-- A new node. -/
theorem new (hnew : ∀ r ∈ routes, r.address ≠ address) (seg : Segment) :
    (seg.node : Node H M).Holds routes address where
  handler := by
    rw [lastAt_eq_none hnew]
    rfl
  priority := by
    rw [if_neg]
    · rfl
    · rintro ⟨r, hr, haddress, -⟩
      exact hnew r hr haddress

end Node.Holds

namespace Registered

variable {placement : Placement Str (Node H M)} {tree : TrieNode H M} {routes : List (Route H M)}
  {r : Route H M}

theorem root : Registered (TrieNode.root : TrieNode H M) [] where
  holds address node hnode := by
    cases address with
    | nil =>
        obtain rfl := Option.some_inj.mp hnode
        exact ⟨rfl, rfl⟩
    | cons k address => cases hnode
  catchAll := by simp [TrieNode.root]

/-- The nodes after a walk, given what becomes of those off its end and of the one there. -/
theorem holds_walk {pattern : List Segment} {leaf : Node H M → Node H M}
    {routes' : List (Route H M)} (h : Registered tree routes) (hdistinct : tree.Distinct)
    (hpresent : ∀ r ∈ routes, (tree.valueAt? r.address).isSome)
    (hkeep : ∀ address (node : Node H M), pattern.map Segment.part ≠ address →
      node.Holds routes address → node.Holds routes' address)
    (hend : ∀ node : Node H M, node.Holds routes (pattern.map Segment.part) →
      (leaf node).Holds routes' (pattern.map Segment.part))
    (address : List Str) (node : Node H M)
    (hnode : (Routing.walk placement leaf pattern tree).valueAt? address = some node) :
    node.Holds routes' address := by
  rcases valueAt?_walk hdistinct hnode with ⟨hold, hoff⟩ | ⟨rfl, rfl⟩ |
    ⟨before, seg, after, rfl, haddress, rfl⟩
  · -- off the way
    refine hkeep address node ?_ (h.holds address node hold)
    rintro rfl
    exact hoff List.prefix_rfl
  · -- the root
    have hroot : tree.value.Holds routes [] := h.holds [] _ valueAt?_nil
    by_cases hnil : pattern = []
    · subst hnil
      rw [if_pos rfl]
      exact hend _ hroot
    · rw [if_neg hnil]
      refine hkeep [] _ ?_ hroot
      rwa [Ne, List.map_eq_nil_iff]
  · -- on the way, where a new node holds what no route put there
    have hpattern : (before ++ seg :: after).map Segment.part =
        address ++ after.map Segment.part := by
      rw [haddress]
      simp
    rw [hpattern] at hkeep hend
    have hmarked : (((tree.valueAt? address).getD seg.node).mark seg).Holds routes address := by
      apply Node.Holds.mark
      cases hold : tree.valueAt? address with
      | some old => exact h.holds address old hold
      | none =>
          apply Node.Holds.new
          rintro q hq rfl
          exact absurd hold (Option.isSome_iff_ne_none.mp (hpresent q hq))
    by_cases hnil : after = []
    · subst hnil
      rw [List.map_nil, List.append_nil] at hend
      rw [if_pos rfl]
      exact hend _ hmarked
    · rw [if_neg hnil]
      refine hkeep address _ ?_ hmarked
      simpa using hnil

theorem catchAll_walk (h : Registered tree routes) :
    (Routing.walk placement r.atEnd r.segments tree).value.isCatchAll = true ↔
      ∃ q ∈ routes ++ [r], q.path = ascii "/" := by
  have hroutes : (∃ q ∈ routes ++ [r], q.path = ascii "/") ↔
      tree.value.isCatchAll = true ∨ r.path = ascii "/" := by
    rw [h.catchAll]
    simp [or_and_right, exists_or]
  rw [hroutes]
  by_cases hroot : r.path = ascii "/"
  · rw [segments_of_root hroot]
    refine iff_of_true ?_ (Or.inr hroot)
    simp [Routing.walk, KeyedTree.insert, Route.atEnd, hroot, Node.catchAll]
  · simp only [hroot, or_false]
    cases hsegments : r.segments with
    | nil => simp [Routing.walk, KeyedTree.insert, Route.atEnd, hroot, Node.register]
    | cons seg pattern =>
        have hvalue : (Routing.walk placement r.atEnd (seg :: pattern) tree).value = tree.value :=
          value_insert_cons
        rw [hvalue]

/-- **`add_route` with a default priority.** -/
theorem walk (h : Registered tree routes) (hdistinct : tree.Distinct)
    (hpresent : ∀ r ∈ routes, (tree.valueAt? r.address).isSome) (hdefault : r.priority = 0) :
    Registered (Routing.walk placement r.atEnd r.segments tree) (routes ++ [r]) :=
  ⟨h.holds_walk hdistinct hpresent (fun _ _ hne hnode => hnode.append hne)
    fun _ hnode => hnode.atEnd hdefault, h.catchAll_walk⟩

end Registered

/-! ## The tree of some routes -/

/-- The tree that routes make, one after another. -/
def grown (placement : Placement Str (Node H M)) (routes : List (Route H M)) : TrieNode H M :=
  routes.foldl (fun tree r => walk placement r.atEnd r.segments tree) .root

section Grown

variable {placement : Placement Str (Node H M)} {routes : List (Route H M)}

theorem grown_append (r : Route H M) : grown placement (routes ++ [r]) =
    walk placement r.atEnd r.segments (grown placement routes) := by
  rw [grown, List.foldl_append]
  rfl

theorem NoClash.of_append {r : Route H M} (h : NoClash (routes ++ [r])) : NoClash routes :=
  fun q hq q' hq' => h q (List.mem_append_left _ hq) q' (List.mem_append_left _ hq')

theorem invariant_grown (hclash : NoClash routes) : Invariant (grown placement routes) routes := by
  induction routes using List.reverseRecOn with
  | nil => exact Invariant.root
  | append_singleton routes r ih =>
      rw [grown_append]
      exact (ih hclash.of_append).walk (fun q hq => hclash q (by simp [hq]) r (by simp))
        r.leaf_atEnd

theorem registered_grown (hclash : NoClash routes) (hdefault : ∀ r ∈ routes, r.priority = 0) :
    Registered (grown placement routes) routes := by
  induction routes using List.reverseRecOn with
  | nil => exact Registered.root
  | append_singleton routes r ih =>
      rw [grown_append]
      have hinvariant : Invariant (grown placement routes) routes :=
        invariant_grown hclash.of_append
      exact (ih hclash.of_append fun q hq => hdefault q (List.mem_append_left _ hq)).walk
        hinvariant.distinct hinvariant.present (hdefault r (by simp))

/-- **The tree of a method is made by its routes**, if nothing is mounted there. -/
theorem Built.treeFor_eq_grown {errorHandler : M} {regs : List (Registration H M)}
    {router : Router H M} (hbuilt : Built placement errorHandler regs router) {method : Str}
    (hroutes : ∀ reg ∈ regs, reg.method = method → ∃ r, reg = .route r) :
    router.treeFor method = grown placement (routesOf method regs) := by
  refine hbuilt.treeFor_induction (P := fun regs tree =>
    (∀ reg ∈ regs, reg.method = method → ∃ r, reg = .route r) →
      tree = grown placement (routesOf method regs)) (fun _ => rfl) ?_ ?_ hroutes
  · intro regs reg tree hmethod _ ih hroutes
    obtain ⟨r, rfl⟩ := hroutes reg (by simp) hmethod
    rw [routesOf_append, if_pos (show r.method = method from hmethod), grown_append,
      ← ih fun reg hreg => hroutes reg (List.mem_append_left _ hreg)]
    rfl
  · intro regs reg tree hmethod ih hroutes
    rw [ih fun reg hreg => hroutes reg (List.mem_append_left _ hreg)]
    congr 1
    cases reg with
    | route r => rw [routesOf_append, if_neg (show ¬ r.method = method from hmethod),
        List.append_nil]
    | mount path baseDir => simp [routesOf, List.filterMap_append]

end Grown

/-! ## The nodes that are found -/

section Found

variable {placement : Placement Str (Node H M)} {tree : TrieNode H M} {routes : List (Route H M)}
  {segments : List Str} {m : Match H M}

theorem Registered.isSome_handler (h : Registered tree routes)
    (hhandler : ∀ r ∈ routes, r.handler.isSome) :
    ∀ r ∈ routes, ∀ node, tree.valueAt? r.address = some node → node.handler.isSome := by
  intro r hr node hnode
  obtain ⟨r', hr', hlast, -⟩ := exists_lastAt hr
  rw [(h.holds _ _ hnode).handler, hlast]
  exact hhandler r' hr'

/-- **A node is found exactly for a pattern that is reached**, if the patterns have handlers. -/
theorem mem_findMatches_iff (hinvariant : Invariant tree routes) (hclash : NoClash routes)
    (hhandler : ∀ r ∈ routes, ∀ node, tree.valueAt? r.address = some node →
      node.handler.isSome) :
    m ∈ findMatches regex segments [] tree ↔
      ∃ r ∈ routes, Reached regex false r.segments segments ∧ m.address = r.address ∧
        tree.valueAt? r.address = some m.node := by
  constructor
  · intro hm
    obtain ⟨below, haddress, hnode, hpushed⟩ :=
      exists_address_of_mem_findMatches hinvariant.distinct hm
    have hmount : m.node.isStaticFiles = false := hinvariant.unmounted below m.node hnode
    obtain ⟨handler, hsome⟩ := Option.isSome_iff_exists.mp
      (hpushed.resolve_left (by rw [hmount]; simp))
    obtain ⟨before, r, after, hsplit, rfl, -⟩ := hinvariant.latest below m.node handler hnode hsome
    have hr : r ∈ routes := by
      rw [hsplit]
      simp
    obtain ⟨u, hspells⟩ := hinvariant.spells hclash hr
    refine ⟨r, hr, ?_, haddress, hnode⟩
    exact reached_of_mem_findMatches hinvariant.distinct hinvariant.unmounted hspells hm haddress
  · rintro ⟨r, hr, hreached, haddress, hnode⟩
    obtain ⟨u, hspells⟩ := hinvariant.spells hclash hr
    have hvalue : u.value = m.node :=
      Option.some_inj.mp (hspells.valueAt?.symm.trans hnode)
    have hsome : u.value.handler.isSome := by
      rw [hvalue]
      exact hhandler r hr _ hnode
    have hfound : ⟨[] ++ r.segments.map Segment.part, u.value⟩ ∈
        findMatches regex segments [] tree :=
      mem_findMatches_of_reached hinvariant.distinct hinvariant.unmounted hspells hsome hreached
    obtain ⟨address, node⟩ := m
    obtain rfl : address = r.address := haddress
    obtain rfl : u.value = node := hvalue
    exact hfound

end Found

end GinCpp.Routing
