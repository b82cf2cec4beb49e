import GinCpp.Routing.Selection

/-!
# Route conflicts

A tree maps addresses to handlers, and every route overwrites what is at its address, however the
segments are written: `Built.handlerAt_eq`.  `add_route` warns where it replaces a handler
(`Built.warnsOf_iff`).
-/

namespace GinCpp.Routing

open KeyedTree

variable {H M : Type}

/-- The handler at an address. -/
def TrieNode.handlerAt (tree : TrieNode H M) (address : List Str) : Option H :=
  (tree.valueAt? address).bind (·.handler)

/-- The test in front of the warning of `add_route`, behind the loop.  The path `/` has returned
before. -/
def Router.warnsOf (placement : Placement Str (Node H M)) (router : Router H M) (r : Route H M) :
    Bool :=
  if r.path = ascii "/" then false
  else
    match readPath r.path with
    | none => false
    | some segments =>
        let current := (walk placement id segments (router.treeFor r.method)).valueAt?
          (segments.map Segment.part)
        (current.bind (·.handler)).isSome

section

variable {placement : Placement Str (Node H M)} {leaf : Node H M → Node H M}
  {pattern : List Segment} {tree : TrieNode H M} {address : List Str}

/-- A walk changes no handler but the one at its end. -/
theorem handlerAt_walk (hdistinct : tree.Distinct)
    (hleaf : address = pattern.map Segment.part → ∀ node, (leaf node).handler = node.handler) :
    (walk placement leaf pattern tree).handlerAt address = tree.handlerAt address := by
  unfold TrieNode.handlerAt
  cases hnode : (walk placement leaf pattern tree).valueAt? address with
  | none =>
      cases hold : tree.valueAt? address with
      | none => rfl
      | some old =>
          have hsome : ((walk placement leaf pattern tree).valueAt? address).isSome :=
            isSome_valueAt?_walk hdistinct (.inl (Option.isSome_of_eq_some hold))
          rw [hnode] at hsome
          cases hsome
  | some node =>
      rcases valueAt?_walk hdistinct hnode with ⟨hsame, -⟩ | ⟨rfl, rfl⟩ |
        ⟨before, seg, after, rfl, haddress, rfl⟩
      · rw [hsame]
      · rw [valueAt?_nil, Option.bind_some, Option.bind_some]
        split
        · next hnil => exact hleaf (by rw [hnil]; rfl) _
        · rfl
      · have hmarked : (((tree.valueAt? address).getD seg.node).mark seg).handler =
            (tree.valueAt? address).bind (·.handler) := by
          rw [mark_handler]
          cases tree.valueAt? address <;> rfl
        rw [Option.bind_some, ← hmarked]
        split
        · next hnil => exact hleaf (by rw [haddress, hnil]; simp) _
        · rfl

/-- The handler at the end of a walk. -/
theorem handlerAt_walk_end {handler : Option H} (hdistinct : tree.Distinct)
    (hleaf : ∀ node, (leaf node).handler = handler) :
    (walk placement leaf pattern tree).handlerAt (pattern.map Segment.part) = handler := by
  obtain ⟨node, hnode⟩ := exists_valueAt?_walk_end placement leaf pattern hdistinct
  rw [TrieNode.handlerAt, hnode, Option.bind_some, hleaf]

end

variable {placement : Placement Str (Node H M)} {errorHandler : M}
  {regs : List (Registration H M)} {router : Router H M}

/-- **A tree maps every address to the handler of the last route there**, whatever the patterns
and the mounts. -/
theorem Built.handlerAt_eq (hbuilt : Built placement errorHandler regs router) (method : Str) :
    ∀ address, (router.treeFor method).handlerAt address =
      (lastAt (routesOf method regs) address).bind (·.handler) := by
  refine hbuilt.treeFor_induction (P := fun regs tree => ∀ address, tree.handlerAt address =
    (lastAt (routesOf method regs) address).bind (·.handler)) ?_ ?_ ?_
  · intro address
    cases address with
    | nil => rfl
    | cons k address => rfl
  · intro regs reg tree hmethod hdistinct ih address
    cases reg with
    | mount path baseDir =>
        have hsame : routesOf method (regs ++ [.mount path baseDir]) = routesOf method regs := by
          simp [routesOf]
        rw [hsame, ← ih]
        exact handlerAt_walk hdistinct fun _ _ => rfl
    | route r =>
        rw [routesOf_append, if_pos (show r.method = method from hmethod), lastAt_append]
        split_ifs with haddress
        · rw [← haddress]
          exact handlerAt_walk_end hdistinct r.leaf_atEnd.handler
        · rw [← ih]
          exact handlerAt_walk hdistinct fun heq => absurd heq.symm haddress
  · intro regs reg tree hother ih address
    rw [ih]
    cases reg with
    | mount path baseDir => simp [routesOf]
    | route r =>
        rw [routesOf_append, if_neg (show ¬ r.method = method from hother), List.append_nil]

/-- A call that completes has read its path. -/
theorem exists_readPath_of_addRoute {router' : Router H M} {r : Route H M}
    (hadd : router.addRoute placement r = .ok router') (hroot : r.path ≠ ascii "/") :
    ∃ segments, readPath r.path = some segments := by
  rw [Router.addRoute] at hadd
  split_ifs at hadd
  cases hread : readPath r.path with
  | none =>
      rw [hread] at hadd
      cases hadd
  | some segments => exact ⟨segments, rfl⟩

/-- The test finds the handler that is replaced. -/
theorem Built.warnsOf_eq (hbuilt : Built placement errorHandler regs router) {r : Route H M}
    {segments : List Segment} (hsegments : readPath r.path = some segments)
    (hroot : r.path ≠ ascii "/") :
    router.warnsOf placement r =
      ((lastAt (routesOf r.method regs) r.address).bind (·.handler)).isSome := by
  have haddress : r.address = segments.map Segment.part := by
    rw [Route.address, Route.segments, hsegments, Option.getD_some]
  have hcurrent : (walk placement id segments (router.treeFor r.method)).handlerAt r.address =
      (router.treeFor r.method).handlerAt r.address :=
    handlerAt_walk (hbuilt.distinct r.method) fun _ _ => rfl
  rw [hbuilt.handlerAt_eq, TrieNode.handlerAt, haddress] at hcurrent
  rw [Router.warnsOf, if_neg hroot, hsegments, haddress]
  dsimp only
  rw [hcurrent]

/-- **When `add_route` warns.**  A call that completes puts its handler where the names of its
segments lead, and warns if and only if the last route there had one; only `/` replaces a handler
without a warning. -/
theorem Built.warnsOf_iff {router' : Router H M}
    (hbuilt : Built placement errorHandler regs router) {r : Route H M}
    (hadd : router.addRoute placement r = .ok router') :
    (∀ method address, (router'.treeFor method).handlerAt address =
      if method = r.method ∧ address = r.address then r.handler
      else (lastAt (routesOf method regs) address).bind (·.handler)) ∧
    (router.warnsOf placement r = true ↔ r.path ≠ ascii "/" ∧
      ∃ r', lastAt (routesOf r.method regs) r.address = some r' ∧ r'.handler.isSome) := by
  have hafter : Built placement errorHandler (regs ++ [.route r]) router' := .add hbuilt hadd
  refine ⟨fun method address => ?_, ?_⟩
  · rw [hafter.handlerAt_eq, routesOf_append]
    by_cases hmethod : r.method = method
    · rw [if_pos hmethod, lastAt_append]
      by_cases haddress : r.address = address
      · rw [if_pos haddress, if_pos ⟨hmethod.symm, haddress.symm⟩, Option.bind_some]
      · rw [if_neg haddress, if_neg fun h => haddress h.2.symm]
    · rw [if_neg hmethod, List.append_nil, if_neg fun h => hmethod h.1.symm]
  · by_cases hroot : r.path = ascii "/"
    · simp [Router.warnsOf, hroot]
    · obtain ⟨segments, hsegments⟩ := exists_readPath_of_addRoute hadd hroot
      rw [hbuilt.warnsOf_eq hsegments hroot]
      cases lastAt (routesOf r.method regs) r.address with
      | none => simp
      | some r' => simp [hroot]

/-- The handler of a wildcard. -/
def restRoute : Registration ℕ Unit := .route (getRoute "/items/*rest" 1)

/-- A parameter of the same name replaces it. -/
theorem warnsOf_iff_rest : ∃ router router' : Router ℕ Unit,
    (∀ method address, (router'.treeFor method).handlerAt address =
      if method = ascii "GET" ∧ address = [ascii "items", ascii "rest"] then some 2
      else (lastAt (routesOf method [restRoute]) address).bind (·.handler)) ∧
    router.warnsOf .last (getRoute "/items/:rest" 2) = true := by
  have hbuilt : Built .last () [restRoute] (.build .last () [restRoute]) := .add .construct rfl
  have hconflicts := hbuilt.warnsOf_iff (r := getRoute "/items/:rest" 2) rfl
  exact ⟨_, _, hconflicts.1, hconflicts.2.mpr ⟨by decide, getRoute "/items/*rest" 1, rfl, rfl⟩⟩

end GinCpp.Routing
