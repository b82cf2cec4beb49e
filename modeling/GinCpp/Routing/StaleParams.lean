import GinCpp.Routing.Completeness
import GinCpp.Routing.Params

/-!
# The caller's parameters

`match` clears the map that it is given, but not at the exit for the catch-all, which comes first.
There the parameters afterwards are those of the caller: of an earlier request, say.
-/

namespace GinCpp.Routing

open Http KeyedTree RouteMatcher

variable {H M : Type} {lib : Library H M} {root : TrieNode H M} {path : Str}

/-- Where something is found the map is cleared. -/
theorem RouteMatcher.matchRoute_eq_of_found
    (h : findMatches lib.regex (splitPath path) [] root ≠ []) (params params' : Params) :
    matchRoute lib root path params = matchRoute lib root path params' := by
  unfold matchRoute
  dsimp only
  split
  · next hsort => exact absurd (sort_eq_nil.mp hsort) h
  · rfl

theorem RouteMatcher.matchRoute_params_of_not_found
    (h : findMatches lib.regex (splitPath path) [] root = []) (params : Params) :
    (matchRoute lib root path params).2 = params := by
  unfold matchRoute
  dsimp only
  rw [sort_eq_nil.mpr h]
  dsimp only
  split_ifs
  · rfl
  · rfl

/-- The parameters after a call do not depend on those before it. -/
def FreshParams (lib : Library H M) (router : Router H M) (request : Request) : Prop :=
  ∀ params params', (router.matchRoute lib request params).2 =
    (router.matchRoute lib request params').2

/-- The path leads to a node of the tree of the method that the search pushes. -/
def Finds (regex : Regex) (router : Router H M) (request : Request) : Prop :=
  ∃ address node, Candidate regex (router.treeFor (effectiveMethod request))
    (splitPath request.getPath) address node

/-- **No stale parameters**, if and only if the request is not left to the catch-all. -/
theorem Built.freshParams_iff {placement : Placement Str (Node H M)} {errorHandler : M}
    {regs : List (Registration H M)} {router : Router H M}
    (hbuilt : Built placement errorHandler regs router) (lib : Library H M) (request : Request) :
    FreshParams lib router request ↔ Finds lib.regex router request := by
  have hfinds : Finds lib.regex router request ↔ findMatches lib.regex (splitPath request.getPath)
      [] (router.treeFor (effectiveMethod request)) ≠ [] := by
    rw [Finds, ← List.isEmpty_eq_false_iff, List.isEmpty_eq_false_iff_exists_mem]
    constructor
    · rintro ⟨address, found, hcandidate⟩
      exact ⟨⟨address, found⟩, (mem_findMatches_iff_candidate (hbuilt.distinct _)).mpr
        ⟨address, rfl, hcandidate⟩⟩
    · rintro ⟨m, hm⟩
      obtain ⟨below, -, hcandidate⟩ :=
        (mem_findMatches_iff_candidate (hbuilt.distinct _)).mp hm
      exact ⟨below, m.node, hcandidate⟩
  rw [hfinds, FreshParams]
  constructor
  · -- the catch-all leaves two different maps as they are
    intro hfresh hempty
    have hsame := hfresh (fun _ => none) fun _ => some []
    rw [Router.matchRoute_params, Router.matchRoute_params, Router.lookup_eq, Router.lookup_eq,
      matchRoute_params_of_not_found hempty, matchRoute_params_of_not_found hempty] at hsame
    cases congrFun hsame []
  · intro hfound params params'
    rw [Router.matchRoute_params, Router.matchRoute_params, Router.lookup_eq, Router.lookup_eq,
      matchRoute_eq_of_found hfound params params']

/-- A user, and a catch-all. -/
def userRoutes : List (Registration ℕ Unit) :=
  [.route (getRoute "/users/:id" 0), .route (getRoute "/" 1)]

theorem freshParams_user_iff :
    Built .last () userRoutes (.build .last () userRoutes) ∧
      (FreshParams (.stable digits) (.build .last () userRoutes) (getOf "/users/5") ↔
        Finds digits (.build .last () userRoutes) (getOf "/users/5")) := by
  have hbuilt : Built .last () userRoutes (.build .last () userRoutes) :=
    .add (.add .construct rfl) rfl
  exact ⟨hbuilt, hbuilt.freshParams_iff (.stable digits) (getOf "/users/5")⟩

/-- A page that is not there is dispatched to the catch-all with the id of another request. -/
theorem not_freshParams_page :
    Built .last () userRoutes (.build .last () userRoutes) ∧
      (∃ node, ((Router.build .last () userRoutes).matchRoute (.stable digits) (getOf "/about")
        fun _ => none).1 = .route node) ∧
      ¬ FreshParams (.stable digits) (.build .last () userRoutes) (getOf "/about") := by
  refine ⟨.add (.add .construct rfl) rfl, ⟨_, rfl⟩, fun hfresh => ?_⟩
  have hid := congrFun (hfresh (fun _ => none) fun _ => some (ascii "5")) (ascii "id")
  revert hid
  decide

end GinCpp.Routing
