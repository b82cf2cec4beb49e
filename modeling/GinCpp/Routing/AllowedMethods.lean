import GinCpp.Routing.Predictability
import GinCpp.Routing.StaleParams

/-!
# Allowed methods

Where a path is not found for the method of a request, `match_route` asks the trees of the other
methods.  The methods it names are exactly those that would have been dispatched: a client that
tries again with one of them finds something, and one that tries any other does not
(`Built.allowedMethods_exact`).
-/

namespace GinCpp.Routing

open Http KeyedTree RouteMatcher

variable {H M : Type}

/-- Something is found for the request. -/
def Dispatch.isFound : Dispatch H M → Bool
  | .staticFiles _ => true
  | .route _ => true
  | .otherMethods _ => false
  | .notFound => false

variable {lib : Library H M} {root : TrieNode H M} {router : Router H M} {request : Request}
  {params : Params}

/-- Whether there is a match does not depend on the parameters before. -/
theorem RouteMatcher.isSome_matchRoute_params (path : Str) (params params' : Params) :
    (matchRoute lib root path params).1.isSome = (matchRoute lib root path params').1.isSome := by
  by_cases hfound : findMatches lib.regex (splitPath path) [] root = []
  · unfold matchRoute
    simp only [sort_eq_nil.mpr hfound]
    split_ifs <;> rfl
  · rw [matchRoute_eq_of_found hfound params params']

namespace Router

theorem isFound_matchRoute (params : Params) :
    (router.matchRoute lib request params).1.isFound =
      (RouteMatcher.matchRoute lib (router.treeFor (effectiveMethod request)) request.getPath
        fun _ => none).1.isSome := by
  rw [← isSome_matchRoute_params request.getPath params, ← lookup_eq]
  unfold matchRoute
  dsimp only
  cases router.lookup lib (effectiveMethod request) request.getPath params with
  | mk found params' =>
      cases found with
      | some found =>
          dsimp only
          split_ifs <;> rfl
      | none =>
          dsimp only
          split_ifs <;> rfl

/-- The two exits where nothing is found. -/
theorem matchRoute_of_not_isFound (h : (router.matchRoute lib request params).1.isFound = false) :
    (router.matchRoute lib request params).1 =
      let others := router.trees.filter fun (treeMethod, tree) =>
        treeMethod ≠ effectiveMethod request ∧
          (RouteMatcher.matchRoute lib tree request.getPath fun _ => none).1.isSome
      if others.isEmpty then .notFound else .otherMethods (others.map Prod.fst) := by
  unfold matchRoute at h ⊢
  dsimp only at h ⊢
  cases hlookup : router.lookup lib (effectiveMethod request) request.getPath params with
  | mk found params' =>
      rw [hlookup] at h
      cases found with
      | some found =>
          dsimp only at h
          split_ifs at h <;> cases h
      | none =>
          dsimp only
          split_ifs <;> rfl

end Router

/-- The methods of the requests for a path that are dispatched. -/
def AllowedExactly (lib : Library H M) (router : Router H M) (path : Str) (methods : List Str) :
    Prop :=
  ∀ request params, request.getPath = path →
    ((router.matchRoute lib request params).1.isFound ↔ effectiveMethod request ∈ methods)

/-- **The methods named are those allowed**: each once, and none where nothing is found. -/
theorem Built.allowedMethods_exact {placement : Placement Str (Node H M)} {errorHandler : M}
    {regs : List (Registration H M)} (hbuilt : Built placement errorHandler regs router)
    (lib : Library H M) (request : Request) (params : Params) :
    match (router.matchRoute lib request params).1 with
    | .otherMethods methods =>
        methods ≠ [] ∧ methods.Nodup ∧ AllowedExactly lib router request.getPath methods
    | .notFound => AllowedExactly lib router request.getPath []
    | _ => True := by
  cases hfound : (router.matchRoute lib request params).1.isFound with
  | true =>
      revert hfound
      cases (router.matchRoute lib request params).1 <;> simp [Dispatch.isFound]
  | false =>
      -- the method of the request itself is not among those of the other trees
      have hother : ∀ method,
          method ∈ (router.trees.filter fun (treeMethod, tree) =>
            treeMethod ≠ effectiveMethod request ∧ (RouteMatcher.matchRoute lib tree
              request.getPath fun _ => none).1.isSome).map Prod.fst ↔
          (RouteMatcher.matchRoute lib (router.treeFor method) request.getPath
            fun _ => none).1.isSome := by
        intro method
        rw [Router.mem_otherMethods_iff hbuilt.nodup_trees]
        refine and_iff_right_of_imp fun hsome heq => ?_
        rw [heq, ← Router.isFound_matchRoute params, hfound] at hsome
        cases hsome
      have hexact : AllowedExactly lib router request.getPath
          ((router.trees.filter fun (treeMethod, tree) =>
            treeMethod ≠ effectiveMethod request ∧ (RouteMatcher.matchRoute lib tree
              request.getPath fun _ => none).1.isSome).map Prod.fst) := by
        intro request' params' hpath
        rw [hother, Router.isFound_matchRoute, hpath]
      rw [Router.matchRoute_of_not_isFound hfound]
      dsimp only
      split_ifs with hempty
      · rw [List.isEmpty_iff.mp hempty] at hexact
        exact hexact
      · refine ⟨fun hnil => hempty ?_, ?_, hexact⟩
        · rw [List.map_eq_nil_iff] at hnil
          rw [hnil]
          rfl
        · exact hbuilt.nodup_trees.sublist (List.filter_sublist.map _)

/-- A user can be read and changed. -/
def userMethods : List (Registration ℕ Unit) :=
  [.route (getRoute "/users/:id" 0),
    .route { getRoute "/users/:id" 1 with method := ascii "POST" }]

/-- A request to delete a user is told that it can be read and changed. -/
theorem allowedMethods_user :
    AllowedExactly (.stable digits) (.build .last () userMethods) (ascii "/users/5")
      [ascii "GET", ascii "POST"] := by
  have hbuilt : Built .last () userMethods (.build .last () userMethods) :=
    .add (.add .construct rfl) rfl
  have hexact := hbuilt.allowedMethods_exact (.stable digits)
    { getOf "/users/5" with method := ascii "DELETE" } fun _ => none
  exact hexact.2.2

end GinCpp.Routing
