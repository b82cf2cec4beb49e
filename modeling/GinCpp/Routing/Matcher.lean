import GinCpp.Routing.Trie
import Mathlib.Data.List.Sort

/-!
# The route matcher

`RouteMatcher::match`.  `findMatches` collects every node that can be reached with the segments
of a path, a node of the highest priority is picked, and `recalculateParams` searches for that
node again, filling in the parameters.  A pointer to a node is its address, the keys on the way
from the root.

The parameters that `find_matches` hands down are never read and are left out.
-/

namespace GinCpp.Routing

variable {H M : Type}

/-- A pointer to a node and what it points to. -/
structure Match (H M : Type) where
  address : List Str
  node : Node H M

/-- What the matcher uses of the standard library: `std::regex_match` on a compiled pattern, and
`std::sort` with the higher priority first. -/
structure Library (H M : Type) where
  regex : Regex
  sort : List (Match H M) → List (Match H M)
  sort_perm : ∀ matchList, (sort matchList).Perm matchList
  sort_sorted : ∀ matchList,
    (sort matchList).Pairwise fun a b => b.node.priority ≤ a.node.priority

/-- A library whose sort is stable. -/
def Library.stable (regex : Regex) : Library H M where
  regex
  sort := List.insertionSort fun a b => b.node.priority ≤ a.node.priority
  sort_perm := List.perm_insertionSort _
  sort_sorted matchList := by
    have : Std.Total fun a b : Match H M => b.node.priority ≤ a.node.priority :=
      ⟨fun a b => Int.le_total b.node.priority a.node.priority⟩
    have : IsTrans (Match H M) fun a b => b.node.priority ≤ a.node.priority :=
      ⟨fun _ _ _ hab hbc => hbc.trans hab⟩
    exact List.pairwise_insertionSort _ matchList

namespace RouteMatcher

variable (regex : Regex)

/-- `find_matches` with no segment left. -/
def arrive (address : List Str) (current : TrieNode H M) : List (Match H M) :=
  if current.value.isStaticFiles then [⟨address, current.value⟩]
  else
    (if current.value.handler.isSome then [⟨address, current.value⟩] else []) ++
      current.children.flatMap fun (key, val) =>
        if val.value.isOptional && val.value.handler.isSome then
          [⟨address ++ [key], val.value⟩] else []

/-- `find_matches`: the nodes in the order in which they are pushed. -/
def findMatches : List Str → List Str → TrieNode H M → List (Match H M)
  | [], address, current => arrive address current
  | seg :: segments, address, current =>
      if current.value.isStaticFiles then [⟨address, current.value⟩]
      else
        (match current.child? seg with
          | some child => findMatches segments (address ++ [seg]) child
          | none => []) ++
          current.children.flatMap fun (key, val) =>
            match val.value.type with
            | .parameter => findMatches segments (address ++ [key]) val
            | .wildcard => arrive (address ++ [key]) val
            | .regex =>
                if regex val.value.regexPattern seg = some true then
                  findMatches segments (address ++ [key]) val
                else []
            | .static => []

/-- A child in the loop of `recalculate_params`, `below` being the recursive call. -/
def recalculateChild (seg : Str) (segments : List Str) (isBest : Bool) (val : Node H M)
    (out : Params) (below : Option Params) : Option Params :=
  match val.type with
  | .parameter => below.map fun params => Function.update params val.part (some seg)
  | .wildcard =>
      if isBest then some (Function.update out val.part (some (joinPath (seg :: segments))))
      else none
  | .regex =>
      if regex val.regexPattern seg = some true then
        below.map fun params => Function.update params val.part (some seg)
      else none
  | .static => none

/-- `recalculate_params`: the parameters if it returns `true`. -/
def recalculateParams (best : List Str) :
    List Str → List Str → TrieNode H M → Params → Option Params
  | [], address, _, out => if address = best then some out else none
  | seg :: segments, address, current, out =>
      ((current.child? seg).bind fun child =>
          recalculateParams best segments (address ++ [seg]) child out) <|>
        current.children.findSome? fun (key, val) =>
          recalculateChild regex seg segments (address ++ [key] = best) val.value out
            (recalculateParams best segments (address ++ [key]) val out)

/-- The default of an optional parameter that was not bound. -/
def addDefault (node : Node H M) (params : Params) : Params :=
  if node.isOptional && !node.defaultValue.isEmpty && (params node.part).isNone then
    Function.update params node.part (some node.defaultValue)
  else params

end RouteMatcher

open RouteMatcher in
/-- `RouteMatcher::match`: the node, if there is one, and the parameters afterwards. -/
def RouteMatcher.matchRoute (lib : Library H M) (root : TrieNode H M) (path : Str)
    (params : Params) : Option (Match H M) × Params :=
  let segments := splitPath path
  match lib.sort (findMatches lib.regex segments [] root) with
  | [] => if root.value.isCatchAll then (some ⟨[], root.value⟩, params) else (none, params)
  | best :: _ =>
      let cleared : Params := fun _ => none
      let recalculated := (recalculateParams lib.regex best.address segments [] root cleared).getD
        cleared
      (some best, addDefault best.node recalculated)

end GinCpp.Routing
