import GinCpp.Routing.Contenders
import GinCpp.Routing.Naming
import Mathlib.Data.Finset.Insert

/-!
# Predictable matching

Neither the order of the registrations, nor that of the children of a node, nor what `std::sort`
does with equal priorities should be seen in a match.  It is seen where two of the routes that
contend for a path differ in their handlers or parameters, and nowhere else: `predictable_iff`.
-/

namespace GinCpp.Routing

open Http KeyedTree RouteMatcher

variable {H M : Type} {regex : Regex} {regs : List (Registration H M)}

/-! ## Arrangements -/

/-- The handler of a `MatchResult`, without the node it is in.  The methods that are allowed are
listed in no particular order. -/
inductive Choice (H : Type)
  | staticFiles (baseDir : Str)
  | handler (handler : Option H)
  | otherMethods (allowedMethods : Finset Str)
  | notFound
  deriving DecidableEq

def Dispatch.choice : Dispatch H M → Choice H
  | .staticFiles baseDir => .staticFiles baseDir
  | .route node => .handler node.handler
  | .otherMethods allowedMethods => .otherMethods allowedMethods.toFinset
  | .notFound => .notFound

/-- What some registrations leave open: their order, the iteration order of the children, and the
sort.  What `std::regex` matches is given. -/
structure Arrangement (regex : Regex) (regs : List (Registration H M)) where
  placement : Placement Str (Node H M)
  errorHandler : M
  order : List (Registration H M)
  perm : order.Perm regs
  router : Router H M
  built : Built placement errorHandler order router
  lib : Library H M
  regex_eq : lib.regex = regex

/-- The handler that is chosen and the parameters. -/
def Arrangement.matchRoute (a : Arrangement regex regs) (request : Request) (params : Params) :
    Choice H × Params :=
  let (dispatch, params) := a.router.matchRoute a.lib request params
  (dispatch.choice, params)

/-- **Matching is predictable.** -/
def Predictable (regex : Regex) (regs : List (Registration H M)) (request : Request)
    (params : Params) : Prop :=
  ∀ a b : Arrangement regex regs, a.matchRoute request params = b.matchRoute request params

/-- Calls that register routes and mount nothing; the routes of each method are settled. -/
structure Ordinary (regs : List (Registration H M)) : Prop where
  routesOnly : RoutesOnly regs
  handler : ∀ r, .route r ∈ regs → r.handler.isSome
  priority : ∀ r, .route r ∈ regs → r.priority = 0
  noClash : ∀ method, NoClash (routesOf method regs)

/-- The routes that contend for a path have the same handler and record the same parameters. -/
def Agreed (regex : Regex) (routes : List (Route H M)) (segments : List Str) (params : Params) :
    Prop :=
  ∀ r r', Contends regex routes segments r → Contends regex routes segments r' →
    r.handler = r'.handler ∧ r.outcome regex segments params = r'.outcome regex segments params

theorem mem_routesOf {method : Str} {r : Route H M} :
    r ∈ routesOf method regs ↔ .route r ∈ regs ∧ r.method = method := by
  rw [routesOf, List.mem_filterMap]
  constructor
  · rintro ⟨reg, hreg, hr⟩
    cases reg with
    | mount path baseDir => cases hr
    | route q =>
        simp only [Option.ite_none_right_eq_some, Option.some_inj] at hr
        obtain ⟨hmethod, rfl⟩ := hr
        exact ⟨hreg, hmethod⟩
  · rintro ⟨hreg, hmethod⟩
    exact ⟨.route r, hreg, if_pos hmethod⟩

theorem Ordinary.of_perm {regs' : List (Registration H M)} (h : Ordinary regs)
    (hperm : regs'.Perm regs) : Ordinary regs' where
  routesOnly reg hreg := h.routesOnly reg (hperm.mem_iff.mp hreg)
  handler r hr := h.handler r (hperm.mem_iff.mp hr)
  priority r hr := h.priority r (hperm.mem_iff.mp hr)
  noClash method r hr r' hr' :=
    h.noClash method r ((hperm.filterMap _).mem_iff.mp hr) r' ((hperm.filterMap _).mem_iff.mp hr')

/-! ## The trees of a router -/

namespace Router

variable {router : Router H M} {method : Str}

theorem nodup_setTree (tree : TrieNode H M) (h : (router.trees.map Prod.fst).Nodup) :
    ((router.setTree method tree).trees.map Prod.fst).Nodup := by
  unfold setTree
  dsimp only
  split_ifs with hold
  · have hkeys : (router.trees.map fun kv => if kv.1 = method then (method, tree) else kv).map
        Prod.fst = router.trees.map Prod.fst := by
      rw [List.map_map]
      apply List.map_congr_left
      intro kv hkv
      rw [Function.comp_apply]
      split_ifs with hkey
      · exact hkey.symm
      · rfl
    rwa [hkeys]
  · rw [List.map_append, List.nodup_append]
    refine ⟨h, List.nodup_singleton _, ?_⟩
    intro key hkey key' hkey' heq
    obtain rfl : key' = method := by simpa using hkey'
    obtain ⟨kv, hkv, rfl⟩ := List.mem_map.mp hkey
    rw [tree?, Option.isSome_map, List.find?_isSome] at hold
    exact hold ⟨kv, hkv, by simpa using heq⟩

theorem nodup_add {placement : Placement Str (Node H M)} {router' : Router H M}
    {reg : Registration H M} (hadd : router.add placement reg = .ok router')
    (h : (router.trees.map Prod.fst).Nodup) : (router'.trees.map Prod.fst).Nodup := by
  cases reg with
  | mount path baseDir =>
      obtain rfl := Except.ok.inj hadd
      exact nodup_setTree _ h
  | route r =>
      have hnamed : ((router.nameRoute r).trees.map Prod.fst).Nodup := by
        rwa [trees_nameRoute]
      simp only [add, addRoute] at hadd
      split_ifs at hadd with htaken hroot
      · obtain rfl := Except.ok.inj hadd
        exact nodup_setTree _ hnamed
      · split at hadd
        · cases hadd
        · obtain rfl := Except.ok.inj hadd
          exact nodup_setTree _ hnamed

theorem treeFor_of_mem {tree : TrieNode H M} (hnodup : (router.trees.map Prod.fst).Nodup)
    (hmem : (method, tree) ∈ router.trees) : router.treeFor method = tree := by
  have hsome : (router.trees.find? (·.1 = method)).isSome := by
    rw [List.find?_isSome]
    exact ⟨_, hmem, by simp⟩
  obtain ⟨kv, hkv⟩ := Option.isSome_iff_exists.mp hsome
  have hkey : kv.1 = method := by simpa using List.find?_some hkv
  have hsame : kv = (method, tree) :=
    List.inj_on_of_nodup_map hnodup (List.mem_of_find?_eq_some hkv) hmem hkey
  rw [treeFor, tree?, hkv, hsame]
  rfl

theorem mem_trees_of_tree? {tree : TrieNode H M} (h : router.tree? method = some tree) :
    (method, tree) ∈ router.trees := by
  obtain ⟨kv, hkv, rfl⟩ := Option.map_eq_some_iff.mp h
  have hkey : kv.1 = method := by simpa using List.find?_some hkv
  exact hkey ▸ List.mem_of_find?_eq_some hkv

/-- The methods with a match are those of the trees with a match. -/
theorem mem_otherMethods_iff (hnodup : (router.trees.map Prod.fst).Nodup) {lib : Library H M}
    {path method' : Str} :
    method' ∈ (router.trees.filter fun (treeMethod, tree) => treeMethod ≠ method ∧
        (RouteMatcher.matchRoute lib tree path fun _ => none).1.isSome).map Prod.fst ↔
      method' ≠ method ∧
        (RouteMatcher.matchRoute lib (router.treeFor method') path fun _ => none).1.isSome := by
  rw [List.mem_map]
  constructor
  · rintro ⟨⟨treeMethod, tree⟩, hmem, rfl⟩
    obtain ⟨hmem, hmatch⟩ := List.mem_filter.mp hmem
    rw [treeFor_of_mem hnodup hmem]
    simpa using hmatch
  · rintro ⟨hne, hmatch⟩
    cases htree : router.tree? method' with
    | none =>
        rw [treeFor, htree, Option.getD_none, matchRoute_root] at hmatch
        cases hmatch
    | some tree =>
        rw [treeFor, htree, Option.getD_some] at hmatch
        refine ⟨(method', tree), List.mem_filter.mpr ⟨mem_trees_of_tree? htree, ?_⟩, rfl⟩
        simpa using ⟨hne, hmatch⟩

end Router

theorem Built.nodup_trees {placement : Placement Str (Node H M)} {errorHandler : M}
    {router : Router H M} (hbuilt : Built placement errorHandler regs router) :
    (router.trees.map Prod.fst).Nodup := by
  induction hbuilt with
  | construct => exact List.nodup_nil
  | use middleware hbuilt ih => exact ih
  | add hbuilt hadd ih => exact Router.nodup_add hadd ih

/-! ## The match of an arrangement -/

section Match

variable {request : Request} {params : Params} {r : Route H M}

theorem Ordinary.settled (h : Ordinary regs) (method : Str) :
    Settled (routesOf method regs) where
  noClash := h.noClash method
  priority r hr := h.priority r (mem_routesOf.mp hr).1
  handler r hr := h.handler r (mem_routesOf.mp hr).1

namespace Arrangement

variable (a : Arrangement regex regs)

theorem mem_routesOf_order (method : Str) (r : Route H M) :
    r ∈ routesOf method a.order ↔ r ∈ routesOf method regs :=
  (a.perm.filterMap _).mem_iff

theorem treeFor_eq_grown (hordinary : Ordinary regs) (method : Str) :
    a.router.treeFor method = grown a.placement (routesOf method a.order) :=
  a.built.treeFor_eq_grown fun reg hreg _ => (hordinary.of_perm a.perm).routesOnly reg hreg

theorem contends_order_iff (method : Str) (segments : List Str) (r : Route H M) :
    Contends a.lib.regex (routesOf method a.order) segments r ↔
      Contends regex (routesOf method regs) segments r := by
  rw [a.regex_eq]
  exact contends_congr (a.mem_routesOf_order method)

/-- There is a match for a method if and only if a route contends. -/
theorem isSome_matchRoute_iff (hordinary : Ordinary regs) (method path : Str) (params : Params) :
    (RouteMatcher.matchRoute a.lib (a.router.treeFor method) path params).1.isSome ↔
      ∃ r, Contends regex (routesOf method regs) (splitPath path) r := by
  have hordinary' := hordinary.of_perm a.perm
  simp only [← a.contends_order_iff]
  rw [a.treeFor_eq_grown hordinary]
  constructor
  · intro hsome
    by_contra hnone
    rw [not_exists, ← matchRoute_eq_none_iff a.placement params (hordinary'.settled method)]
      at hnone
    rw [hnone] at hsome
    cases hsome
  · rintro ⟨r, hr⟩
    rw [Option.isSome_iff_exists]
    exact exists_match_of_contends a.placement params (hordinary'.settled method) hr

theorem matchRoute_of_some {found : Match H M} {params' : Params}
    (hfound : RouteMatcher.matchRoute a.lib (a.router.treeFor (effectiveMethod request))
      request.getPath params = (some found, params'))
    (hmount : found.node.isStaticFiles = false) :
    a.matchRoute request params = (.handler found.node.handler, params') := by
  rw [matchRoute, Router.matchRoute, Router.lookup_eq, hfound]
  simp only [hmount, Bool.false_eq_true, if_false]
  rfl

/-- With no match the choice depends on the methods that are allowed. -/
theorem exists_matchRoute_of_none (hordinary : Ordinary regs)
    (hnone : RouteMatcher.matchRoute a.lib (a.router.treeFor (effectiveMethod request))
      request.getPath params = (none, params)) :
    ∃ allowed : Finset Str, (∀ method, method ∈ allowed ↔ method ≠ effectiveMethod request ∧
        ∃ r, Contends regex (routesOf method regs) (splitPath request.getPath) r) ∧
      a.matchRoute request params =
        (if allowed = ∅ then .notFound else .otherMethods allowed, params) := by
  refine ⟨List.toFinset ((a.router.trees.filter fun (treeMethod, tree) =>
    treeMethod ≠ effectiveMethod request ∧ (RouteMatcher.matchRoute a.lib tree
      request.getPath fun _ => none).1.isSome).map Prod.fst), fun method => ?_, ?_⟩
  · rw [List.mem_toFinset, Router.mem_otherMethods_iff a.built.nodup_trees,
      a.isSome_matchRoute_iff hordinary]
  · rw [matchRoute, Router.matchRoute, Router.lookup_eq, hnone]
    simp only [List.toFinset_eq_empty_iff, List.map_eq_nil_iff, List.isEmpty_iff]
    split_ifs <;> rfl

/-- **What an arrangement matches**: a contender that is the last of its node. -/
theorem exists_contends (hordinary : Ordinary regs) {found : Match H M} {params' : Params}
    (hfound : RouteMatcher.matchRoute a.lib (a.router.treeFor (effectiveMethod request))
      request.getPath params = (some found, params')) :
    ∃ r, Contends regex (routesOf (effectiveMethod request) regs) (splitPath request.getPath) r ∧
      lastAt (routesOf (effectiveMethod request) a.order) r.address = some r ∧
      found.address = r.address ∧ a.matchRoute request params =
        (.handler r.handler, r.outcome regex (splitPath request.getPath) params) := by
  have hordinary' := hordinary.of_perm a.perm
  have hgrown := hfound
  rw [a.treeFor_eq_grown hordinary] at hgrown
  obtain ⟨r, hr, hlast, haddress, hhandler, hmount, rfl⟩ :=
    Routing.exists_contends (hordinary'.settled _) hgrown
  refine ⟨r, (a.contends_order_iff _ _ r).mp hr, hlast, haddress, ?_⟩
  rw [a.matchRoute_of_some hfound hmount, hhandler, a.regex_eq]

end Arrangement

end Match

/-! ## When matching is predictable -/

section Predictable

variable {request : Request} {params : Params}

/-- Routes that agree are matched alike by all arrangements. -/
theorem predictable_of_agreed (hordinary : Ordinary regs)
    (hagreed : Agreed regex (routesOf (effectiveMethod request) regs)
      (splitPath request.getPath) params) : Predictable regex regs request params := by
  intro a b
  generalize hfoundA : RouteMatcher.matchRoute a.lib
    (a.router.treeFor (effectiveMethod request)) request.getPath params = resultA
  generalize hfoundB : RouteMatcher.matchRoute b.lib
    (b.router.treeFor (effectiveMethod request)) request.getPath params = resultB
  have hboth : resultA.1.isSome ↔ resultB.1.isSome := by
    rw [← hfoundA, ← hfoundB, a.isSome_matchRoute_iff hordinary, b.isSome_matchRoute_iff hordinary]
  obtain ⟨foundA, paramsA⟩ := resultA
  obtain ⟨foundB, paramsB⟩ := resultB
  cases foundA with
  | some foundA =>
      obtain ⟨foundB, rfl⟩ := Option.isSome_iff_exists.mp (hboth.mp rfl)
      obtain ⟨r, hr, -, -, hresult⟩ := a.exists_contends hordinary hfoundA
      obtain ⟨r', hr', -, -, hresult'⟩ := b.exists_contends hordinary hfoundB
      obtain ⟨hhandler, houtcome⟩ := hagreed r r' hr hr'
      rw [hresult, hresult', hhandler, houtcome]
  | none =>
      obtain rfl : foundB = none := by
        rw [← Option.not_isSome_iff_eq_none, ← hboth]
        simp
      obtain rfl := params_eq_of_matchRoute_none hfoundA
      obtain rfl := params_eq_of_matchRoute_none hfoundB
      obtain ⟨allowed, hallowed, hresult⟩ := a.exists_matchRoute_of_none hordinary hfoundA
      obtain ⟨allowed', hallowed', hresult'⟩ := b.exists_matchRoute_of_none hordinary hfoundB
      obtain rfl : allowed = allowed' := by
        ext method
        rw [hallowed, hallowed']
      rw [hresult, hresult']

/-- **Any contender is matched by some arrangement**, that which registers it last and sorts its
node to the front. -/
theorem Built.exists_arrangement {placement : Placement Str (Node H M)} {errorHandler : M}
    {router : Router H M} (hbuilt : Built placement errorHandler regs router) (params : Params)
    (hordinary : Ordinary regs) {r : Route H M}
    (hr : Contends regex (routesOf (effectiveMethod request) regs) (splitPath request.getPath) r) :
    ∃ a : Arrangement regex regs, a.matchRoute request params =
      (.handler r.handler, r.outcome regex (splitPath request.getPath) params) := by
  obtain ⟨hreg, hmethod⟩ := mem_routesOf.mp hr.1
  obtain ⟨before, after, rfl⟩ := List.append_of_mem hreg
  have hperm : (before ++ after ++ [Registration.route r]).Perm (before ++ .route r :: after) := by
    rw [List.append_assoc]
    exact (List.perm_append_singleton _ _).append_left before
  obtain ⟨router', hbuilt'⟩ := hbuilt.exists_of_perm hperm
  let a : Arrangement regex (before ++ .route r :: after) :=
    { placement, errorHandler, order := before ++ after ++ [.route r], perm := hperm,
      router := router', built := hbuilt', lib := .favouring regex r.address, regex_eq := rfl }
  refine ⟨a, ?_⟩
  have hlast : lastAt (routesOf (effectiveMethod request) a.order) r.address = some r := by
    change lastAt (routesOf _ (before ++ after ++ [Registration.route r])) r.address = some r
    rw [routesOf_append, if_pos hmethod, lastAt_append, if_pos rfl]
  generalize hfound : RouteMatcher.matchRoute a.lib
    (a.router.treeFor (effectiveMethod request)) request.getPath params = result
  obtain ⟨found, params'⟩ := result
  have hsome : found.isSome := by
    have hmatch := (a.isSome_matchRoute_iff hordinary _ _ params).mpr ⟨r, hr⟩
    rwa [hfound] at hmatch
  obtain ⟨found, rfl⟩ := Option.isSome_iff_exists.mp hsome
  obtain ⟨q, hq, hlastq, haddress, hresult⟩ := a.exists_contends hordinary hfound
  -- what is found is at the node of the route, of which it is the last
  have hsame : q.address = r.address := by
    have hordinary' := hordinary.of_perm hperm
    rw [a.treeFor_eq_grown hordinary] at hfound
    rw [← haddress]
    exact address_of_matchRoute_favouring (hordinary'.settled _)
      ((a.contends_order_iff _ _ r).mpr hr) hfound
  rw [hsame, hlast] at hlastq
  obtain rfl := Option.some_inj.mp hlastq
  exact hresult

/-- **When matching is predictable.** -/
theorem Built.predictable_iff {placement : Placement Str (Node H M)} {errorHandler : M}
    {router : Router H M} (hbuilt : Built placement errorHandler regs router)
    (hordinary : Ordinary regs) (regex : Regex) (request : Request) (params : Params) :
    Predictable regex regs request params ↔
      Agreed regex (routesOf (effectiveMethod request) regs) (splitPath request.getPath)
        params := by
  refine ⟨fun hpredictable r r' hr hr' => ?_, predictable_of_agreed hordinary⟩
  obtain ⟨a, ha⟩ := hbuilt.exists_arrangement params hordinary hr
  obtain ⟨b, hb⟩ := hbuilt.exists_arrangement params hordinary hr'
  have hsame := ha.symm.trans ((hpredictable a b).trans hb)
  exact ⟨Choice.handler.inj (Prod.mk.inj hsame).1, (Prod.mk.inj hsame).2⟩

end Predictable

theorem Ordinary.of_noClash {routes : List (Route H M)} (hclash : NoClash routes)
    (hroutes : ∀ r ∈ routes, r.handler.isSome ∧ r.priority = 0) :
    Ordinary (routes.map .route) := by
  have hmem : ∀ r, Registration.route r ∈ routes.map .route → r ∈ routes := by
    intro r hr
    obtain ⟨q, hq, hsame⟩ := List.mem_map.mp hr
    exact Registration.route.inj hsame ▸ hq
  refine ⟨fun reg hreg => ?_, fun r hr => (hroutes r (hmem r hr)).1,
    fun r hr => (hroutes r (hmem r hr)).2, fun method r hr r' hr' => ?_⟩
  · obtain ⟨r, -, rfl⟩ := List.mem_map.mp hreg
    exact ⟨r, rfl⟩
  · exact hclash r (hmem r (mem_routesOf.mp hr).1) r' (hmem r' (mem_routesOf.mp hr').1)

/-- A user, and the user who asks. -/
def users : List (Route ℕ Unit) := [getRoute "/users/:id" 0, getRoute "/users/me" 1]

/-- Two parameters in the same place. -/
def rivals : List (Route ℕ Unit) := [getRoute "/:a/x" 0, getRoute "/:b/x" 1]

/-- A static segment goes before a parameter. -/
theorem predictable_me :
    Predictable digits (users.map .route) (getOf "/users/me") fun _ => none := by
  have hbuilt : Built .last () (users.map .route) (.build .last () (users.map .route)) :=
    .add (.add .construct rfl) rfl
  refine (Built.predictable_iff hbuilt (.of_noClash (by decide) (by decide)) digits
    (getOf "/users/me") fun _ => none).mpr ?_
  have hme : Reached digits false (getRoute "/users/me" 1).segments
      (splitPath (ascii "/users/me")) := by decide
  have hone : ∀ r, Contends digits users (splitPath (ascii "/users/me")) r →
      r = getRoute "/users/me" 1 := by
    rintro r ⟨hr, hreached⟩
    rcases List.mem_pair.mp hr with rfl | rfl
    · rcases hreached with ⟨-, hrank⟩ | ⟨hnone, -⟩
      · exact absurd (hrank _ (List.mem_pair.mpr (Or.inr rfl)) hme) (by decide)
      · exact absurd hme (hnone _ (List.mem_pair.mpr (Or.inr rfl)))
    · rfl
  intro r r' hr hr'
  rw [hone r hr, hone r' hr']
  exact ⟨rfl, rfl⟩

/-- The order of the registrations is seen. -/
theorem not_predictable_rivals :
    Ordinary (rivals.map .route) ∧
      ¬ Predictable digits (rivals.map .route) (getOf "/q/x") fun _ => none := by
  refine ⟨.of_noClash (by decide) (by decide), fun hpredictable => ?_⟩
  have hbuilt : Built .last () (rivals.map .route) (.build .last () (rivals.map .route)) :=
    .add (.add .construct rfl) rfl
  have hreverse : Built .last () (rivals.reverse.map .route)
      (.build .last () (rivals.reverse.map .route)) :=
    .add (.add .construct rfl) rfl
  let a : Arrangement digits (rivals.map .route) :=
    ⟨.last, (), _, .refl _, _, hbuilt, .stable digits, rfl⟩
  let b : Arrangement digits (rivals.map .route) :=
    ⟨.last, (), _, rivals.reverse_perm.map _, _, hreverse, .stable digits, rfl⟩
  have ha : (a.matchRoute (getOf "/q/x") fun _ => none).1 = .handler (some 0) := rfl
  have hb : (b.matchRoute (getOf "/q/x") fun _ => none).1 = .handler (some 1) := rfl
  rw [hpredictable a b, hb] at ha
  cases ha

end GinCpp.Routing
