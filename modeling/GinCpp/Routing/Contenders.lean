import GinCpp.Routing.Locality
import GinCpp.Routing.Selection

/-!
# The routes that contend for a path

Of the routes that are reached by a path one of the highest rank is matched, or, if none is
reached, one behind the path `/`.  These `Contend` for it: what is matched is one of them,
`exists_contends`, and a sort that favours its node makes it any one of them,
`matchRoute_favouring`.
-/

namespace GinCpp.Routing

open Http KeyedTree RouteMatcher

variable {H M : Type} {regex : Regex}

/-! ## The parameters of a pattern -/

/-- What is recorded along a pattern.  A segment that is found under its own name records
nothing. -/
def recorded (regex : Regex) : List Segment → List Str → Params → Option Params
  | [], [], out => some out
  | seg :: pattern, s :: segments, out =>
      (if seg.part = s then recorded regex pattern segments out else none) <|>
        match seg.kind with
        | .static => none
        | .parameter _ _ =>
            (recorded regex pattern segments out).map fun params =>
              Function.update params seg.part (some s)
        | .wildcard =>
            if pattern = [] then
              some (Function.update out seg.part (some (joinPath (s :: segments))))
            else none
        | .regex expression =>
            if regex expression s = some true then
              (recorded regex pattern segments out).map fun params =>
                Function.update params seg.part (some s)
            else none
  | _, _, _ => none

/-- The default of the last segment, if that is not bound. -/
def withDefault (pattern : List Segment) (params : Params) : Params :=
  match pattern.getLast? with
  | some ⟨n, .parameter true defaultValue⟩ =>
      if !defaultValue.isEmpty && (params n).isNone then
        Function.update params n (some defaultValue)
      else params
  | _ => params

/-- The search for the node of a pattern records along the pattern. -/
theorem along_eq_recorded {t u : TrieNode H M} {pattern : List Segment} {segments : List Str}
    {out : Params} (hspells : Spells t pattern u) :
    along regex (pattern.map Segment.part) segments t out =
      recorded regex pattern segments out := by
  induction hspells generalizing segments with
  | nil => cases segments <;> rfl
  | @cons t c u seg pattern hchild hshows hspells ih =>
      cases segments with
      | nil => rfl
      | cons s segments =>
          obtain ⟨hpart, htype, -, hfields⟩ := hshows
          obtain ⟨part, kind⟩ := seg
          rw [List.map_cons, along, hchild, Option.bind_some, ih, recorded, recalculateChild, htype,
            hpart]
          cases kind with
          | static | parameter _ _ => rfl
          | wildcard => simp [Kind.type]
          | regex expression =>
              dsimp only [Kind.type] at hfields ⊢
              rw [hfields]

theorem addDefault_eq_withDefault {t u : TrieNode H M} {pattern : List Segment} {params : Params}
    (hrequired : t.value.isOptional = false) (hspells : Spells t pattern u) :
    addDefault u.value params = withDefault pattern params := by
  unfold withDefault
  cases hlast : pattern.getLast? with
  | none =>
      rw [List.getLast?_eq_none_iff] at hlast
      subst hlast
      cases hspells
      simp [addDefault, hrequired]
  | some seg =>
      obtain ⟨hpart, -, hoptional, hfields⟩ := hspells.shows_getLast hlast
      obtain ⟨part, kind⟩ := seg
      cases kind with
      | static | wildcard | regex _ => simp [addDefault, hoptional, Kind.isOptional]
      | parameter isOptional defaultValue =>
          dsimp only [Kind.isOptional] at hoptional hfields hpart
          cases isOptional <;> simp [addDefault, hoptional, hfields, hpart]

/-! ## The contenders -/

/-- The default priority of the node of a route. -/
def Route.rank (routes : List (Route H M)) (r : Route H M) : Int :=
  match r.segments.getLast? with
  | some seg => seg.kind.type.priority
  | none => if Prioritized routes [] then NodeType.static.priority else 0

/-- **A route contends for a path** if it is one of the highest rank among those that are
reached, or, with none reached, one of those that are behind the path `/`. -/
def Contends (regex : Regex) (routes : List (Route H M)) (segments : List Str) (r : Route H M) :
    Prop :=
  r ∈ routes ∧
    ((Reached regex false r.segments segments ∧
        ∀ q ∈ routes, Reached regex false q.segments segments → q.rank routes ≤ r.rank routes) ∨
      ((∀ q ∈ routes, ¬ Reached regex false q.segments segments) ∧
        (∃ q ∈ routes, q.path = ascii "/") ∧ r.segments = []))

/-- The parameters if the route is selected. -/
def Route.outcome (regex : Regex) (segments : List Str) (params : Params) (r : Route H M) :
    Params :=
  if Reached regex false r.segments segments then
    withDefault r.segments ((recorded regex r.segments segments fun _ => none).getD fun _ => none)
  else params

section Contends

variable {routes routes' : List (Route H M)} {segments : List Str} {r r' : Route H M}

theorem rank_congr (h : ∀ q, q ∈ routes ↔ q ∈ routes') (r : Route H M) :
    r.rank routes = r.rank routes' := by
  have hprioritized : Prioritized routes [] ↔ Prioritized routes' [] := by
    simp only [Prioritized, h]
  simp only [Route.rank, hprioritized]

/-- The order of the routes does not matter. -/
theorem contends_congr (h : ∀ q, q ∈ routes ↔ q ∈ routes') :
    Contends regex routes segments r ↔ Contends regex routes' segments r := by
  simp only [Contends, h, rank_congr h]

end Contends

/-! ## The match in the tree of some routes -/

section Grown

variable {placement : Placement Str (Node H M)} {routes : List (Route H M)} {segments : List Str}
  {r : Route H M} {node : Node H M}

theorem type_value_grown (routes : List (Route H M)) :
    (grown placement routes).value.type = .static := by
  induction routes using List.reverseRecOn with
  | nil => rfl
  | append_singleton routes r ih =>
      rw [grown_append]
      exact (sameFace_walk r.leaf_atEnd.sameFace r.segments).type.trans ih

/-- The routes of one tree: they have handlers and default priorities, and siblings of the same
bare name are written alike. -/
structure Settled (routes : List (Route H M)) : Prop where
  noClash : NoClash routes
  priority : ∀ r ∈ routes, r.priority = 0
  handler : ∀ r ∈ routes, r.handler.isSome

namespace Settled

variable (h : Settled routes)

include h

theorem invariant : Invariant (grown placement routes) routes := invariant_grown h.noClash

theorem registered : Registered (grown placement routes) routes :=
  registered_grown h.noClash h.priority

theorem mem_findMatches_iff {m : Match H M} :
    m ∈ findMatches regex segments [] (grown placement routes) ↔
      ∃ r ∈ routes, Reached regex false r.segments segments ∧ m.address = r.address ∧
        (grown placement routes).valueAt? r.address = some m.node :=
  Routing.mem_findMatches_iff h.invariant h.noClash (h.registered.isSome_handler h.handler)

end Settled

/-- The priority of a node is the rank of its routes. -/
theorem priority_eq_rank (h : Settled routes) (hr : r ∈ routes)
    (hnode : (grown placement routes).valueAt? r.address = some node) :
    node.priority = r.rank routes := by
  have hinvariant : Invariant (grown placement routes) routes := h.invariant
  obtain ⟨u, hspells⟩ := hinvariant.spells h.noClash hr
  obtain rfl : u.value = node := Option.some_inj.mp (hspells.valueAt?.symm.trans hnode)
  rw [(h.registered.holds _ _ hnode).priority, Route.rank]
  cases hlast : r.segments.getLast? with
  | none =>
      rw [List.getLast?_eq_none_iff] at hlast
      rw [hlast] at hspells
      cases hspells
      rw [Route.address, hlast, List.map_nil, type_value_grown]
  | some seg =>
      rw [if_pos, (hspells.shows_getLast hlast).2.1]
      refine ⟨r, hr, rfl, fun hroot => ?_⟩
      rw [segments_of_root hroot] at hlast
      cases hlast

variable {lib : Library H M} {path : Str} {params params' : Params} {found : Match H M}

/-- The last route of a node has the pattern of all others. -/
theorem exists_lastAt_of_noClash (hclash : NoClash routes) (hr : r ∈ routes) :
    ∃ r' ∈ routes, lastAt routes r'.address = some r' ∧ r'.segments = r.segments := by
  obtain ⟨r', hr', hlast, haddress⟩ := exists_lastAt hr
  exact ⟨r', hr', haddress ▸ hlast, (hclash r' hr' r hr).eq_of_address_eq haddress⟩

theorem findMatches_grown_eq_nil_iff (placement : Placement Str (Node H M))
    (h : Settled routes) :
    findMatches regex segments [] (grown placement routes) = [] ↔
      ∀ q ∈ routes, ¬ Reached regex false q.segments segments := by
  rw [List.eq_nil_iff_forall_not_mem]
  simp only [h.mem_findMatches_iff]
  constructor
  · intro hnone q hq hreached
    obtain ⟨node, hnode⟩ := Option.isSome_iff_exists.mp (h.invariant.present q hq)
    exact hnone ⟨q.address, node⟩ ⟨q, hq, hreached, rfl, hnode⟩
  · rintro hnone m ⟨q, hq, hreached, -⟩
    exact hnone q hq hreached

/-- **What is matched is a contender**, the last route of its node. -/
theorem exists_contends (hsettled : Settled routes)
    (h : matchRoute lib (grown placement routes) path params = (some found, params')) :
    ∃ r, Contends lib.regex routes (splitPath path) r ∧ lastAt routes r.address = some r ∧
      found.address = r.address ∧ found.node.handler = r.handler ∧
      found.node.isStaticFiles = false ∧
      params' = r.outcome lib.regex (splitPath path) params := by
  have hinvariant : Invariant (grown placement routes) routes := hsettled.invariant
  have hregistered : Registered (grown placement routes) routes := hsettled.registered
  have hholds : ∀ r node, lastAt routes r.address = some r →
      (grown placement routes).valueAt? r.address = some node → node.handler = r.handler := by
    intro r node hlast hnode
    rw [(hregistered.holds _ _ hnode).handler, hlast]
    rfl
  rcases matchRoute_cases hinvariant.distinct h with
    ⟨hnone, hcatchAll, rfl, rfl⟩ | ⟨hfound, hhighest, rfl⟩
  · -- no pattern is reached, and the catch-all is taken
    rw [findMatches_grown_eq_nil_iff placement hsettled] at hnone
    obtain ⟨q, hq, hroot⟩ := hregistered.catchAll.mp hcatchAll
    obtain ⟨r, hr, hlast, hsegments⟩ := exists_lastAt_of_noClash hsettled.noClash hq
    rw [segments_of_root hroot] at hsegments
    have haddress : r.address = [] := by rw [Route.address, hsegments, List.map_nil]
    refine ⟨r, ⟨hr, Or.inr ⟨hnone, ⟨q, hq, hroot⟩, hsegments⟩⟩, hlast, haddress.symm, ?_, ?_, ?_⟩
    · exact hholds r _ hlast (by rw [haddress, valueAt?_nil])
    · exact hinvariant.unmounted [] _ valueAt?_nil
    · rw [Route.outcome, if_neg (hnone r hr)]
  · -- a node of the highest priority among those that are reached
    obtain ⟨q, hq, hreached, hfoundAt, hnode⟩ := hsettled.mem_findMatches_iff.mp hfound
    obtain ⟨r, hr, hlast, hsegments⟩ := exists_lastAt_of_noClash hsettled.noClash hq
    have haddress : r.address = q.address := by rw [Route.address, hsegments, Route.address]
    rw [← haddress] at hfoundAt hnode
    rw [← hsegments] at hreached
    obtain ⟨u, hspells⟩ := hinvariant.spells hsettled.noClash hr
    have hvalue : u.value = found.node := Option.some_inj.mp (hspells.valueAt?.symm.trans hnode)
    refine ⟨r, ⟨hr, Or.inl ⟨hreached, fun q' hq' hreached' => ?_⟩⟩, hlast, hfoundAt,
      hholds r _ hlast hnode, hinvariant.unmounted _ _ hnode, ?_⟩
    · -- the node of another pattern that is reached is found as well
      obtain ⟨node, hnode'⟩ := Option.isSome_iff_exists.mp (hinvariant.present q' hq')
      have hle := hhighest ⟨q'.address, node⟩
        (hsettled.mem_findMatches_iff.mpr ⟨q', hq', hreached', rfl, hnode'⟩)
      rw [← priority_eq_rank hsettled hq' hnode', ← priority_eq_rank hsettled hr hnode]
      exact hle
    · rw [Route.outcome, if_pos hreached, hfoundAt, Route.address, along_eq_recorded hspells,
        ← hvalue, addDefault_eq_withDefault hinvariant.required hspells]

/-- Nothing is recorded if nothing is matched. -/
theorem params_eq_of_matchRoute_none {tree : TrieNode H M}
    (h : matchRoute lib tree path params = (none, params')) : params' = params := by
  dsimp only [matchRoute] at h
  split at h
  · split_ifs at h
    · exact (Prod.mk.inj h).2.symm
    · exact (Prod.mk.inj h).2.symm
  · cases h

/-- Something is matched if a route contends. -/
theorem exists_match_of_contends (placement : Placement Str (Node H M)) (params : Params)
    (hsettled : Settled routes) (h : Contends lib.regex routes (splitPath path) r) :
    ∃ found, (matchRoute lib (grown placement routes) path params).1 = some found := by
  obtain ⟨hr, hreached⟩ := h
  unfold matchRoute
  dsimp only
  cases hsort : lib.sort (findMatches lib.regex (splitPath path) [] (grown placement routes)) with
  | cons best others => exact ⟨best, rfl⟩
  | nil =>
      have hnone := (findMatches_grown_eq_nil_iff placement hsettled).mp (sort_eq_nil.mp hsort)
      rcases hreached with ⟨hreached, -⟩ | ⟨-, hroot, -⟩
      · exact absurd hreached (hnone r hr)
      · have hcatchAll : (grown placement routes).value.isCatchAll = true :=
          hsettled.registered.catchAll.mpr hroot
        simp only [hcatchAll, if_true]
        exact ⟨_, rfl⟩

/-- Nothing is matched if and only if no route contends, and then the parameters are left alone. -/
theorem matchRoute_eq_none_iff (placement : Placement Str (Node H M)) (params : Params)
    (hsettled : Settled routes) :
    matchRoute lib (grown placement routes) path params = (none, params) ↔
      ∀ r, ¬ Contends lib.regex routes (splitPath path) r := by
  constructor
  · intro hnone r hr
    obtain ⟨found, hfound⟩ := exists_match_of_contends placement params hsettled hr
    rw [hnone] at hfound
    cases hfound
  · intro hnone
    generalize hresult : matchRoute lib (grown placement routes) path params = result
    obtain ⟨found, params'⟩ := result
    cases found with
    | none => rw [params_eq_of_matchRoute_none hresult]
    | some found =>
        obtain ⟨r, hr, -⟩ := exists_contends hsettled hresult
        exact absurd hr (hnone r)

end Grown

/-! ## A sort that favours a node -/

/-- A library whose sort puts the nodes of one address in front of all others of their
priority. -/
def Library.favouring (regex : Regex) (address : List Str) : Library H M where
  regex
  sort matchList := (Library.stable regex).sort
    (matchList.filter (·.address = address) ++ matchList.filter (¬ ·.address = address))
  sort_perm matchList := by
    refine ((Library.stable regex).sort_perm _).trans ?_
    simpa using List.filter_append_perm (fun m : Match H M => m.address = address) matchList
  sort_sorted _ := (Library.stable regex).sort_sorted _

/-- An element of the highest priority stays in front. -/
theorem Library.stable_sort_cons (regex : Regex) {m : Match H M} {matchList : List (Match H M)}
    (h : ∀ n ∈ matchList, n.node.priority ≤ m.node.priority) :
    ∃ others, (Library.stable regex).sort (m :: matchList) = m :: others := by
  change ∃ others, List.orderedInsert (fun a b : Match H M => b.node.priority ≤ a.node.priority) m
    ((Library.stable regex).sort matchList) = m :: others
  cases hsort : (Library.stable regex).sort matchList with
  | nil => exact ⟨[], rfl⟩
  | cons n others =>
      have hn : n ∈ matchList := (sort_cons hsort).1
      exact ⟨n :: others, List.orderedInsert_cons_of_le _ _ (h n hn)⟩

theorem matchRoute_favouring {address : List Str} {tree : TrieNode H M} {path : Str}
    (params : Params) {m : Match H M} (hdistinct : tree.Distinct)
    (hm : m ∈ findMatches regex (splitPath path) [] tree) (haddress : m.address = address)
    (hhighest : ∀ n ∈ findMatches regex (splitPath path) [] tree,
      n.node.priority ≤ m.node.priority) :
    (matchRoute (.favouring regex address) tree path params).1 = some m := by
  have hfront : m ∈ (findMatches regex (splitPath path) [] tree).filter (·.address = address) :=
    List.mem_filter.mpr ⟨hm, by simpa using haddress⟩
  obtain ⟨first, others, hfilter⟩ := List.exists_cons_of_ne_nil (List.ne_nil_of_mem hfront)
  have hfirst : first = m := by
    have hmem := List.mem_filter.mp (hfilter ▸ List.mem_cons_self : first ∈ _)
    exact eq_of_address_eq hdistinct hmem.1 hm ((by simpa using hmem.2 : _ = _).trans haddress.symm)
  subst hfirst
  have hothers : ∀ n ∈ others ++ (findMatches regex (splitPath path) [] tree).filter
      (¬ ·.address = address), n.node.priority ≤ first.node.priority := by
    intro n hn
    apply hhighest
    rcases List.mem_append.mp hn with hn | hn
    · exact List.mem_of_mem_filter (hfilter ▸ List.mem_cons_of_mem _ hn : n ∈ _)
    · exact List.mem_of_mem_filter hn
  obtain ⟨others', hsort⟩ := Library.stable_sort_cons regex hothers
  have hsorted : (Library.favouring regex address).sort
      (findMatches regex (splitPath path) [] tree) = first :: others' := by
    rw [← hsort, ← List.cons_append, ← hfilter]
    rfl
  have hregex : (Library.favouring regex address : Library H M).regex = regex := rfl
  unfold matchRoute
  dsimp only
  rw [hregex, hsorted]

/-- **Any contender can be favoured.** -/
theorem address_of_matchRoute_favouring {placement : Placement Str (Node H M)}
    {routes : List (Route H M)} {path : Str} {params params' : Params} {r : Route H M}
    {found : Match H M} (hsettled : Settled routes)
    (hr : Contends regex routes (splitPath path) r)
    (hfound : matchRoute (.favouring regex r.address) (grown placement routes) path params =
      (some found, params')) : found.address = r.address := by
  have hinvariant : Invariant (grown placement routes) routes := hsettled.invariant
  obtain ⟨hr, ⟨hreached, hrank⟩ | ⟨hnone, -, hsegments⟩⟩ := hr
  · obtain ⟨node, hnode⟩ := Option.isSome_iff_exists.mp (hinvariant.present r hr)
    have hm : ⟨r.address, node⟩ ∈ findMatches regex (splitPath path) [] (grown placement routes) :=
      hsettled.mem_findMatches_iff.mpr ⟨r, hr, hreached, rfl, hnode⟩
    have hmatch := matchRoute_favouring params hinvariant.distinct hm rfl ?_
    · rw [hfound] at hmatch
      rw [Option.some_inj.mp hmatch]
    · intro n hn
      obtain ⟨q, hq, hqreached, -, hqnode⟩ := hsettled.mem_findMatches_iff.mp hn
      rw [priority_eq_rank hsettled hq hqnode, priority_eq_rank hsettled hr hnode]
      exact hrank q hq hqreached
  · rw [← findMatches_grown_eq_nil_iff placement hsettled] at hnone
    rcases matchRoute_cases hinvariant.distinct hfound with ⟨-, -, rfl, -⟩ | ⟨hmem, -⟩
    · rw [Route.address, hsegments, List.map_nil]
    · exact absurd hmem (hnone ▸ List.not_mem_nil)

end GinCpp.Routing
