import GinCpp.Routing.Selection
import GinCpp.Routing.UrlFor

/-!
# A route alone in the tree of its method

Such a route is matched exactly by the paths that reach its pattern, with the parameters that are
recorded along it (`Built.matchRoute_sole`).  For a pattern of static segments and parameters of
distinct names these are given values exactly if they stand in the path, `addDefault_eq_iff`.
-/

namespace GinCpp.Routing

open Http KeyedTree RouteMatcher

variable {H M : Type} {regex : Regex}

/-! ## The match -/

/-- The only registration of its method. -/
def Sole (regs : List (Registration H M)) (r : Route H M) : Prop :=
  regs.filter (·.method = r.method) = [.route r]

section Sole

variable {placement : Placement Str (Node H M)} {errorHandler : M} {regs : List (Registration H M)}
  {router : Router H M} {r : Route H M} {node : Node H M}

theorem routesOf_filter (method : Str) (regs : List (Registration H M)) :
    routesOf method (regs.filter (·.method = method)) = routesOf method regs := by
  rw [routesOf, routesOf, List.filterMap_filter]
  apply List.filterMap_congr
  intro reg _
  cases reg with
  | route q =>
      by_cases hmethod : q.method = method
      · simp [Registration.method, hmethod]
      · simp [Registration.method, hmethod]
  | mount path baseDir => exact ite_self none

theorem Sole.routesOf_eq (h : Sole regs r) : routesOf r.method regs = [r] := by
  rw [← routesOf_filter, h]
  simp [routesOf]

theorem Sole.mem (h : Sole regs r) : .route r ∈ regs := by
  have hmem : .route r ∈ regs.filter (·.method = r.method) := h ▸ List.mem_cons_self
  exact List.mem_of_mem_filter hmem

theorem Sole.treeFor_eq (h : Sole regs r) (hbuilt : Built placement errorHandler regs router) :
    router.treeFor r.method = grown placement [r] := by
  rw [hbuilt.treeFor_eq_grown, h.routesOf_eq]
  intro reg hreg hmethod
  have hmem : reg ∈ regs.filter (·.method = r.method) :=
    List.mem_filter.mpr ⟨hreg, by simpa using hmethod⟩
  rw [h] at hmem
  exact ⟨r, List.mem_singleton.mp hmem⟩

theorem compatible_self (pattern : List Segment) : Compatible pattern pattern := by
  induction pattern with
  | nil => trivial
  | cons seg pattern ih => exact fun _ => ⟨rfl, ih⟩

theorem noClash_singleton (r : Route H M) : NoClash [r] := by
  intro q hq q' hq'
  rw [List.mem_singleton.mp hq, List.mem_singleton.mp hq']
  exact compatible_self r.segments

/-- The handler of the node of the route. -/
theorem handler_grown_singleton (hnode : (grown placement [r]).valueAt? r.address = some node) :
    node.handler = r.handler := by
  rcases valueAt?_walk (Invariant.root (H := H) (M := M)).distinct hnode with
    ⟨-, hoff⟩ | ⟨hnil, rfl⟩ | ⟨before, seg, after, hsegments, haddress, rfl⟩
  · exact absurd List.prefix_rfl hoff
  · rw [if_pos (List.map_eq_nil_iff.mp hnil)]
    exact r.leaf_atEnd.handler _
  · have hafter : after = [] := by
      have hlength := congrArg List.length haddress
      rw [Route.address, hsegments] at hlength
      exact List.eq_nil_of_length_eq_zero (by simpa using hlength)
    rw [if_pos hafter]
    exact r.leaf_atEnd.handler _

variable {lib : Library H M} {request : Request} {initial : Params}

theorem isSome_handler_grown (hhandler : r.handler.isSome) :
    ∀ q ∈ [r], ∀ node, (grown placement [r]).valueAt? q.address = some node →
      node.handler.isSome := by
  intro q hq node hnode
  rw [List.mem_singleton.mp hq] at hnode
  rw [handler_grown_singleton hnode]
  exact hhandler

theorem findMatches_eq_nil_of_none {tree : TrieNode H M} {path : Str} {params : Params}
    (h : RouteMatcher.matchRoute lib tree path initial = (none, params)) :
    findMatches lib.regex (splitPath path) [] tree = [] := by
  dsimp only [RouteMatcher.matchRoute] at h
  split at h
  · next hsort => exact sort_eq_nil.mp hsort
  · cases h

/-- **The route is matched by the paths that reach it.** -/
theorem Built.matchRoute_sole (hbuilt : Built placement errorHandler regs router)
    (hsole : Sole regs r) (hhandler : r.handler.isSome)
    (hmethod : effectiveMethod request = r.method)
    (hreached : Reached lib.regex false r.segments (splitPath request.getPath))
    (initial : Params) :
    ∃ u, Spells (grown placement [r]) r.segments u ∧ u.value.handler = r.handler ∧
      router.matchRoute lib request initial = (.route u.value, addDefault u.value
        ((along lib.regex r.address (splitPath request.getPath) (grown placement [r])
          fun _ => none).getD fun _ => none)) := by
  have hclash := noClash_singleton r
  have hinvariant : Invariant (grown placement [r]) [r] := invariant_grown hclash
  have hr : r ∈ [r] := List.mem_singleton.mpr rfl
  obtain ⟨u, hspells⟩ := hinvariant.spells hclash hr
  have hnode : (grown placement [r]).valueAt? r.address = some u.value := hspells.valueAt?
  refine ⟨u, hspells, handler_grown_singleton hnode, ?_⟩
  have hmem : ⟨r.address, u.value⟩ ∈
      findMatches lib.regex (splitPath request.getPath) [] (grown placement [r]) :=
    (mem_findMatches_iff hinvariant hclash (isSome_handler_grown hhandler)).mpr
      ⟨r, hr, hreached, rfl, hnode⟩
  rw [Router.matchRoute, Router.lookup_eq, hmethod, hsole.treeFor_eq hbuilt]
  generalize hresult : RouteMatcher.matchRoute lib (grown placement [r]) request.getPath initial =
    result
  obtain ⟨found, params⟩ := result
  cases found with
  | none =>
      rw [findMatches_eq_nil_of_none hresult] at hmem
      cases hmem
  | some found =>
      rcases matchRoute_cases hinvariant.distinct hresult with ⟨hnone, -⟩ | ⟨hfound, -, rfl⟩
      · rw [hnone] at hmem
        cases hmem
      · obtain ⟨q, hq, -, haddress, hfoundNode⟩ :=
          (mem_findMatches_iff hinvariant hclash (isSome_handler_grown hhandler)).mp hfound
        rw [List.mem_singleton.mp hq] at haddress hfoundNode
        have hvalue : found.node = u.value := Option.some_inj.mp (hfoundNode.symm.trans hnode)
        have hmount : u.value.isStaticFiles = false := hinvariant.unmounted _ _ hnode
        simp only [hvalue, haddress, hmount, Bool.false_eq_true, if_false]

/-- A path that does not reach it is not matched, but by the catch-all. -/
theorem Built.reached_of_matchRoute (hbuilt : Built placement errorHandler regs router)
    (hsole : Sole regs r) (hhandler : r.handler.isSome) (hroot : r.path ≠ ascii "/")
    (hmethod : effectiveMethod request = r.method) {params : Params}
    (h : router.matchRoute lib request initial = (.route node, params)) :
    Reached lib.regex false r.segments (splitPath request.getPath) := by
  have hclash := noClash_singleton r
  have hinvariant : Invariant (grown placement [r]) [r] := invariant_grown hclash
  obtain ⟨found, hlookup, -⟩ := Router.matchRoute_route h
  rw [Router.lookup_eq, hmethod, hsole.treeFor_eq hbuilt] at hlookup
  rcases matchRoute_cases hinvariant.distinct hlookup with ⟨-, hcatchAll, -⟩ | ⟨hfound, -⟩
  · obtain ⟨q, hq, hq'⟩ := (Registered.root.catchAll_walk (r := r)).mp hcatchAll
    exact absurd (List.mem_singleton.mp hq ▸ hq') hroot
  · obtain ⟨q, hq, hreached, -⟩ :=
      (mem_findMatches_iff hinvariant hclash (isSome_handler_grown hhandler)).mp hfound
    exact List.mem_singleton.mp hq ▸ hreached

end Sole

/-! ## Static segments and parameters -/

/-- Only static segments and parameters. -/
def Simple (pattern : List Segment) : Prop :=
  ∀ seg ∈ pattern, seg.kind = .static ∨ ∃ isOptional defaultValue,
    seg.kind = .parameter isOptional defaultValue

section Simple

variable {pattern : List Segment} {segments : List Str} {seg : Segment} {s n : Str}

theorem Simple.reached_tail (hsimple : Simple (seg :: pattern))
    (h : Reached regex false (seg :: pattern) (s :: segments)) :
    Reached regex false pattern segments := by
  rcases h with ⟨-, hrest⟩ | h
  · exact hrest
  · rcases hsimple seg List.mem_cons_self with hkind | ⟨isOptional, defaultValue, hkind⟩
    · rw [hkind] at h
      exact h.elim
    · rw [hkind] at h
      exact h

theorem Simple.kind_ne_wildcard (hsimple : Simple (seg :: pattern)) : seg.kind ≠ .wildcard := by
  rcases hsimple seg List.mem_cons_self with hkind | ⟨isOptional, defaultValue, hkind⟩ <;>
    rw [hkind] <;> nofun

theorem Simple.not_wildcardSpelled (hsimple : Simple pattern) :
    ¬ WildcardSpelled pattern segments := by
  induction pattern generalizing segments with
  | nil => exact id
  | cons seg pattern ih =>
      cases segments with
      | nil => exact id
      | cons s segments =>
          rw [WildcardSpelled, if_neg hsimple.kind_ne_wildcard]
          exact ih (List.forall_mem_cons.mp hsimple).2

theorem consumes_of_reached (hsimple : Simple pattern)
    (h : Reached regex false pattern segments) : Consumes pattern segments := by
  induction pattern generalizing segments with
  | nil => exact h.resolve_left (by simp)
  | cons seg pattern ih =>
      cases segments with
      | nil => exact h
      | cons s segments =>
          rw [Consumes, if_neg hsimple.kind_ne_wildcard]
          exact ih (List.forall_mem_cons.mp hsimple).2 (hsimple.reached_tail h)

theorem eq_part_of_reached (h : Reached regex false pattern segments) (hsimple : Simple pattern)
    (hmem : (seg, s) ∈ pattern.zip segments) (hkind : seg.kind = .static) : s = seg.part := by
  induction pattern generalizing segments with
  | nil => cases hmem
  | cons first pattern ih =>
      cases segments with
      | nil => cases hmem
      | cons s' segments =>
          rw [List.zip_cons_cons, List.mem_cons] at hmem
          rcases hmem with hhere | hmem
          · obtain ⟨rfl, rfl⟩ := Prod.mk.inj hhere
            rcases h with ⟨hname, -⟩ | h
            · exact hname
            · rw [hkind] at h
              exact h.elim
          · exact ih (hsimple.reached_tail h) (List.forall_mem_cons.mp hsimple).2 hmem

theorem reached_of_zip (hsimple : Simple pattern) (hlength : segments.length = pattern.length)
    (hstatic : ∀ seg s, (seg, s) ∈ pattern.zip segments → seg.kind = .static → s = seg.part) :
    Reached regex false pattern segments := by
  induction pattern generalizing segments with
  | nil => exact Or.inr (List.eq_nil_of_length_eq_zero hlength)
  | cons seg pattern ih =>
      obtain ⟨hseg, hsimple⟩ := List.forall_mem_cons.mp hsimple
      cases segments with
      | nil => cases hlength
      | cons s segments =>
          have hrest : Reached regex false pattern segments :=
            ih hsimple (Nat.succ.inj hlength) fun seg' s' hmem =>
              hstatic seg' s' (List.mem_cons_of_mem _ hmem)
          rcases hseg with hkind | ⟨isOptional, defaultValue, hkind⟩
          · exact Or.inl ⟨hstatic seg s List.mem_cons_self hkind, hrest⟩
          · refine Or.inr ?_
            rw [hkind]
            exact hrest

/-- No segment is absent, or the last one. -/
theorem absentName_cases (hsimple : Simple pattern) (h : Consumes pattern segments) :
    (absentName pattern segments = none ∧ segments.length = pattern.length) ∨
      ∃ init last, pattern = init ++ [last] ∧ segments.length = init.length ∧
        absentName pattern segments = some last.part := by
  induction pattern generalizing segments with
  | nil =>
      obtain rfl : segments = [] := h
      exact Or.inl ⟨rfl, rfl⟩
  | cons seg pattern ih =>
      cases segments with
      | nil =>
          obtain ⟨rfl, -⟩ := h
          exact Or.inr ⟨[], seg, rfl, rfl, rfl⟩
      | cons s segments =>
          have hkind := hsimple.kind_ne_wildcard
          rw [Consumes, if_neg hkind] at h
          rw [absentName, if_neg hkind]
          rcases ih (List.forall_mem_cons.mp hsimple).2 h with
            ⟨hnone, hlength⟩ | ⟨init, last, rfl, hlength, habsent⟩
          · exact Or.inl ⟨hnone, congrArg Nat.succ hlength⟩
          · exact Or.inr ⟨seg :: init, last, rfl, congrArg Nat.succ hlength, habsent⟩

/-- Nothing stands for a name that is not there. -/
theorem values_of_notMem (hsimple : Simple pattern) (hn : n ∉ names pattern) :
    values n pattern segments = [] := by
  induction pattern generalizing segments with
  | nil => cases segments <;> rfl
  | cons seg pattern ih =>
      obtain ⟨hseg, hbelow⟩ := List.forall_mem_cons.mp hsimple
      cases segments with
      | nil => rfl
      | cons s segments =>
          obtain ⟨part, kind⟩ := seg
          rcases hseg with rfl | ⟨isOptional, defaultValue, rfl⟩
          · exact ih hbelow hn
          · have hnames : names (⟨part, .parameter isOptional defaultValue⟩ :: pattern) =
                part :: names pattern := rfl
            rw [hnames, List.mem_cons, not_or] at hn
            rw [values]
            dsimp only
            rw [if_neg (Ne.symm hn.1)]
            exact ih hbelow hn.2

theorem part_mem_names (hsimple : Simple pattern) (hseg : seg ∈ pattern)
    (hkind : seg.kind ≠ .static) : seg.part ∈ names pattern := by
  rcases hsimple seg hseg with hstatic | ⟨isOptional, defaultValue, hparameter⟩
  · exact absurd hstatic hkind
  · exact mem_names.mpr ⟨isOptional, defaultValue, hparameter ▸ hseg⟩

/-- One segment stands for a name. -/
theorem values_of_mem_zip (hsimple : Simple pattern) (hnodup : (names pattern).Nodup)
    (hmem : (seg, s) ∈ pattern.zip segments) (hkind : seg.kind ≠ .static) :
    values seg.part pattern segments = [s] := by
  induction pattern generalizing segments with
  | nil => cases hmem
  | cons first pattern ih =>
      obtain ⟨hfirst, hbelow⟩ := List.forall_mem_cons.mp hsimple
      cases segments with
      | nil => cases hmem
      | cons s' segments =>
          rw [List.zip_cons_cons, List.mem_cons] at hmem
          obtain ⟨part, kind⟩ := first
          rcases hfirst with rfl | ⟨isOptional, defaultValue, rfl⟩
          · rcases hmem with hhere | hmem
            · obtain ⟨rfl, rfl⟩ := Prod.mk.inj hhere
              exact absurd rfl hkind
            · exact ih hbelow hnodup hmem
          · have hnames : names (⟨part, .parameter isOptional defaultValue⟩ :: pattern) =
                part :: names pattern := rfl
            rw [hnames, List.nodup_cons] at hnodup
            rcases hmem with hhere | hmem
            · obtain ⟨rfl, rfl⟩ := Prod.mk.inj hhere
              rw [values]
              dsimp only
              rw [if_pos rfl, values_of_notMem hbelow hnodup.1]
            · have hseg : seg ∈ pattern := (List.of_mem_zip hmem).1
              have hpart : part ≠ seg.part := by
                rintro rfl
                exact hnodup.1 (part_mem_names hbelow hseg hkind)
              rw [values]
              dsimp only
              rw [if_neg hpart]
              exact ih hbelow hnodup.2 hmem

theorem names_append (pattern pattern' : List Segment) :
    names (pattern ++ pattern') = names pattern ++ names pattern' := List.filterMap_append

/-- The parameters of a pattern are told apart by their names. -/
theorem eq_of_part_eq (hsimple : Simple pattern) (hnodup : (names pattern).Nodup)
    {seg' : Segment} (hseg : seg ∈ pattern) (hseg' : seg' ∈ pattern) (hkind : seg.kind ≠ .static)
    (hkind' : seg'.kind ≠ .static) (hpart : seg.part = seg'.part) : seg = seg' := by
  have hname : ∀ q ∈ pattern, q.kind ≠ .static → [q.part] = names [q] := by
    intro q hq hq'
    obtain ⟨part, kind⟩ := q
    rcases hsimple _ hq with rfl | ⟨isOptional, defaultValue, rfl⟩
    · exact absurd rfl hq'
    · rfl
  by_contra hne
  obtain ⟨before, after, rfl⟩ := List.append_of_mem hseg
  have hrest : seg' ∈ before ++ after := by
    simp only [List.mem_append, List.mem_cons] at hseg' ⊢
    rcases hseg' with hmem | rfl | hmem
    · exact Or.inl hmem
    · exact absurd rfl hne
    · exact Or.inr hmem
  have hmem : seg'.part ∈ names (before ++ after) := by
    obtain ⟨front, back, hsplit⟩ := List.append_of_mem hrest
    rw [hsplit, ← List.singleton_append, names_append, names_append, ← hname seg' hseg' hkind']
    simp
  rw [← List.singleton_append, names_append, names_append, ← hname seg hseg hkind, hpart,
    List.nodup_append] at hnodup
  rw [names_append, List.mem_append] at hmem
  rcases hmem with hmem | hmem
  · exact hnodup.2.2 _ hmem _ (List.mem_append_left _ List.mem_cons_self) rfl
  · exact (List.nodup_append.mp hnodup.2.1).2.2 _ List.mem_cons_self _ hmem rfl

end Simple

theorem exists_mem_zip {pattern : List Segment} {segments : List Str}
    (hlength : segments.length = pattern.length) {seg : Segment} (hseg : seg ∈ pattern) :
    ∃ s, (seg, s) ∈ pattern.zip segments := by
  have hmap : (pattern.zip segments).map Prod.fst = pattern :=
    List.map_fst_zip (le_of_eq hlength.symm)
  rw [← hmap] at hseg
  obtain ⟨⟨seg', s⟩, hmem, rfl⟩ := List.mem_map.mp hseg
  exact ⟨s, hmem⟩

/-! ## The parameters -/

section Recorded

variable {t u : TrieNode H M} {pattern : List Segment} {segments : List Str} {seg : Segment}
  {s : Str} {params : Params}

/-- What is recorded if no segment is absent. -/
theorem exists_along_of_length (hdistinct : t.Distinct) (hmount : Unmounted t)
    (hspells : Spells t pattern u) (hhandler : u.value.handler.isSome) (hsimple : Simple pattern)
    (hslash : ∀ seg ∈ pattern, SLASH ∉ seg.part) (hreached : Reached regex false pattern segments)
    (hlength : segments.length = pattern.length) :
    ∃ ps, along regex (pattern.map Segment.part) segments t (fun _ => none) = some ps ∧
      ∀ n, ps n = (values n pattern segments).find? (· ≠ n) := by
  have hconsumes := consumes_of_reached hsimple hreached
  have hfull : absentName pattern segments = none := by
    rcases absentName_cases hsimple hconsumes with ⟨hnone, -⟩ | ⟨init, last, rfl, hshort, -⟩
    · exact hnone
    · rw [List.length_append, List.length_singleton, hshort] at hlength
      omega
  have hmem : ⟨[] ++ pattern.map Segment.part, u.value⟩ ∈ findMatches regex segments [] t :=
    mem_findMatches_of_reached hdistinct hmount hspells hhandler hreached
  exact exists_along hdistinct hmount hspells hconsumes hfull hslash hmem rfl

/-- **A parameter with a value stands in the path**, or its name does and it has a default. -/
theorem stands_of_addDefault (hdistinct : t.Distinct) (hmount : Unmounted t)
    (hrequired : t.value.isOptional = false) (hspells : Spells t pattern u)
    (hhandler : u.value.handler.isSome) (hsimple : Simple pattern)
    (hnodup : (names pattern).Nodup) (hslash : ∀ seg ∈ pattern, SLASH ∉ seg.part)
    (hreached : Reached regex false pattern segments)
    (hgiven : ∀ n ∈ names pattern, (params n).isSome)
    (hparams : addDefault u.value ((along regex (pattern.map Segment.part) segments t
      fun _ => none).getD fun _ => none) = params)
    (hmem : (seg, s) ∈ pattern.zip segments) (hkind : seg.kind ≠ .static) :
    segments.length = pattern.length ∧ ((params seg.part = some s ∧ s ≠ seg.part) ∨
      (s = seg.part ∧ ∃ defaultValue, seg.kind = .parameter true defaultValue ∧
        defaultValue ≠ [])) := by
  have hseg : seg ∈ pattern := (List.of_mem_zip hmem).1
  obtain ⟨v, hv⟩ := Option.isSome_iff_exists.mp (hgiven _ (part_mem_names hsimple hseg hkind))
  -- a parameter that is not recorded has the default of the last segment
  have hdefault : ∀ ps : Params, ps seg.part = none → addDefault u.value ps seg.part = some v →
      pattern.getLast? = some seg ∧ ∃ defaultValue, seg.kind = .parameter true defaultValue ∧
        defaultValue ≠ [] := by
    intro ps hnone hsupplied
    obtain ⟨hlast, hne⟩ := (addDefault_of_none hrequired hspells hnone).mp hsupplied
    have hsame : ⟨seg.part, .parameter true v⟩ = seg :=
      eq_of_part_eq hsimple hnodup (List.mem_of_getLast? hlast) hseg nofun hkind rfl
    exact ⟨hsame ▸ hlast, v, (congrArg Segment.kind hsame).symm, hne⟩
  have hconsumes := consumes_of_reached hsimple hreached
  rcases absentName_cases hsimple hconsumes with ⟨-, hlength⟩ | ⟨init, last, rfl, hshort, habsent⟩
  · obtain ⟨ps, halong, hps⟩ :=
      exists_along_of_length hdistinct hmount hspells hhandler hsimple hslash hreached hlength
    rw [halong, Option.getD_some] at hparams
    have hfound := hps seg.part
    rw [values_of_mem_zip hsimple hnodup hmem hkind] at hfound
    refine ⟨hlength, ?_⟩
    by_cases hown : s = seg.part
    · have hnone : ps seg.part = none := by rw [hfound, hown]; simp
      rw [← hparams] at hv
      exact Or.inr ⟨hown, (hdefault ps hnone hv).2⟩
    · have hsome : ps seg.part = some s := by
        rw [hfound, List.find?_cons_of_pos (by simpa using hown)]
      refine Or.inl ⟨?_, hown⟩
      rw [← hparams, addDefault_of_isSome (by rw [hsome]; rfl), hsome]
  · -- with a segment absent nothing is recorded, so that only the last one has a value
    rw [along_eq_none hspells hconsumes (by rw [habsent]; nofun) hsimple.not_wildcardSpelled,
      Option.getD_none] at hparams
    rw [← hparams] at hv
    obtain ⟨hlast, -⟩ := hdefault _ rfl hv
    obtain rfl : last = seg := by simpa using hlast
    rw [← List.append_nil segments, List.zip_append hshort.symm] at hmem
    have hinit : last ∈ init := by
      have hmem : (last, s) ∈ init.zip segments := by simpa using hmem
      exact (List.of_mem_zip hmem).1
    rw [names_append, List.nodup_append] at hnodup
    have hfront : Simple init := fun q hq => hsimple q (List.mem_append_left _ hq)
    have hback : Simple [last] := fun q hq => hsimple q (List.mem_append_right _ hq)
    exact absurd rfl (hnodup.2.2 _ (part_mem_names hfront hinit hkind) _
      (part_mem_names hback List.mem_cons_self hkind))

/-- **A parameter that stands in the path has its value**, if that is not its name. -/
theorem addDefault_eq_of_stands (hdistinct : t.Distinct) (hmount : Unmounted t)
    (hrequired : t.value.isOptional = false) (hspells : Spells t pattern u)
    (hhandler : u.value.handler.isSome) (hsimple : Simple pattern)
    (hnodup : (names pattern).Nodup) (hslash : ∀ seg ∈ pattern, SLASH ∉ seg.part)
    (hreached : Reached regex false pattern segments)
    (hlength : segments.length = pattern.length)
    (hnone : ∀ n, n ∉ names pattern → params n = none)
    (hstands : ∀ seg s, (seg, s) ∈ pattern.zip segments → seg.kind ≠ .static →
      params seg.part = some s ∧ s ≠ seg.part) :
    addDefault u.value ((along regex (pattern.map Segment.part) segments t
      fun _ => none).getD fun _ => none) = params := by
  obtain ⟨ps, halong, hps⟩ :=
    exists_along_of_length hdistinct hmount hspells hhandler hsimple hslash hreached hlength
  rw [halong, Option.getD_some]
  funext n
  by_cases hn : n ∈ names pattern
  · obtain ⟨isOptional, defaultValue, hseg⟩ := mem_names.mp hn
    obtain ⟨s, hmem⟩ := exists_mem_zip hlength hseg
    obtain ⟨hvalue, hne⟩ := hstands _ s hmem nofun
    have hone : values n pattern segments = [s] := values_of_mem_zip hsimple hnodup hmem nofun
    have hsome : ps n = some s := by
      rw [hps, hone, List.find?_cons_of_pos (by simpa using hne)]
    rw [addDefault_of_isSome (by rw [hsome]; rfl), hsome, hvalue]
  · have hps : ps n = none := by
      rw [hps, values_of_notMem hsimple hn]
      rfl
    rw [hnone n hn, Option.eq_none_iff_forall_ne_some]
    intro v hv
    obtain ⟨hlast, -⟩ := (addDefault_of_none hrequired hspells hps).mp hv
    exact hn (mem_names.mpr ⟨true, v, List.mem_of_getLast? hlast⟩)

end Recorded

end GinCpp.Routing
