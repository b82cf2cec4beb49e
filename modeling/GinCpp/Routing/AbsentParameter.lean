import GinCpp.Routing.SoleRoute

/-!
# Optional parameters that are left out

The search accepts the node of an optional segment where the path ends before it.  The second
search, which records the parameters, does not: it finds nothing, and of all parameters there is
the default alone.  So those of the segments in front are lost, unless there are none
(`absentParams_iff`).
-/

namespace GinCpp.Routing

open Http KeyedTree RouteMatcher

variable {H M : Type}

/-- Static segments and required parameters. -/
def Required (pattern : List Segment) : Prop :=
  ∀ seg ∈ pattern, seg.kind = .static ∨ seg.kind = .parameter false []

namespace Required

variable {regex : Regex} {pattern : List Segment} {segments : List Str} {last : Segment} {n : Str}

theorem simple (h : Required pattern) : Simple pattern :=
  fun seg hseg => (h seg hseg).imp id fun hkind => ⟨false, [], hkind⟩

theorem length_eq (h : Required pattern) (hmatches : Matches regex pattern segments) :
    segments.length = pattern.length := by
  induction pattern generalizing segments with
  | nil => exact congrArg List.length hmatches
  | cons seg pattern ih =>
      obtain ⟨hseg, hbelow⟩ := List.forall_mem_cons.mp h
      cases segments with
      | nil =>
          have hoptional : seg.kind.isOptional = true := hmatches.2
          rcases hseg with hkind | hkind
          · rw [hkind] at hoptional
            cases hoptional
          · rw [hkind] at hoptional
            cases hoptional
      | cons s segments =>
          rcases hmatches with ⟨hwildcard, -⟩ | ⟨-, hrest⟩
          · exact absurd hwildcard h.simple.kind_ne_wildcard
          · exact congrArg Nat.succ (ih hbelow hrest)

/-- The path ends before the last segment. -/
theorem consumes_concat (h : Required pattern) (hlength : segments.length = pattern.length)
    (last : Segment) (hlast : last.kind.isOptional = true) :
    Consumes (pattern ++ [last]) segments ∧
      absentName (pattern ++ [last]) segments = some last.part := by
  induction pattern generalizing segments with
  | nil =>
      obtain rfl := List.eq_nil_of_length_eq_zero hlength
      exact ⟨⟨rfl, hlast⟩, rfl⟩
  | cons seg pattern ih =>
      cases segments with
      | nil => cases hlength
      | cons s segments =>
          have hkind := h.simple.kind_ne_wildcard
          rw [List.cons_append, Consumes, if_neg hkind, absentName, if_neg hkind]
          exact ih (List.forall_mem_cons.mp h).2 (Nat.succ.inj hlength)

/-- The parameters that a path binds. -/
theorem isSome_bindings_iff (h : Required pattern) (hlength : segments.length = pattern.length) :
    (bindings pattern segments n).isSome ↔ n ∈ names pattern := by
  induction pattern generalizing segments with
  | nil => simp [bindings, names]
  | cons seg pattern ih =>
      obtain ⟨hseg, hbelow⟩ := List.forall_mem_cons.mp h
      obtain ⟨part, kind⟩ := seg
      cases segments with
      | nil => cases hlength
      | cons s segments =>
          have hrest := ih hbelow (Nat.succ.inj hlength)
          rcases hseg with rfl | rfl
          · exact hrest
          · have hnames : names (⟨part, .parameter false []⟩ :: pattern) =
                part :: names pattern := rfl
            rw [bindings, hnames, List.mem_cons, ← hrest]
            dsimp only
            by_cases hpart : n = part
            · simp [hpart]
            · simp [hpart]

end Required

/-- The bindings of the segments that are there, and the default of the one that is not. -/
def withAbsent (pattern : List Segment) (segments : List Str) (name defaultValue : Str) :
    Params := fun n =>
  if n = name then (if defaultValue = [] then none else some defaultValue)
  else bindings pattern segments n

/-- The only parameter of a node for which nothing was recorded. -/
theorem addDefault_of_spells {t u : TrieNode H M} {pattern : List Segment}
    {name defaultValue : Str} (hrequired : t.value.isOptional = false)
    (hspells : Spells t (pattern ++ [⟨name, .parameter true defaultValue⟩]) u) :
    addDefault u.value (fun _ => none) = fun n =>
      if n = name then (if defaultValue = [] then none else some defaultValue) else none := by
  funext n
  refine Option.ext fun v => ?_
  rw [addDefault_of_none hrequired hspells rfl, EndsInDefault, List.getLast?_concat,
    Option.some_inj, Segment.mk.injEq, Kind.parameter.injEq]
  constructor
  · rintro ⟨⟨rfl, -, rfl⟩, hnonempty⟩
    rw [if_pos rfl, if_neg hnonempty]
  · intro hv
    split_ifs at hv with hn hdefault
    obtain rfl := Option.some_inj.mp hv
    exact ⟨⟨hn.symm, rfl, rfl⟩, hdefault⟩

/-- **An optional parameter that is left out** leaves the others alone if and only if there are no
others. -/
theorem Built.absentParams_iff {placement : Placement Str (Node H M)} {errorHandler : M}
    {regs : List (Registration H M)} {router : Router H M} {lib : Library H M} {request : Request}
    {params : Params} {found : Match H M} {r : Route H M} {pattern : List Segment}
    {name defaultValue : Str}
    (hbuilt : Built placement errorHandler regs router) (hroutes : RoutesOnly regs)
    (hclash : NoClash (routesOf (effectiveMethod request) regs))
    (hfound : (router.lookup lib (effectiveMethod request) request.getPath params).1 = some found)
    (hr : r ∈ routesOf (effectiveMethod request) regs) (haddress : r.address = found.address)
    (hsegments : r.segments = pattern ++ [⟨name, .parameter true defaultValue⟩])
    (hrequired : Required pattern)
    (hmatches : Matches lib.regex pattern (splitPath request.getPath)) :
    (router.matchRoute lib request params).2 =
        withAbsent pattern (splitPath request.getPath) name defaultValue ↔
      ∀ n ∈ names pattern, n = name := by
  have hinvariant := hbuilt.invariant hroutes hclash
  have hlength := hrequired.length_eq hmatches
  obtain ⟨hconsumes, habsent⟩ :=
    hrequired.consumes_concat hlength ⟨name, .parameter true defaultValue⟩ rfl
  rw [← hsegments] at hconsumes habsent
  rcases hbuilt.params_of_lookup hroutes hclash hfound hr haddress with
    ⟨hnil, -⟩ | ⟨u, hspells, -, hparams⟩
  · rw [hnil] at hsegments
    exact absurd hsegments.symm (by simp)
  · -- nothing is recorded, and the node supplies its default
    have hsome : absentName r.segments (splitPath request.getPath) ≠ none := by
      rw [habsent]
      exact Option.some_ne_none _
    have hsimple : Simple r.segments := by
      rw [hsegments]
      exact List.forall_mem_append.mpr
        ⟨hrequired.simple, List.forall_mem_singleton.mpr (Or.inr ⟨_, _, rfl⟩)⟩
    have hnone : along lib.regex (r.segments.map Segment.part) (splitPath request.getPath)
        (router.treeFor (effectiveMethod request)) (fun _ => none) = none :=
      along_eq_none hspells hconsumes hsome hsimple.not_wildcardSpelled
    rw [hsegments] at hspells
    rw [hparams, Route.address, hnone, Option.getD_none,
      addDefault_of_spells hinvariant.required hspells, funext_iff]
    refine forall_congr' fun n => ?_
    rw [withAbsent]
    by_cases hn : n = name
    · simp [hn]
    · rw [if_neg hn, if_neg hn, eq_comm, ← Option.not_isSome_iff_eq_none,
        hrequired.isSome_bindings_iff hlength]
      exact ⟨fun hnot hmem => absurd hmem hnot, fun hall hmem => hn (hall hmem)⟩

/-- A page of a user's list, the first unless the path says otherwise. -/
def pageRoute : Route ℕ Unit := getRoute "/users/:id/:page=1" 0

theorem absentParams_iff_page : ∃ router, Built .last () [.route pageRoute] router ∧
    ((router.matchRoute (.stable digits) (getOf "/users/5") fun _ => none).2 =
        withAbsent [⟨ascii "users", .static⟩, ⟨ascii "id", .parameter false []⟩]
          (splitPath (getOf "/users/5").getPath) (ascii "page") (ascii "1") ↔
      ∀ n ∈ names [⟨ascii "users", .static⟩, ⟨ascii "id", .parameter false []⟩],
        n = ascii "page") := by
  have hbuilt : Built .last () [.route pageRoute] _ := .add .construct rfl
  exact ⟨_, hbuilt, hbuilt.absentParams_iff (r := pageRoute)
    (List.forall_mem_singleton.mpr ⟨_, rfl⟩) (by decide) rfl (List.mem_singleton.mpr rfl) rfl
    (by decide) (by unfold Required; decide) (by decide)⟩

/-- The id is lost with the page. -/
theorem not_withAbsent_page : ∃ router, Built .last () [.route pageRoute] router ∧
    pageRoute.segments = [⟨ascii "users", .static⟩, ⟨ascii "id", .parameter false []⟩] ++
      [⟨ascii "page", .parameter true (ascii "1")⟩] ∧
    ((router.lookup (.stable digits) (ascii "GET") (getOf "/users/5").getPath
      fun _ => none).1.map Match.address) = some pageRoute.address ∧
    (router.matchRoute (.stable digits) (getOf "/users/5") fun _ => none).2 ≠
      withAbsent [⟨ascii "users", .static⟩, ⟨ascii "id", .parameter false []⟩]
        (splitPath (getOf "/users/5").getPath) (ascii "page") (ascii "1") := by
  refine ⟨_, .add .construct rfl, by decide, by decide, fun hparams => ?_⟩
  have hid := congrFun hparams (ascii "id")
  revert hid
  decide

end GinCpp.Routing
