import GinCpp.Routing.Soundness

/-!
# Parameter extraction

The parameters are those of the pattern, up to two things.  A path segment that is the name of the
parameter it is for is found under that name, by the branch of `recalculate_params` that records
nothing; and a node that is reached because it is optional is not found again, so that no
parameter is recorded.  There is one exception to the second: behind a wildcard the optional node is
found if the path spells the name of the wildcard and goes on with one segment, which is then taken
for the optional one.  `Kept` says that none of this does harm; `exactParams_iff` is exact.
-/

namespace GinCpp.Routing

open Http KeyedTree RouteMatcher

variable {H M : Type} {regex : Regex}

/-! ## Patterns and paths -/

/-- A pattern consumes all segments of a path, up to an optional segment that is absent.  A wildcard
takes all that remain, so that only an absent segment can stand behind it. -/
def Consumes : List Segment → List Str → Prop
  | [], segments => segments = []
  | seg :: pattern, [] => pattern = [] ∧ seg.kind.isOptional = true
  | seg :: pattern, _ :: segments =>
      if seg.kind = .wildcard then Consumes pattern [] else Consumes pattern segments

instance decidableConsumes : (pattern : List Segment) → (segments : List Str) →
    Decidable (Consumes pattern segments)
  | [], segments => inferInstanceAs (Decidable (segments = []))
  | seg :: pattern, [] => inferInstanceAs (Decidable (pattern = [] ∧ seg.kind.isOptional = true))
  | seg :: pattern, _ :: segments =>
      have := decidableConsumes pattern []
      have := decidableConsumes pattern segments
      inferInstanceAs (Decidable (if seg.kind = .wildcard then Consumes pattern []
        else Consumes pattern segments))

/-- A pattern that matches a path consumes it. -/
theorem consumes_of_matches {pattern : List Segment} {segments : List Str}
    (h : Matches regex pattern segments) : Consumes pattern segments := by
  induction pattern generalizing segments with
  | nil => exact h
  | cons seg pattern ih =>
      cases segments with
      | nil => exact h
      | cons s segments =>
          rw [Consumes]
          rcases h with ⟨hkind, hrest⟩ | ⟨htakes, hrest⟩
          · rw [if_pos hkind]
            exact ih hrest
          · have hkind : seg.kind ≠ .wildcard := by
              intro hkind
              rw [Segment.Takes, hkind] at htakes
              exact htakes
            rw [if_neg hkind]
            exact ih hrest

/-- The name of the optional segment that is absent. -/
def absentName : List Segment → List Str → Option Str
  | [], _ => none
  | seg :: _, [] => some seg.part
  | seg :: pattern, _ :: segments =>
      if seg.kind = .wildcard then absentName pattern [] else absentName pattern segments

/-- The path spells the name of the wildcard, and goes on with one segment. -/
def WildcardSpelled : List Segment → List Str → Prop
  | seg :: pattern, s :: segments =>
      if seg.kind = .wildcard then s = seg.part ∧ segments.length = 1
      else WildcardSpelled pattern segments
  | _, _ => False

instance decidableWildcardSpelled : (pattern : List Segment) → (segments : List Str) →
    Decidable (WildcardSpelled pattern segments)
  | [], _ => inferInstanceAs (Decidable False)
  | _ :: _, [] => inferInstanceAs (Decidable False)
  | seg :: pattern, s :: segments =>
      have := decidableWildcardSpelled pattern segments
      inferInstanceAs (Decidable (if seg.kind = .wildcard then s = seg.part ∧ segments.length = 1
        else WildcardSpelled pattern segments))

/-- The pattern with its wildcards taken for static segments. -/
def literally (pattern : List Segment) : List Segment :=
  pattern.map fun seg => if seg.kind = .wildcard then ⟨seg.part, .static⟩ else seg

/-- What the positions of a name hold. -/
def values (n : Str) : List Segment → List Str → List Str
  | seg :: pattern, s :: segments =>
      match seg.kind with
      | .static => values n pattern segments
      | .parameter _ _ | .regex _ =>
          if seg.part = n then s :: values n pattern segments else values n pattern segments
      | .wildcard =>
          if seg.part = n then joinPath (s :: segments) :: values n pattern []
          else values n pattern []
  | _, _ => []

/-- The pattern ends in an optional segment with a default. -/
def EndsInDefault (pattern : List Segment) (n defaultValue : Str) : Prop :=
  pattern.getLast? = some ⟨n, .parameter true defaultValue⟩ ∧ defaultValue ≠ []

/-- The pattern of which the second search finds the node: none if a segment is absent, unless the
path spells the name of the wildcard in front of it. -/
def refound (pattern : List Segment) (segments : List Str) : List Segment :=
  if absentName pattern segments = none then pattern
  else if WildcardSpelled pattern segments then literally pattern
  else []

/-- Every parameter that is bound is found again, and not bound to its own name; or it is that of
the last segment, bound to the default, and what is found again is its name. -/
def Kept (pattern : List Segment) (segments : List Str) : Prop :=
  ∀ n v, bindings pattern segments n = some v →
    (v ≠ n ∧ v ∈ values n (refound pattern segments) segments) ∨
      (EndsInDefault pattern n v ∧ ∀ v' ∈ values n (refound pattern segments) segments, v' = n)

/-! ## What is recorded -/

theorem joinPath_singleton (s : Str) : joinPath [s] = s := by
  simp [joinPath, List.intercalate]

theorem slash_mem_joinPath (s s' : Str) (segments : List Str) :
    SLASH ∈ joinPath (s :: s' :: segments) := by
  simp [joinPath, List.intercalate]

/-- The branches for a parameter: nothing is recorded if it was found under its name. -/
theorem recorded_parameter {part s n : Str} {ps : Params} {vs : List Str}
    (hps : ps n = vs.find? (· ≠ n)) :
    (if part = s then ps else Function.update ps part (some s)) n =
      (if part = n then s :: vs else vs).find? (· ≠ n) := by
  by_cases hpart : part = n
  · subst hpart
    by_cases hs : part = s
    · rw [if_pos hs, if_pos rfl, ← hs, List.find?_cons_of_neg (by simp), hps]
    · rw [if_neg hs, if_pos rfl, List.find?_cons_of_pos (by simpa using Ne.symm hs),
        Function.update_self]
  · rw [if_neg hpart, ← hps]
    split_ifs
    · rfl
    · exact Function.update_of_ne (Ne.symm hpart) _ _

theorem orElse_update (part s : Str) (ps : Params) :
    ((if part = s then some ps else none) <|> some (Function.update ps part (some s))) =
      some (if part = s then ps else Function.update ps part (some s)) := by
  split_ifs <;> rfl

/-- `recalculate_params` at a wildcard, which takes the rest of the path. -/
theorem exists_along_wildcard {c : TrieNode H M} {part s : Str} {segments : List Str}
    {below : Option Params} (hpart : c.value.part = part) (htype : c.value.type = .wildcard)
    (hslash : SLASH ∉ part) :
    ∃ ps, ((if part = s then along regex [] segments c fun _ => none else none) <|>
        recalculateChild regex s segments true c.value (fun _ => none) below) = some ps ∧
      ∀ n, ps n = (values n [⟨part, .wildcard⟩] (s :: segments)).find? (· ≠ n) := by
  rw [recalculateChild, htype, hpart]
  by_cases hname : part = s ∧ segments = []
  · -- the only remaining segment is the name of the wildcard
    obtain ⟨rfl, rfl⟩ := hname
    refine ⟨fun _ => none, by rw [if_pos rfl]; rfl, fun n => ?_⟩
    dsimp only [values]
    split_ifs with hn
    · simp [hn, joinPath_singleton]
    · rfl
  · have hnone : (if part = s then along regex [] segments c fun _ => none else none) = none := by
      split_ifs with hs
      · cases segments with
        | nil => exact absurd ⟨hs, rfl⟩ hname
        | cons s' segments => rfl
      · rfl
    -- a name has no slash, so it is not the rest of the path either
    have hjoin : joinPath (s :: segments) ≠ part := by
      cases segments with
      | nil =>
          rw [joinPath_singleton]
          exact fun hs => hname ⟨hs.symm, rfl⟩
      | cons s' segments => exact fun hs => hslash (hs ▸ slash_mem_joinPath s s' segments)
    refine ⟨Function.update (fun _ => none) part (some (joinPath (s :: segments))), ?_,
      fun n => ?_⟩
    · rw [hnone]
      rfl
    · dsimp only [values]
      by_cases hn : part = n
      · subst hn
        simp [hjoin]
      · simp [hn, Ne.symm hn]

/-- `recalculate_params` at any other segment, once it is through with those below. -/
theorem exists_along_cons {t c : TrieNode H M} {seg : Segment} {pattern : List Segment} {s : Str}
    {segments rest : List Str} (hkind : seg.kind ≠ .wildcard) (hchild : t.child? seg.part = some c)
    (hshows : c.value.Shows seg) (henters : Enters regex s segments seg.part c.value rest)
    (hbelow : ∃ ps, along regex (pattern.map Segment.part) segments c (fun _ => none) = some ps ∧
      ∀ n, ps n = (values n pattern segments).find? (· ≠ n)) :
    ∃ ps, along regex ((seg :: pattern).map Segment.part) (s :: segments) t (fun _ => none) =
        some ps ∧
      ∀ n, ps n = (values n (seg :: pattern) (s :: segments)).find? (· ≠ n) := by
  obtain ⟨ps, halong, hps⟩ := hbelow
  obtain ⟨part, kind⟩ := seg
  obtain ⟨hpart, htype, -, -⟩ := hshows
  dsimp only at hpart htype henters
  rw [List.map_cons, along, hchild, Option.bind_some, halong]
  cases kind with
  | static =>
      refine ⟨ps, ?_, hps⟩
      rw [if_pos (henters.key_eq_of_static htype)]
      rfl
  | parameter isOptional defaultValue =>
      refine ⟨_, ?_, fun n => recorded_parameter (hps n)⟩
      rw [recalculateChild, htype, hpart]
      exact orElse_update part s ps
  | regex expression =>
      refine ⟨_, ?_, fun n => recorded_parameter (hps n)⟩
      rw [recalculateChild, htype, hpart]
      dsimp only [Kind.type]
      by_cases hmatch : regex c.value.regexPattern s = some true
      · rw [if_pos hmatch]
        exact orElse_update part s ps
      · have hname : part = s := henters.key_eq_of_regex htype hmatch
        rw [if_neg hmatch, if_pos hname, if_pos hname]
        rfl
  | wildcard => exact absurd rfl hkind

/-- The search goes on with the next segment, unless a wildcard has taken the rest. -/
theorem rest_eq_of_shows {c : TrieNode H M} {seg : Segment} {s : Str} {segments rest : List Str}
    (hkind : seg.kind ≠ .wildcard) (hshows : c.value.Shows seg)
    (henters : Enters regex s segments seg.part c.value rest) : rest = segments := by
  apply henters.rest_eq
  intro hval
  apply hkind
  cases hseg : seg.kind
  case wildcard => rfl
  all_goals
    rw [hshows.2.1, hseg] at hval
    cases hval

/-- `recalculate_params` for a path that the pattern consumes. -/
theorem exists_along {t u : TrieNode H M} {m : Match H M} {address segments : List Str}
    {pattern : List Segment} (hdistinct : t.Distinct) (hmount : Unmounted t)
    (hspells : Spells t pattern u) (hconsumes : Consumes pattern segments)
    (hfull : absentName pattern segments = none) (hslash : ∀ seg ∈ pattern, SLASH ∉ seg.part)
    (hm : m ∈ findMatches regex segments address t)
    (haddress : m.address = address ++ pattern.map Segment.part) :
    ∃ ps, along regex (pattern.map Segment.part) segments t (fun _ => none) = some ps ∧
      ∀ n, ps n = (values n pattern segments).find? (· ≠ n) := by
  induction segments generalizing t address pattern with
  | nil =>
      cases pattern with
      | nil => exact ⟨_, rfl, fun _ => rfl⟩
      | cons seg pattern => cases hfull
  | cons s segments ih =>
      obtain ⟨seg, pattern, c, rest, rfl, hchild, hshows, hspells, henters, hm', haddress'⟩ :=
        exists_enters_of_mem_findMatches hdistinct (hmount [] _ valueAt?_nil) hspells hm haddress
      rw [Consumes] at hconsumes
      rw [absentName] at hfull
      by_cases hkind : seg.kind = .wildcard
      · rw [if_pos hkind] at hconsumes hfull
        obtain rfl : pattern = [] := by
          cases pattern with
          | nil => rfl
          | cons second pattern => cases hfull
        have hpartSlash := hslash seg List.mem_cons_self
        obtain ⟨part, kind⟩ := seg
        obtain rfl : kind = .wildcard := hkind
        obtain ⟨hpart, htype, -, -⟩ := hshows
        rw [List.map_cons, along, hchild, Option.bind_some]
        exact exists_along_wildcard hpart htype hpartSlash
      · rw [if_neg hkind] at hconsumes hfull
        obtain rfl := rest_eq_of_shows hkind hshows henters
        apply exists_along_cons hkind hchild hshows henters
        exact ih (hdistinct.child (mem_of_child? hchild)) (hmount.child hchild) hspells hconsumes
          hfull (fun seg' hseg' => hslash seg' (List.mem_cons_of_mem _ hseg')) hm' haddress'

theorem type_of_shows {val : Node H M} {seg : Segment} (h : val.Shows seg)
    (hoptional : seg.kind.isOptional = true) : val.type = .parameter := by
  obtain ⟨-, htype, -, -⟩ := h
  rw [htype]
  cases hkind : seg.kind with
  | parameter => rfl
  | static | wildcard | regex =>
      rw [hkind] at hoptional
      cases hoptional

/-- An absent segment is not found otherwise. -/
theorem along_eq_none {t u : TrieNode H M} {segments : List Str} {pattern : List Segment}
    {out : Params} (hspells : Spells t pattern u) (hconsumes : Consumes pattern segments)
    (habsent : absentName pattern segments ≠ none) (hspelled : ¬ WildcardSpelled pattern segments) :
    along regex (pattern.map Segment.part) segments t out = none := by
  induction segments generalizing t pattern with
  | nil =>
      cases pattern with
      | nil => exact absurd rfl habsent
      | cons seg pattern => rfl
  | cons s segments ih =>
      cases pattern with
      | nil => exact absurd rfl habsent
      | cons seg pattern =>
          obtain ⟨c, hchild, hshows, hspells⟩ := Spells.cons_iff.mp hspells
          rw [Consumes] at hconsumes
          rw [absentName] at habsent
          rw [WildcardSpelled] at hspelled
          rw [List.map_cons, along, hchild, Option.bind_some]
          by_cases hkind : seg.kind = .wildcard
          · rw [if_pos hkind] at hconsumes habsent hspelled
            cases pattern with
            | nil => exact absurd rfl habsent
            | cons last pattern =>
                obtain ⟨rfl, hoptional⟩ := hconsumes
                obtain ⟨d, hchild', hshows', -⟩ := Spells.cons_iff.mp hspells
                have htype : c.value.type = .wildcard := by rw [hshows.2.1, hkind]; rfl
                have htype' := type_of_shows hshows' hoptional
                have hnone : (if seg.part = s then
                    along regex [last.part] segments c out else none) = none := by
                  split_ifs with hs
                  · -- one segment is missing, or there is one too many
                    cases segments with
                    | nil => rfl
                    | cons s' segments =>
                        cases segments with
                        | nil => exact absurd ⟨hs.symm, rfl⟩ hspelled
                        | cons s'' segments => simp [along, hchild', recalculateChild, htype']
                  · rfl
                rw [List.map_singleton, hnone, recalculateChild, htype]
                rfl
          · rw [if_neg hkind] at hconsumes habsent hspelled
            have hbest : pattern ≠ [] := by
              rintro rfl
              exact habsent rfl
            rw [ih hspells hconsumes habsent hspelled]
            simp [hbest]

/-- The node of a pattern shows its last segment. -/
theorem Spells.shows_getLast {t u : TrieNode H M} {pattern : List Segment} {seg : Segment}
    (h : Spells t pattern u) (hlast : pattern.getLast? = some seg) : u.value.Shows seg := by
  induction h with
  | nil => cases hlast
  | @cons t c u first pattern hchild hshows hspells ih =>
      cases pattern with
      | nil =>
          cases hspells
          obtain rfl : first = seg := by simpa using hlast
          exact hshows
      | cons second pattern => exact ih (by rwa [List.getLast?_cons_cons] at hlast)

theorem addDefault_of_isSome {node : Node H M} {params : Params} {n : Str}
    (h : (params n).isSome) : addDefault node params n = params n := by
  rw [addDefault]
  split_ifs with hdefault
  · refine Function.update_of_ne ?_ _ _
    rintro rfl
    simp [Option.isNone_iff_eq_none.mp (by simpa using hdefault : _ ∧ _).2] at h
  · rfl

/-- The default that a node supplies is that of its pattern. -/
theorem addDefault_of_none {t u : TrieNode H M} {pattern : List Segment} {params : Params}
    {n v : Str} (hrequired : t.value.isOptional = false) (hspells : Spells t pattern u)
    (hnone : params n = none) :
    addDefault u.value params n = some v ↔ EndsInDefault pattern n v := by
  constructor
  · intro hdefault
    rw [addDefault] at hdefault
    split_ifs at hdefault with hsupplied
    · simp only [Bool.and_eq_true, Bool.not_eq_true', List.isEmpty_eq_false_iff] at hsupplied
      obtain ⟨⟨hoptional, hnonempty⟩, -⟩ := hsupplied
      have hpart : n = u.value.part := by
        by_contra hne
        rw [Function.update_of_ne hne, hnone] at hdefault
        cases hdefault
      rw [hpart, Function.update_self, Option.some_inj] at hdefault
      cases hlast : pattern.getLast? with
      | none =>
          -- the root has no default
          rw [List.getLast?_eq_none_iff] at hlast
          subst hlast
          cases hspells
          rw [hrequired] at hoptional
          cases hoptional
      | some seg =>
          obtain ⟨part, kind⟩ := seg
          obtain ⟨hpart', -, hoptional', hfields⟩ := hspells.shows_getLast hlast
          cases kind with
          | static | wildcard | regex _ => cases hoptional'.symm.trans hoptional
          | parameter isOptional defaultValue =>
              obtain rfl : isOptional = true := hoptional'.symm.trans hoptional
              obtain rfl : v = defaultValue := hdefault.symm.trans hfields
              obtain rfl : n = part := hpart.trans hpart'
              exact ⟨hlast, hdefault ▸ hnonempty⟩
    · rw [hnone] at hdefault
      cases hdefault
  · rintro ⟨hlast, hnonempty⟩
    obtain ⟨hpart, -, hoptional, hfields⟩ := hspells.shows_getLast hlast
    dsimp only [Kind.isOptional] at hpart hoptional hfields
    have hsupplied : (u.value.isOptional && !u.value.defaultValue.isEmpty &&
        (params u.value.part).isNone) = true := by
      simp [hoptional, hfields, hnonempty, hpart, hnone]
    rw [addDefault, if_pos hsupplied, hpart, Function.update_self, hfields]

variable {pattern : List Segment} {segments : List Str} {n v : Str}

theorem slash_not_mem_part_of_mem_segments (r : Route H M) :
    ∀ seg ∈ r.segments, SLASH ∉ seg.part := by
  intro seg hseg
  rw [Route.segments] at hseg
  cases hread : readPath r.path with
  | none =>
      rw [hread] at hseg
      cases hseg
  | some segments =>
      rw [hread, Option.getD_some] at hseg
      exact slash_not_mem_part hread hseg

theorem Router.matchRoute_params (lib : Library H M) (router : Router H M) (request : Request)
    (params : Params) : (router.matchRoute lib request params).2 =
      (router.lookup lib (effectiveMethod request) request.getPath params).2 := by
  dsimp only [matchRoute]
  split
  · next hfound =>
      rw [hfound]
      split_ifs <;> rfl
  · next hnone =>
      rw [hnone]
      split_ifs <;> rfl

/-- The node of a route is looked up: nothing was found and it is the root, or the parameters are
those recorded along the pattern. -/
theorem Built.params_of_lookup {placement : Placement Str (Node H M)} {errorHandler : M}
    {regs : List (Registration H M)} {router : Router H M} {lib : Library H M} {request : Request}
    {params : Params} {found : Match H M} {r : Route H M}
    (hbuilt : Built placement errorHandler regs router) (hroutes : RoutesOnly regs)
    (hclash : NoClash (routesOf (effectiveMethod request) regs))
    (hfound : (router.lookup lib (effectiveMethod request) request.getPath params).1 = some found)
    (hr : r ∈ routesOf (effectiveMethod request) regs) (haddress : r.address = found.address) :
    (r.segments = [] ∧ found.node = (router.treeFor (effectiveMethod request)).value ∧
      findMatches lib.regex (splitPath request.getPath) []
        (router.treeFor (effectiveMethod request)) = []) ∨
    ∃ u, Spells (router.treeFor (effectiveMethod request)) r.segments u ∧
      found ∈ findMatches lib.regex (splitPath request.getPath) []
        (router.treeFor (effectiveMethod request)) ∧
      (router.matchRoute lib request params).2 = addDefault u.value
        ((along lib.regex r.address (splitPath request.getPath)
          (router.treeFor (effectiveMethod request)) fun _ => none).getD fun _ => none) := by
  have hinvariant := hbuilt.invariant hroutes hclash
  obtain ⟨u, hspells⟩ := hinvariant.spells hclash hr
  have hlookup : router.lookup lib (effectiveMethod request) request.getPath params =
      (some found, (router.matchRoute lib request params).2) :=
    Prod.ext hfound (Router.matchRoute_params lib router request params).symm
  rw [Router.lookup_eq] at hlookup
  rcases matchRoute_cases hinvariant.distinct hlookup with
    ⟨hempty, -, rfl, -⟩ | ⟨hmem, -, hparams⟩
  · exact Or.inl ⟨List.map_eq_nil_iff.mp haddress, rfl, hempty⟩
  · obtain ⟨below, hbelow, hnode, -⟩ := exists_address_of_mem_findMatches hinvariant.distinct hmem
    rw [List.nil_append] at hbelow
    have hvalue : u.value = found.node := by
      have hspelled := hspells.valueAt?
      rw [← hbelow, ← haddress] at hnode
      exact Option.some_inj.mp (hspelled.symm.trans hnode)
    refine Or.inr ⟨u, hspells, hmem, ?_⟩
    rw [haddress, hvalue]
    exact hparams

end GinCpp.Routing
