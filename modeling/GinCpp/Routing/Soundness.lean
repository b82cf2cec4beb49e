import GinCpp.Routing.Spelling

/-!
# Routing soundness

The handler that a request is dispatched to was registered for a pattern that the path matches,
unless the names of the trie interfere with the path: a path segment is first looked up among the
bare names of all segments, so that the path `/users/id` goes through the node of `<id:\\d+>`
although the expression does not match it.  `NamesApart` says that this does not happen.
-/

namespace GinCpp.Routing

open Http KeyedTree RouteMatcher

variable {H M : Type} {regex : Regex}

/-- The search gets to the end of a pattern, with the path or, if there is a mount, with any rest
of it.  A path segment that is the bare name of the pattern's segment is as good as one that it
takes. -/
def Reached (regex : Regex) (mount : Bool) : List Segment → List Str → Prop
  | [], segments => mount = true ∨ segments = []
  | seg :: pattern, [] => pattern = [] ∧ seg.kind.isOptional = true
  | seg :: pattern, s :: segments =>
      (s = seg.part ∧ Reached regex mount pattern segments) ∨
        match seg.kind with
        | .static => False
        | .parameter _ _ => Reached regex mount pattern segments
        | .wildcard => Reached regex mount pattern []
        | .regex expression =>
            regex expression s = some true ∧ Reached regex mount pattern segments

instance decidableReached (regex : Regex) (mount : Bool) : (pattern : List Segment) →
    (segments : List Str) → Decidable (Reached regex mount pattern segments)
  | [], segments => inferInstanceAs (Decidable (mount = true ∨ segments = []))
  | seg :: pattern, [] => inferInstanceAs (Decidable (pattern = [] ∧ seg.kind.isOptional = true))
  | ⟨part, kind⟩ :: pattern, s :: segments => by
      have := decidableReached regex mount pattern segments
      have := decidableReached regex mount pattern []
      cases kind <;> (unfold Reached; infer_instance)

/-- The names of a pattern do not interfere with a path. -/
def NamesApart (regex : Regex) (pattern : List Segment) (segments : List Str) : Prop :=
  Reached regex false pattern segments → Matches regex pattern segments

instance (regex : Regex) (pattern : List Segment) (segments : List Str) :
    Decidable (NamesApart regex pattern segments) :=
  inferInstanceAs (Decidable (Reached regex false pattern segments → _))

/-- The path comes near a pattern: the search could get to its end if every node on its way were
like one of the segments that some route has there. -/
def ComesNear (regex : Regex) (routes : List (Route H M)) (pattern : List Segment)
    (segments : List Str) : Prop :=
  ∃ blend, blend.map Segment.part = pattern.map Segment.part ∧
    (∀ before seg after, blend = before ++ seg :: after →
      StandsAt routes (before.map Segment.part) seg) ∧
    Reached regex false blend segments

/-- One turn of the search along a pattern. -/
theorem Reached.of_enters {seg : Segment} {s : Str} {segments rest : List Str}
    {pattern : List Segment} {mount : Bool} {val : Node H M} (hshows : val.Shows seg)
    (henters : Enters regex s segments seg.part val rest)
    (h : Reached regex mount pattern rest) :
    Reached regex mount (seg :: pattern) (s :: segments) := by
  obtain ⟨-, htype, -, hfields⟩ := hshows
  obtain ⟨part, kind⟩ := seg
  cases henters with
  | name hkey => exact Or.inl ⟨hkey.symm, h⟩
  | parameter hval =>
      right
      cases kind with
      | parameter isOptional defaultValue => exact h
      | static | wildcard | regex expression => cases htype.symm.trans hval
  | wildcard hval =>
      right
      cases kind with
      | wildcard => exact h
      | static | parameter _ _ | regex expression => cases htype.symm.trans hval
  | regex hval hmatch =>
      right
      cases kind with
      | regex expression => exact ⟨hfields ▸ hmatch, h⟩
      | static | parameter _ _ | wildcard => cases htype.symm.trans hval

/-- The search goes along the pattern of the node that it finds. -/
theorem exists_enters_of_mem_findMatches {t u : TrieNode H M} {m : Match H M} {s : Str}
    {address segments : List Str} {pattern : List Segment} (hdistinct : t.Distinct)
    (hmount : t.value.isStaticFiles = false) (hspells : Spells t pattern u)
    (hm : m ∈ findMatches regex (s :: segments) address t)
    (haddress : m.address = address ++ pattern.map Segment.part) :
    ∃ seg pattern' c rest, pattern = seg :: pattern' ∧ t.child? seg.part = some c ∧
      c.value.Shows seg ∧ Spells c pattern' u ∧ Enters regex s segments seg.part c.value rest ∧
      m ∈ findMatches regex rest (address ++ [seg.part]) c ∧
      m.address = (address ++ [seg.part]) ++ pattern'.map Segment.part := by
  obtain ⟨key, c, rest, hchild, henters, hm⟩ := (mem_findMatches_cons hdistinct hmount).mp hm
  obtain ⟨below, hbelow, -, -⟩ :=
    exists_address_of_mem_findMatches (hdistinct.child (mem_of_child? hchild)) hm
  have hkeys : pattern.map Segment.part = key :: below := by
    rwa [haddress, List.append_assoc, List.append_right_inj] at hbelow
  obtain ⟨seg, pattern', rfl, rfl, rfl⟩ := List.map_eq_cons_iff.mp hkeys
  obtain ⟨c', hchild', hshows, hspells⟩ := Spells.cons_iff.mp hspells
  obtain rfl : c = c' := Option.some_inj.mp (hchild.symm.trans hchild')
  exact ⟨seg, pattern', c, rest, rfl, hchild, hshows, hspells, henters, hm, hbelow⟩

/-- The matcher finds the nodes of patterns that are reached. -/
theorem reached_of_mem_findMatches {t u : TrieNode H M} {m : Match H M} {address : List Str}
    {pattern : List Segment} {segments : List Str} (hdistinct : t.Distinct)
    (hmount : Unmounted t) (hspells : Spells t pattern u)
    (hm : m ∈ findMatches regex segments address t)
    (haddress : m.address = address ++ pattern.map Segment.part) :
    Reached regex false pattern segments := by
  induction pattern generalizing t address segments with
  | nil =>
      cases segments with
      | nil => exact Or.inr rfl
      | cons s segments =>
          obtain ⟨seg, pattern, c, rest, hpattern, -⟩ :=
            exists_enters_of_mem_findMatches hdistinct (hmount [] _ valueAt?_nil) hspells hm
              haddress
          cases hpattern
  | cons first pattern ih =>
      cases segments with
      | nil =>
          -- the node is a child that is optional
          rcases (mem_arrive hdistinct (hmount [] _ valueAt?_nil)).mp hm with
            ⟨rfl, -⟩ | ⟨key, c, hchild, rfl, hoptional, -⟩
          · simp at haddress
          · obtain ⟨rfl, hnil⟩ := List.cons.inj (List.append_cancel_left haddress)
            obtain ⟨c', hchild', hshows, -⟩ := Spells.cons_iff.mp hspells
            obtain rfl : c = c' := Option.some_inj.mp (hchild.symm.trans hchild')
            exact ⟨List.map_eq_nil_iff.mp hnil.symm, hshows.2.2.1 ▸ hoptional⟩
      | cons s segments =>
          obtain ⟨seg, pattern, c, rest, hpattern, hchild, hshows, hspells, henters, hm,
              haddress⟩ :=
            exists_enters_of_mem_findMatches hdistinct (hmount [] _ valueAt?_nil) hspells hm
              haddress
          obtain ⟨rfl, rfl⟩ := List.cons.inj hpattern
          exact (ih (hdistinct.child (mem_of_child? hchild)) (hmount.child hchild) hspells hm
            haddress).of_enters hshows henters

/-! ## Nodes that show several segments -/

/-- A node is entered as if it were like one of the segments that stand there. -/
theorem exists_reached_cons {among : Segment → Prop} {s key : Str} {segments rest : List Str}
    {blend : List Segment} {val : Node H M}
    (hblends : val.Blends fun seg => among seg ∧ seg.part = key)
    (henters : Enters regex s segments key val rest) (h : Reached regex false blend rest) :
    ∃ seg, among seg ∧ seg.part = key ∧ Reached regex false (seg :: blend) (s :: segments) := by
  obtain ⟨⟨part, kind⟩, ⟨hseg, hpart⟩, htype⟩ := hblends.type
  cases henters with
  | name hkey => exact ⟨_, hseg, hpart, .inl ⟨(hpart.trans hkey).symm, h⟩⟩
  | parameter hval =>
      refine ⟨_, hseg, hpart, .inr ?_⟩
      cases kind with
      | parameter isOptional defaultValue => exact h
      | static | wildcard | regex expression => cases htype.trans hval
  | wildcard hval =>
      refine ⟨_, hseg, hpart, .inr ?_⟩
      cases kind with
      | wildcard => exact h
      | static | parameter _ _ | regex expression => cases htype.trans hval
  | regex hval hmatch =>
      obtain ⟨⟨part', kind'⟩, ⟨hseg', hpart'⟩, rfl⟩ := hblends.regexPattern hval
      exact ⟨_, hseg', hpart', .inr ⟨hmatch, h⟩⟩

/-- Segments that stand behind an address, and then behind its first name. -/
theorem standsAt_cons {routes : List (Route H M)} {address : List Str} {first : Segment}
    {blend : List Segment} (hfirst : StandsAt routes address first)
    (hblend : ∀ before seg after, blend = before ++ seg :: after →
      StandsAt routes (address ++ [first.part] ++ before.map Segment.part) seg) :
    ∀ before seg after, first :: blend = before ++ seg :: after →
      StandsAt routes (address ++ before.map Segment.part) seg := by
  intro before seg after hsplit
  cases before with
  | nil =>
      obtain ⟨rfl, rfl⟩ := List.cons.inj hsplit
      rwa [List.map_nil, List.append_nil]
  | cons other before =>
      obtain ⟨rfl, hrest⟩ := List.cons.inj hsplit
      have hstands := hblend before seg after hrest
      rwa [List.append_assoc] at hstands

/-- The search comes near the pattern of every node that it finds. -/
theorem exists_blend_of_mem_findMatches {routes : List (Route H M)} {t : TrieNode H M}
    {m : Match H M} {address segments : List Str} (hdistinct : t.Distinct) (hmount : Unmounted t)
    (hblended : Blended routes address t) (hm : m ∈ findMatches regex segments address t) :
    ∃ blend : List Segment, m.address = address ++ blend.map Segment.part ∧
      (∀ before seg after, blend = before ++ seg :: after →
        StandsAt routes (address ++ before.map Segment.part) seg) ∧
      Reached regex false blend segments := by
  refine findMatches_induction (P := fun segments address t => Unmounted t →
    Blended routes address t → ∃ blend : List Segment,
      m.address = address ++ blend.map Segment.part ∧
      (∀ before seg after, blend = before ++ seg :: after →
        StandsAt routes (address ++ before.map Segment.part) seg) ∧
      Reached regex false blend segments) ?_ ?_ ?_ ?_ hdistinct hm hmount hblended
  · intro segments address t hstatic _ hmount
    cases hstatic.symm.trans (hmount [] _ valueAt?_nil)
  · rintro address t - rfl - - -
    refine ⟨[], (List.append_nil _).symm, fun before seg after hsplit => ?_, .inr rfl⟩
    cases before <;> cases hsplit
  · rintro address t key c - hchild rfl hoptional - - hblended
    obtain ⟨seg, ⟨hstands, rfl⟩, hseg⟩ := (hblended.value hchild).isOptional hoptional
    refine ⟨[seg], rfl, standsAt_cons hstands fun before seg after hsplit => ?_, rfl, hseg⟩
    cases before <;> cases hsplit
  · intro s segments address t key c rest _ hchild henters ih hmount hblended
    obtain ⟨blend, haddress, hblend, hreached⟩ := ih (hmount.child hchild) (hblended.child hchild)
    obtain ⟨seg, hstands, rfl, hreached'⟩ :=
      exists_reached_cons (hblended.value hchild) henters hreached
    refine ⟨seg :: blend, ?_, standsAt_cons hstands hblend, hreached'⟩
    rw [haddress, List.append_assoc]
    rfl

/-- Segments that stand along a pattern are its own if all routes are written there as it is. -/
theorem eq_of_standsAt {routes : List (Route H M)} {blend pattern : List Segment}
    (hpart : blend.map Segment.part = pattern.map Segment.part)
    (hblend : ∀ before seg after, blend = before ++ seg :: after →
      StandsAt routes (before.map Segment.part) seg)
    (hcompatible : ∀ q ∈ routes, Compatible q.segments pattern) : blend = pattern := by
  have hlength : blend.length = pattern.length := by
    rw [← List.length_map Segment.part, hpart, List.length_map]
  refine List.ext_getElem hlength fun i hi hi' => ?_
  have hsplit : blend = blend.take i ++ blend[i] :: blend.drop (i + 1) := by simp
  have hsplit' : pattern = pattern.take i ++ pattern[i] :: pattern.drop (i + 1) := by simp
  obtain ⟨q, hq, before, after, hsegments, hbefore⟩ := hblend _ _ _ hsplit
  have hcompat : Compatible (before ++ blend[i] :: after)
      (pattern.take i ++ pattern[i] :: pattern.drop (i + 1)) := by
    rw [← hsegments, ← hsplit']
    exact hcompatible q hq
  refine hcompat.eq ?_ ?_
  · rw [hbefore, List.map_take, List.map_take, hpart]
  · have hsame := congrArg (·[i]?) hpart
    simpa [hi, hi'] using hsame

/-! ## Dispatching -/

/-- A handler is the last one registered for some pattern that the path matches. -/
def LastMatching (regex : Regex) (routes : List (Route H M)) (path : Str) (handler : H) : Prop :=
  ∃ before r after, routes = before ++ r :: after ∧ r.handler = some handler ∧
    (∀ q ∈ after, q.segments ≠ r.segments) ∧ Matches regex r.segments (splitPath path)

/-- **Routing soundness** for a request: if it is dispatched to a node other than the catch-all,
then to the handler of a pattern of its method that the path matches. -/
def Router.Sound (lib : Library H M) (regs : List (Registration H M)) (router : Router H M)
    (request : Request) : Prop :=
  ∀ params params' node, router.matchRoute lib request params = (.route node, params') →
    node.isCatchAll = false →
    ∃ handler, node.handler = some handler ∧
      LastMatching lib.regex (routesOf (effectiveMethod request) regs) request.getPath handler

/-- **Routing is sound** for paths that come near no pattern but those that are written as all
patterns are with which they share bare names, and that keep apart from the names of these. -/
theorem Built.sound {placement : Placement Str (Node H M)} {errorHandler : M}
    {regs : List (Registration H M)} {router : Router H M} {lib : Library H M} {request : Request}
    (hbuilt : Built placement errorHandler regs router) (hroutes : RoutesOnly regs)
    (hclash : ∀ r ∈ routesOf (effectiveMethod request) regs,
      ComesNear lib.regex (routesOf (effectiveMethod request) regs) r.segments
        (splitPath request.getPath) →
      ∀ q ∈ routesOf (effectiveMethod request) regs, Compatible q.segments r.segments)
    (hapart : ∀ r ∈ routesOf (effectiveMethod request) regs,
      NamesApart lib.regex r.segments (splitPath request.getPath)) :
    router.Sound lib regs request := by
  intro params params' node hdispatch hother
  obtain ⟨found, hlookup, rfl⟩ := Router.matchRoute_route hdispatch
  rw [Router.lookup_eq] at hlookup
  have himprinted : Imprinted (router.treeFor (effectiveMethod request))
    (routesOf (effectiveMethod request) regs) := hbuilt.imprinted hroutes
  rcases matchRoute_cases himprinted.distinct hlookup with
    ⟨-, hcatchAll, rfl, -⟩ | ⟨hfound, -, -⟩
  · rw [hcatchAll] at hother
    cases hother
  obtain ⟨below, haddress, hnode, hpushed⟩ :=
    exists_address_of_mem_findMatches himprinted.distinct hfound
  have hmount : found.node.isStaticFiles = false := himprinted.unmounted below found.node hnode
  obtain ⟨handler, hhandler⟩ := Option.isSome_iff_exists.mp
    (hpushed.resolve_left (by rw [hmount]; simp))
  obtain ⟨before, r, after, hsplit, hr, hrhandler, hafter⟩ :=
    himprinted.latest below found.node handler hnode hhandler
  have hmem : r ∈ routesOf (effectiveMethod request) regs := by
    rw [hsplit]
    simp
  obtain ⟨blend, hblend, hstands, hreached⟩ := exists_blend_of_mem_findMatches
    himprinted.distinct himprinted.unmounted himprinted.blended hfound
  have hpart : blend.map Segment.part = r.segments.map Segment.part := by
    rw [← List.append_cancel_left (hblend.symm.trans haddress)] at hr
    exact hr.symm
  refine ⟨handler, hhandler, before, r, after, hsplit, hrhandler, ?_, ?_⟩
  · intro q hq hsame
    refine hafter q hq ?_
    rw [← hr, Route.address, hsame, Route.address]
  · have hnear := hclash r hmem ⟨blend, hpart, hstands, hreached⟩
    exact hapart r hmem (eq_of_standsAt hpart hstands hnear ▸ hreached)

/-- `std::regex_match` with `\d+`. -/
def digits : Regex := fun expression s =>
  if expression = ascii "\\d+" then some (!s.isEmpty && s.all isdigit) else none

/-- `GET` of a uri. -/
def getOf (uri : String) : Request :=
  { Request.empty 1 1 with method := ascii "GET", uri := ascii uri }

/-- A `GET` route. -/
def getRoute (path : String) (handler : ℕ) : Route ℕ Unit :=
  { method := ascii "GET", path := ascii path, handler := some handler }

/-- The path of a user is routed to a user. -/
theorem sound_user : ∃ router,
    Built .last () [.route (getRoute "/users/<id:\\d+>" 0)] router ∧
      router.Sound (.stable digits) [.route (getRoute "/users/<id:\\d+>" 0)]
        (getOf "/users/5") := by
  have hclash : NoClash (routesOf (ascii "GET") [.route (getRoute "/users/<id:\\d+>" 0)]) := by
    decide
  refine ⟨_, .add .construct rfl, Built.sound (.add .construct rfl) ?_ ?_ ?_⟩
  · exact List.forall_mem_singleton.mpr ⟨_, rfl⟩
  · exact fun r hr _ q hq => hclash q hq r hr
  · decide

/-- The name of the parameter is taken for a user. -/
theorem not_sound_id : ∃ router,
    Built .last () [.route (getRoute "/users/<id:\\d+>" 0)] router ∧
      ¬ router.Sound (.stable digits) [.route (getRoute "/users/<id:\\d+>" 0)]
        (getOf "/users/id") := by
  refine ⟨_, .add .construct rfl, fun hsound => ?_⟩
  obtain ⟨handler, -, before, r, after, hroutes, -, -, hmatches⟩ :=
    hsound (fun _ => none) _ _ rfl rfl
  have hr : r ∈ routesOf (effectiveMethod (getOf "/users/id"))
      [.route (getRoute "/users/<id:\\d+>" 0)] := by
    rw [hroutes]
    simp
  obtain rfl := List.mem_singleton.mp hr
  revert hmatches
  decide

end GinCpp.Routing
