import GinCpp.Routing.Soundness

/-!
# Registering a route is local

A registration walks along its pattern through nodes that other patterns share.  If the search for
a path meets there only nodes that show the new pattern already (`Undisturbed`), and does not get
to the end of the pattern, it finds what it found before, with the same parameters, and in the same
order where none of these nodes gets a new child (`Trodden`).
-/

namespace GinCpp.Routing

open Http KeyedTree RouteMatcher

variable {H M : Type} {regex : Regex}

/-! ## The searches after a walk -/

/-- Where the search for a path meets a node on the way of a pattern, the node shows the pattern's
segment; if it gets to the end, there is no mount. -/
def Undisturbed (regex : Regex) : List Segment → List Str → TrieNode H M → Prop
  | [], _, t => t.value.isStaticFiles = false
  | seg :: pattern, segments, t => ∀ c, t.child? seg.part = some c →
      c.value.Shows seg ∧ ∀ s segments' rest, segments = s :: segments' →
        Enters regex s segments' seg.part c.value rest → Undisturbed regex pattern rest c

/-- Where the search for a path meets a node on the way of a pattern and goes on to its children,
the next node of the way is one of them. -/
def Trodden (regex : Regex) : List Segment → List Str → TrieNode H M → Prop
  | [], _, _ => True
  | seg :: pattern, segments, t => t.value.isStaticFiles = true ∨ ∃ c, t.child? seg.part = some c ∧
      ∀ s segments' rest, segments = s :: segments' →
        Enters regex s segments' seg.part c.value rest → Trodden regex pattern rest c

/-- A node that a segment creates. -/
def freshNode (seg : Segment) : TrieNode H M := ⟨(seg.node).mark seg, []⟩

section Walk

variable {placement : Placement Str (Node H M)} {leaf : Node H M → Node H M} {mount : Bool}
  {seg : Segment} {t : TrieNode H M}

theorem undisturbed_freshNode (pattern : List Segment) (segments : List Str) :
    Undisturbed regex pattern segments (freshNode seg : TrieNode H M) := by
  cases pattern with
  | nil => exact mark_isStaticFiles _ seg
  | cons seg' pattern => exact nofun

theorem findMatches_freshNode (address segments : List Str) :
    findMatches regex segments address (freshNode seg : TrieNode H M) = [] := by
  have hmount : ((seg.node : Node H M).mark seg).isStaticFiles = false := mark_isStaticFiles _ seg
  have hhandler : ((seg.node : Node H M).mark seg).handler = none := mark_handler _ seg
  cases segments with
  | nil => simp [findMatches, arrive, freshNode, hmount, hhandler]
  | cons s segments => simp [findMatches, freshNode, hmount, child?]

/-- The child on the way: it is created, or it is left as it was. -/
theorem touched_cases {pattern : List Segment} {segments : List Str}
    (hundisturbed : Undisturbed regex (seg :: pattern) segments t) :
    (t.child? seg.part = none ∧ t.touched seg.part (Segment.step seg).2 = freshNode seg) ∨
      t.child? seg.part = some (t.touched seg.part (Segment.step seg).2) := by
  unfold touched
  cases hchild : t.child? seg.part with
  | none => exact Or.inl ⟨rfl, rfl⟩
  | some c =>
      have hmark : c.value.mark seg = c.value := (hundisturbed c hchild).1.mark_eq
      refine Or.inr (congrArg some ?_)
      change c = ⟨c.value.mark seg, c.children⟩
      rw [hmark]
      cases c
      rfl

theorem shows_touched {pattern : List Segment} {segments : List Str}
    (hundisturbed : Undisturbed regex (seg :: pattern) segments t) :
    (t.touched seg.part (Segment.step seg).2).value.Shows seg := by
  rcases touched_cases hundisturbed with ⟨-, hfresh⟩ | hchild
  · rw [hfresh]
    exact seg.shows_mark_node
  · exact (hundisturbed _ hchild).1

theorem undisturbed_touched {pattern : List Segment} {s : Str} {segments rest : List Str}
    (hundisturbed : Undisturbed regex (seg :: pattern) (s :: segments) t)
    (henters : Enters regex s segments seg.part (t.touched seg.part (Segment.step seg).2).value
      rest) :
    Undisturbed regex pattern rest (t.touched seg.part (Segment.step seg).2) := by
  rcases touched_cases hundisturbed with ⟨-, hfresh⟩ | hchild
  · rw [hfresh]
    exact undisturbed_freshNode pattern rest
  · exact (hundisturbed _ hchild).2 s segments rest rfl henters

/-- A walk changes what a node shows no more than its last change does. -/
theorem sameFace_walk (hface : ∀ node, (leaf node).SameFace node) (pattern : List Segment) :
    (walk placement leaf pattern t).value.SameFace t.value := by
  cases pattern with
  | nil => exact hface t.value
  | cons seg pattern =>
      rw [show (walk placement leaf (seg :: pattern) t).value = t.value from value_insert_cons]
      exact ⟨rfl, rfl, rfl, rfl, rfl, rfl⟩

theorem Node.SameFace.enters_iff {node node' : Node H M} {s key : Str} {segments rest : List Str}
    (h : node.SameFace node') :
    Enters regex s segments key node rest ↔ Enters regex s segments key node' rest :=
  ⟨fun henters => henters.congr h.type.symm h.regexPattern.symm,
    fun henters => henters.congr h.type h.regexPattern⟩

theorem child?_walk_cons (hdistinct : t.Distinct) (pattern : List Segment) (key : Str) :
    (walk placement leaf (seg :: pattern) t).child? key =
      if key = seg.part then
        some (walk placement leaf pattern (t.touched seg.part (Segment.step seg).2))
      else t.child? key :=
  child?_insert_cons hdistinct key

/-- Something is found at a child after the walk if it was before: the child on the way has it
before and after, and a new one does not have it. -/
theorem exists_child_walk {pattern : List Segment} {segments : List Str}
    {found : Str → TrieNode H M → Prop} (hdistinct : t.Distinct)
    (hundisturbed : Undisturbed regex (seg :: pattern) segments t)
    (hfresh : ¬ found seg.part (freshNode seg))
    (hway : found seg.part (walk placement leaf pattern (t.touched seg.part (Segment.step seg).2)) ↔
      found seg.part (t.touched seg.part (Segment.step seg).2)) :
    (∃ key c, (walk placement leaf (seg :: pattern) t).child? key = some c ∧ found key c) ↔
      ∃ key c, t.child? key = some c ∧ found key c := by
  constructor
  · rintro ⟨key, c, hc, hfound⟩
    rw [child?_walk_cons hdistinct] at hc
    split_ifs at hc with hkey
    · obtain rfl := Option.some_inj.mp hc
      subst hkey
      have hbefore := hway.mp hfound
      rcases touched_cases hundisturbed with ⟨-, hnew⟩ | hchild
      · exact absurd (hnew ▸ hbefore) hfresh
      · exact ⟨seg.part, _, hchild, hbefore⟩
    · exact ⟨key, c, hc, hfound⟩
  · rintro ⟨key, c, hc, hfound⟩
    by_cases hkey : key = seg.part
    · subst hkey
      rcases touched_cases hundisturbed with ⟨hnone, -⟩ | hchild
      · rw [hnone] at hc
        cases hc
      · obtain rfl : _ = c := Option.some_inj.mp (hchild.symm.trans hc)
        exact ⟨seg.part, _, by rw [child?_walk_cons hdistinct, if_pos rfl], hway.mpr hfound⟩
    · exact ⟨key, c, by rw [child?_walk_cons hdistinct, if_neg hkey, hc], hfound⟩

/-- A path that ends above the pattern's end arrives where it arrived before. -/
theorem mem_arrive_walk {pattern : List Segment} {address : List Str} {m : Match H M}
    (hface : ∀ node, (leaf node).SameFace node) (hdistinct : t.Distinct)
    (hstatic : t.value.isStaticFiles = false)
    (hundisturbed : Undisturbed regex (seg :: pattern) [] t)
    (hmissed : ¬ Reached regex mount (seg :: pattern) []) :
    m ∈ arrive address (walk placement leaf (seg :: pattern) t) ↔ m ∈ arrive address t := by
  have hvalue : (walk placement leaf (seg :: pattern) t).value = t.value := value_insert_cons
  have hdistinct' : (walk placement leaf (seg :: pattern) t).Distinct := hdistinct.insert
  rw [mem_arrive hdistinct' (hvalue ▸ hstatic), mem_arrive hdistinct hstatic, hvalue]
  refine or_congr_right (exists_child_walk hdistinct hundisturbed ?_ ?_)
  · rintro ⟨-, -, hhandler⟩
    have hnone : (freshNode seg : TrieNode H M).value.handler = none := mark_handler _ seg
    rw [hnone] at hhandler
    cases hhandler
  · -- an optional child is not the end of the pattern, so its node is left as it was
    have hface' : (walk placement leaf pattern
        (t.touched seg.part (Segment.step seg).2)).value.SameFace
          (t.touched seg.part (Segment.step seg).2).value := sameFace_walk hface pattern
    have hshows := shows_touched hundisturbed
    by_cases hoptional : (t.touched seg.part (Segment.step seg).2).value.isOptional = true
    · obtain ⟨seg', pattern, rfl⟩ := List.exists_cons_of_ne_nil fun hnil =>
        hmissed ⟨hnil, hshows.2.2.1.symm.trans hoptional⟩
      rw [show (walk placement leaf (seg' :: pattern)
        (t.touched seg.part (Segment.step seg).2)).value = _ from value_insert_cons]
    · rw [hface'.isOptional]
      exact iff_of_false (fun h => hoptional h.2.1) fun h => hoptional h.2.1

/-- **The search finds what it found before.** -/
theorem mem_findMatches_walk {pattern : List Segment} {segments address : List Str}
    {m : Match H M} (hface : ∀ node, (leaf node).SameFace node)
    (hleaf : mount = false → ∀ node, (leaf node).isStaticFiles = node.isStaticFiles)
    (hdistinct : t.Distinct) (hundisturbed : Undisturbed regex pattern segments t)
    (hmissed : ¬ Reached regex mount pattern segments) :
    m ∈ findMatches regex segments address (walk placement leaf pattern t) ↔
      m ∈ findMatches regex segments address t := by
  induction pattern generalizing t segments address with
  | nil =>
      -- the node itself is not found, and its children are the same
      rw [Reached, not_or] at hmissed
      obtain ⟨s, segments, rfl⟩ := List.exists_cons_of_ne_nil hmissed.2
      have hmount : t.value.isStaticFiles = false := hundisturbed
      have hmount' : (walk placement leaf [] t).value.isStaticFiles = false :=
        (hleaf (by simpa using hmissed.1) t.value).trans hmount
      rw [mem_findMatches_cons hdistinct.insert hmount', mem_findMatches_cons hdistinct hmount]
      rfl
  | cons seg pattern ih =>
      have hvalue : (walk placement leaf (seg :: pattern) t).value = t.value := value_insert_cons
      by_cases hmount : t.value.isStaticFiles = true
      · rw [mem_findMatches_of_isStaticFiles hmount,
          mem_findMatches_of_isStaticFiles (by rw [hvalue, hmount]), hvalue]
      rw [Bool.not_eq_true] at hmount
      cases segments with
      | nil =>
          rw [findMatches, findMatches]
          exact mem_arrive_walk hface hdistinct hmount hundisturbed hmissed
      | cons s segments =>
          have hdistinct' : (walk placement leaf (seg :: pattern) t).Distinct := hdistinct.insert
          rw [mem_findMatches_cons hdistinct' (hvalue ▸ hmount),
            mem_findMatches_cons hdistinct hmount]
          simp only [exists_and_left]
          refine exists_child_walk hdistinct hundisturbed ?_ ?_
          · rintro ⟨rest, -, hm⟩
            rw [findMatches_freshNode] at hm
            cases hm
          · -- the child on the way is entered as before, and below it the induction goes on
            have hface' : (walk placement leaf pattern
                (t.touched seg.part (Segment.step seg).2)).value.SameFace
                  (t.touched seg.part (Segment.step seg).2).value := sameFace_walk hface pattern
            refine exists_congr fun rest => ?_
            rw [hface'.enters_iff]
            apply and_congr_right
            intro henters
            exact ih hdistinct.touched (undisturbed_touched hundisturbed henters)
              fun hreached => hmissed (hreached.of_enters (shows_touched hundisturbed) henters)

/-- The child on the way, if it is there, is left as it was. -/
theorem touched_eq {pattern : List Segment} {segments : List Str} {c : TrieNode H M}
    (hundisturbed : Undisturbed regex (seg :: pattern) segments t)
    (hchild : t.child? seg.part = some c) : t.touched seg.part (Segment.step seg).2 = c := by
  rcases touched_cases hundisturbed with ⟨hnone, -⟩ | hsome
  · rw [hnone] at hchild
    cases hchild
  · exact Option.some_inj.mp (hsome.symm.trans hchild)

/-- What is gathered from the children, if the one on the way is there. -/
theorem flatMap_children_walk {pattern : List Segment} {segments : List Str} {c : TrieNode H M}
    {β : Type} {f : Str × TrieNode H M → List β} (hdistinct : t.Distinct)
    (hundisturbed : Undisturbed regex (seg :: pattern) segments t)
    (hchild : t.child? seg.part = some c)
    (hf : f (seg.part, walk placement leaf pattern c) = f (seg.part, c)) :
    (walk placement leaf (seg :: pattern) t).children.flatMap f = t.children.flatMap f := by
  refine flatMap_children_setChild hdistinct.nodup hchild ?_
  show f (seg.part, walk placement leaf pattern (t.touched seg.part (Segment.step seg).2)) = _
  rw [touched_eq hundisturbed hchild]
  exact hf

/-- A path that ends above the pattern's end, at a node with the next one below it. -/
theorem arrive_walk {pattern : List Segment} {address : List Str} {c : TrieNode H M}
    (hface : ∀ node, (leaf node).SameFace node) (hdistinct : t.Distinct)
    (hundisturbed : Undisturbed regex (seg :: pattern) [] t)
    (hmissed : ¬ Reached regex mount (seg :: pattern) []) (hchild : t.child? seg.part = some c) :
    arrive address (walk placement leaf (seg :: pattern) t) = arrive address t := by
  have hvalue : (walk placement leaf (seg :: pattern) t).value = t.value := value_insert_cons
  have hshows : c.value.Shows seg := (hundisturbed c hchild).1
  rw [arrive, arrive, hvalue, flatMap_children_walk hdistinct hundisturbed hchild]
  -- the child is not the end of the pattern if it is optional, so that its node is the same
  cases pattern with
  | nil =>
      have hrequired : c.value.isOptional = false := by
        by_contra hoptional
        exact hmissed ⟨rfl, hshows.2.2.1.symm.trans (by simpa using hoptional)⟩
      have hrequired' : (walk placement leaf [] c).value.isOptional = false :=
        (hface c.value).isOptional.trans hrequired
      simp only [hrequired, hrequired', Bool.false_and, Bool.false_eq_true, if_false]
  | cons seg' pattern =>
      have hsame : (walk placement leaf (seg' :: pattern) c).value = c.value := value_insert_cons
      simp only [hsame]

/-- **The search finds the nodes in the order in which it found them before**, if it meets no node
that gets a new child. -/
theorem findMatches_walk {pattern : List Segment} {segments address : List Str}
    (hface : ∀ node, (leaf node).SameFace node)
    (hleaf : mount = false → ∀ node, (leaf node).isStaticFiles = node.isStaticFiles)
    (hdistinct : t.Distinct) (hundisturbed : Undisturbed regex pattern segments t)
    (hmissed : ¬ Reached regex mount pattern segments)
    (htrodden : Trodden regex pattern segments t) :
    findMatches regex segments address (walk placement leaf pattern t) =
      findMatches regex segments address t := by
  induction pattern generalizing t segments address with
  | nil =>
      rw [Reached, not_or] at hmissed
      obtain ⟨s, segments, rfl⟩ := List.exists_cons_of_ne_nil hmissed.2
      have hmount : t.value.isStaticFiles = false := hundisturbed
      have hmount' : (walk placement leaf [] t).value.isStaticFiles = false :=
        (hleaf (by simpa using hmissed.1) t.value).trans hmount
      rw [findMatches, findMatches, hmount, hmount']
      rfl
  | cons seg pattern ih =>
      have hvalue : (walk placement leaf (seg :: pattern) t).value = t.value := value_insert_cons
      rcases htrodden with hmount | ⟨c, hchild, hbelow⟩
      · cases segments with
        | nil => rw [findMatches, findMatches, arrive, arrive, hvalue, if_pos hmount, if_pos hmount]
        | cons s segments => rw [findMatches, findMatches, hvalue, if_pos hmount, if_pos hmount]
      cases segments with
      | nil =>
          rw [findMatches, findMatches]
          exact arrive_walk hface hdistinct hundisturbed hmissed hchild
      | cons s segments =>
          have hface' : (walk placement leaf pattern c).value.SameFace c.value :=
            sameFace_walk hface pattern
          obtain ⟨hshows, hundisturbed'⟩ := hundisturbed c hchild
          have hgo : ∀ rest, Enters regex s segments seg.part c.value rest →
              findMatches regex rest (address ++ [seg.part]) (walk placement leaf pattern c) =
                findMatches regex rest (address ++ [seg.part]) c := fun rest henters =>
            ih (hdistinct.child (mem_of_child? hchild)) (hundisturbed' s segments rest rfl henters)
              (fun hreached => hmissed (hreached.of_enters hshows henters))
              (hbelow s segments rest rfl henters)
          rw [findMatches, findMatches, hvalue, child?_walk_cons hdistinct,
            touched_eq hundisturbed hchild, flatMap_children_walk hdistinct hundisturbed hchild]
          · by_cases hname : s = seg.part
            · obtain rfl := hname
              rw [if_pos rfl, hchild]
              dsimp only
              rw [hgo segments (.name rfl)]
            · rw [if_neg hname]
          · dsimp only
            rw [hface'.type, hface'.regexPattern]
            cases htype : c.value.type with
            | static => rfl
            | parameter => exact hgo segments (.parameter htype)
            | wildcard => exact hgo [] (.wildcard htype)
            | regex =>
                dsimp only
                split_ifs with hmatch
                · exact hgo segments (.regex htype hmatch)
                · rfl

/-- **The parameters of a node that was there are what they were.** -/
theorem along_walk {pattern : List Segment} {segments below : List Str} {out : Params}
    (hface : ∀ node, (leaf node).SameFace node) (hdistinct : t.Distinct)
    (hundisturbed : Undisturbed regex pattern segments t)
    (hpresent : (t.valueAt? below).isSome) :
    along regex below segments (walk placement leaf pattern t) out =
      along regex below segments t out := by
  induction pattern generalizing t segments below with
  | nil =>
      cases below with
      | nil => cases segments <;> rfl
      | cons key below => cases segments <;> rfl
  | cons seg pattern ih =>
      cases below with
      | nil => cases segments <;> rfl
      | cons key below =>
          cases segments with
          | nil => rfl
          | cons s segments =>
              rw [along, along, child?_walk_cons hdistinct]
              by_cases hkey : key = seg.part
              · subst hkey
                rw [if_pos rfl]
                rcases touched_cases hundisturbed with ⟨hnone, -⟩ | hchild
                · rw [valueAt?_cons, hnone] at hpresent
                  cases hpresent
                · have hface' : (walk placement leaf pattern
                      (t.touched seg.part (Segment.step seg).2)).value.SameFace
                        (t.touched seg.part (Segment.step seg).2).value :=
                    sameFace_walk hface pattern
                  rw [hchild, Option.bind_some, Option.bind_some,
                    recalculateChild_congr hface'.part hface'.type hface'.regexPattern]
                  by_cases henters : Enters regex s segments seg.part
                      (t.touched seg.part (Segment.step seg).2).value segments
                  · rw [ih hdistinct.touched (undisturbed_touched hundisturbed henters)]
                    rwa [valueAt?_cons, hchild] at hpresent
                  · rw [if_neg fun hname => henters (.name hname),
                      if_neg fun hname => henters (.name hname)]
                    exact congrArg (none <|> ·) (recalculateChild_of_not_enters _ _ henters)
              · rw [if_neg hkey]

end Walk

/-! ## The matcher after a registration -/

/-- There is one node of the highest priority among those that are found. -/
def Untied (regex : Regex) (t : TrieNode H M) (segments : List Str) : Prop :=
  ∀ m ∈ findMatches regex segments [] t, ∀ m' ∈ findMatches regex segments [] t,
    (∀ n ∈ findMatches regex segments [] t, n.node.priority ≤ m.node.priority) →
    (∀ n ∈ findMatches regex segments [] t, n.node.priority ≤ m'.node.priority) →
    m.address = m'.address

theorem eq_of_address_eq {t : TrieNode H M} {m m' : Match H M} {segments : List Str}
    (hdistinct : t.Distinct) (hm : m ∈ findMatches regex segments [] t)
    (hm' : m' ∈ findMatches regex segments [] t) (h : m.address = m'.address) : m = m' := by
  obtain ⟨below, haddress, hnode, -⟩ := exists_address_of_mem_findMatches hdistinct hm
  obtain ⟨below', haddress', hnode', -⟩ := exists_address_of_mem_findMatches hdistinct hm'
  obtain ⟨address, node⟩ := m
  obtain ⟨address', node'⟩ := m'
  obtain rfl : address = address' := h
  obtain rfl : below = below' := haddress.symm.trans haddress'
  exact congrArg (Match.mk address) (Option.some_inj.mp (hnode.symm.trans hnode'))

/-- The result of `match` is the same if the same nodes are found, in the same order unless one of
them alone has the highest priority. -/
theorem matchRoute_congr {lib : Library H M} {t t' : TrieNode H M} {path : Str} (params : Params)
    (hdistinct : t.Distinct) (hdistinct' : t'.Distinct)
    (horder : findMatches lib.regex (splitPath path) [] t' =
        findMatches lib.regex (splitPath path) [] t ∨ Untied lib.regex t (splitPath path))
    (hfound : ∀ m, m ∈ findMatches lib.regex (splitPath path) [] t' ↔
      m ∈ findMatches lib.regex (splitPath path) [] t)
    (halong : ∀ m ∈ findMatches lib.regex (splitPath path) [] t, ∀ out,
      along lib.regex m.address (splitPath path) t' out =
        along lib.regex m.address (splitPath path) t out)
    (hroot : findMatches lib.regex (splitPath path) [] t = [] →
      t'.value = t.value ∨ (t'.value.isCatchAll = false ∧ t.value.isCatchAll = false)) :
    matchRoute lib t' path params = matchRoute lib t path params := by
  unfold matchRoute
  dsimp only
  cases hsort : lib.sort (findMatches lib.regex (splitPath path) [] t) with
  | nil =>
      have hnone : findMatches lib.regex (splitPath path) [] t = [] := sort_eq_nil.mp hsort
      have hnone' : findMatches lib.regex (splitPath path) [] t' = [] := by
        rw [List.eq_nil_iff_forall_not_mem]
        intro m hm
        rw [hfound, hnone] at hm
        cases hm
      rw [sort_eq_nil.mpr hnone']
      rcases hroot hnone with hsame | ⟨hcatchAll', hcatchAll⟩
      · simp only [hsame]
      · simp only [hcatchAll', hcatchAll]
        rfl
  | cons best others =>
      obtain ⟨hbest, hhighest⟩ := sort_cons hsort
      cases hsort' : lib.sort (findMatches lib.regex (splitPath path) [] t') with
      | nil =>
          rw [← hfound, sort_eq_nil.mp hsort'] at hbest
          cases hbest
      | cons best' others' =>
          obtain ⟨hbest', hhighest'⟩ := sort_cons hsort'
          rw [hfound] at hbest'
          have haddress : best'.address = best.address := by
            rcases horder with hlist | huntied
            · rw [hlist, hsort] at hsort'
              exact congrArg Match.address (List.cons.inj hsort').1.symm
            · exact huntied best' hbest' best hbest (fun n hn => hhighest' n ((hfound n).mpr hn))
                hhighest
          have hsame : best' = best := eq_of_address_eq hdistinct hbest' hbest haddress
          have hparams := halong best hbest fun _ => none
          rw [← recalculateParams_eq_along hdistinct', ← recalculateParams_eq_along hdistinct,
            List.nil_append] at hparams
          simp only [hsame, hparams]

/-! ## Registrations -/

namespace Registration

def isMount : Registration H M → Bool
  | .route _ => false
  | .mount _ _ => true

/-- The new pattern matches a path.  `/` matches what nothing else does, and a mount everything
below it. -/
def Covers (regex : Regex) (t : TrieNode H M) (segments : List Str) : Registration H M → Prop
  | .route r => Matches regex r.segments segments ∨
      (r.path = ascii "/" ∧ findMatches regex segments [] t = [])
  | .mount path _ => splitPath path <+: segments

/-- A registration in a tree does no harm to the search for a path. -/
structure Harmless (regex : Regex) (t : TrieNode H M) (segments : List Str)
    (reg : Registration H M) : Prop where
  /-- The nodes that the search meets on the way of the pattern are left as they are. -/
  undisturbed : Undisturbed regex reg.pattern segments t
  /-- The names of the new pattern do not interfere with the path. -/
  apart : ∀ r, reg = .route r → NamesApart regex r.segments segments
  /-- The order in which the nodes are found stays the same, or does not matter. -/
  ordered : Trodden regex reg.pattern segments t ∨ Untied regex t segments
  /-- The node of the catch-all is not the new one, if it is needed. -/
  catchAll : reg.pattern = [] → t.value.isCatchAll = true → findMatches regex segments [] t ≠ []

theorem sameFace_atEnd (reg : Registration H M) (node : Node H M) :
    (reg.atEnd node).SameFace node := by
  cases reg with
  | route r => exact r.leaf_atEnd.sameFace node
  | mount path baseDir => exact ⟨rfl, rfl, rfl, rfl, rfl, rfl⟩

theorem isStaticFiles_atEnd {reg : Registration H M} (h : reg.isMount = false) (node : Node H M) :
    (reg.atEnd node).isStaticFiles = node.isStaticFiles := by
  cases reg with
  | route r => exact r.leaf_atEnd.isStaticFiles node
  | mount path baseDir => cases h

/-- A mount is reached from the paths below it alone. -/
theorem isPrefix_of_reached {parts segments : List Str}
    (h : Reached regex true (parts.map fun seg => ⟨seg, .static⟩) segments) :
    parts <+: segments := by
  induction parts generalizing segments with
  | nil => exact List.nil_prefix
  | cons part parts ih =>
      cases segments with
      | nil => cases h.2
      | cons s segments =>
          obtain ⟨rfl, hreached⟩ := h.resolve_right id
          exact List.cons_prefix_cons.mpr ⟨rfl, ih hreached⟩

theorem Harmless.not_reached {t : TrieNode H M} {segments : List Str} {reg : Registration H M}
    (h : reg.Harmless regex t segments) (hcovers : ¬ reg.Covers regex t segments) :
    ¬ Reached regex reg.isMount reg.pattern segments := by
  cases reg with
  | route r => exact fun hreached => hcovers (Or.inl (h.apart r rfl hreached))
  | mount path baseDir => exact fun hreached => hcovers (isPrefix_of_reached hreached)

/-- **A harmless registration leaves `match` alone.** -/
theorem Harmless.matchRoute_eq {placement : Placement Str (Node H M)} {lib : Library H M}
    {t : TrieNode H M} {path : Str} {reg : Registration H M}
    (h : reg.Harmless lib.regex t (splitPath path))
    (hcovers : ¬ reg.Covers lib.regex t (splitPath path)) (hdistinct : t.Distinct)
    (params : Params) :
    matchRoute lib (walk placement reg.atEnd reg.pattern t) path params =
      matchRoute lib t path params := by
  have hmissed := h.not_reached hcovers
  have horder : findMatches lib.regex (splitPath path) [] (walk placement reg.atEnd reg.pattern t) =
      findMatches lib.regex (splitPath path) [] t ∨ Untied lib.regex t (splitPath path) :=
    h.ordered.imp_left
      (findMatches_walk reg.sameFace_atEnd isStaticFiles_atEnd hdistinct h.undisturbed hmissed)
  refine matchRoute_congr params hdistinct hdistinct.insert horder (fun m => ?_)
    (fun m hm out => ?_) fun hnone => ?_
  · exact mem_findMatches_walk reg.sameFace_atEnd isStaticFiles_atEnd hdistinct h.undisturbed
      hmissed
  · obtain ⟨below, haddress, hnode, -⟩ := exists_address_of_mem_findMatches hdistinct hm
    refine along_walk reg.sameFace_atEnd hdistinct h.undisturbed ?_
    rw [haddress, List.nil_append, hnode]
    rfl
  · cases hpattern : reg.pattern with
    | cons seg pattern => exact Or.inl value_insert_cons
    | nil =>
        have hcatchAll : t.value.isCatchAll = false := by
          by_contra hcatchAll
          exact h.catchAll hpattern (by simpa using hcatchAll) hnone
        refine Or.inr ⟨?_, hcatchAll⟩
        cases reg with
        | mount mountPath baseDir =>
            have hroot : splitPath mountPath = [] := List.map_eq_nil_iff.mp hpattern
            have hbelow : splitPath mountPath <+: splitPath path := by
              rw [hroot]
              exact List.nil_prefix
            exact absurd hbelow hcovers
        | route r =>
            have hpath : r.path ≠ ascii "/" := fun hpath => hcovers (Or.inr ⟨hpath, hnone⟩)
            change (r.atEnd t.value).isCatchAll = false
            rw [Route.atEnd, if_neg hpath]
            exact hcatchAll

end Registration

/-! ## Runs -/

/-- Further registrations of which none matches a path, nor does harm to the search for it. -/
inductive Grows (placement : Placement Str (Node H M)) (lib : Library H M) (method path : Str) :
    Router H M → Router H M → Prop
  | refl {router} : Grows placement lib method path router router
  | use {router router'} (middleware : M) : Grows placement lib method path router router' →
      Grows placement lib method path router (router'.use middleware)
  | add {router router' router'' reg} : Grows placement lib method path router router' →
      router'.add placement reg = .ok router'' →
      (reg.method = method →
        ¬ reg.Covers lib.regex (router'.treeFor method) (splitPath path) ∧
          reg.Harmless lib.regex (router'.treeFor method) (splitPath path)) →
      Grows placement lib method path router router''

/-- What is called for a match: a file server, or a handler in its chain of middlewares. -/
def Match.handler (m : Match H M) : Str ⊕ (Option H × List M) :=
  if m.node.isStaticFiles then .inl m.node.staticFilesBaseDir
  else .inr (m.node.handler, m.node.middlewares)

/-- **Locality**: a path is routed to the same handler with the same parameters. -/
def Router.Unaffected (lib : Library H M) (method path : Str) (before after : Router H M) : Prop :=
  ∀ params, (after.lookup lib method path params).1.map Match.handler =
      (before.lookup lib method path params).1.map Match.handler ∧
    (after.lookup lib method path params).2 = (before.lookup lib method path params).2

/-- **Registering routes is local**, if they do no harm. -/
theorem Built.unaffected {placement : Placement Str (Node H M)} {errorHandler : M}
    {regs : List (Registration H M)} {lib : Library H M} {router router' : Router H M}
    {method path : Str} (hbuilt : Built placement errorHandler regs router)
    (hgrows : Grows placement lib method path router router') :
    Router.Unaffected lib method path router router' := by
  have hrun : (∃ regs', Built placement errorHandler regs' router') ∧
      ∀ params, router'.lookup lib method path params = router.lookup lib method path params := by
    induction hgrows with
    | refl => exact ⟨⟨regs, hbuilt⟩, fun _ => rfl⟩
    | use middleware hgrows ih =>
        obtain ⟨⟨regs', hbuilt'⟩, hsame⟩ := ih
        exact ⟨⟨regs', hbuilt'.use middleware⟩, hsame⟩
    | @add router₁ router₂ reg hgrows hadd hharmless ih =>
        obtain ⟨⟨regs', hbuilt'⟩, hsame⟩ := ih
        refine ⟨⟨_, hbuilt'.add hadd⟩, fun params => ?_⟩
        rw [← hsame params, Router.lookup_eq, Router.lookup_eq, Router.treeFor_add hadd]
        by_cases hmethod : reg.method = method
        · obtain ⟨hcovers, hharmless⟩ := hharmless hmethod
          rw [if_pos hmethod.symm, hmethod]
          exact hharmless.matchRoute_eq hcovers (hbuilt'.distinct method) params
        · rw [if_neg (Ne.symm hmethod)]
  intro params
  rw [hrun.2 params]
  exact ⟨rfl, rfl⟩

/-- A route elsewhere does not affect the users. -/
theorem unaffected_users : Router.Unaffected (.stable digits) (ascii "GET") (ascii "/users/5")
    (.build .last () [.route (getRoute "/users/:id" 0)])
    (.build .last () [.route (getRoute "/users/:id" 0), .route (getRoute "/lang/:locale?" 1)]) := by
  have hbuilt : Built .last () [.route (getRoute "/users/:id" 0)]
      (.build .last () [.route (getRoute "/users/:id" 0)]) := .add .construct rfl
  have hadd : Router.add .last (.build .last () [.route (getRoute "/users/:id" 0)])
      (.route (getRoute "/lang/:locale?" 1)) = .ok (.build .last ()
        [.route (getRoute "/users/:id" 0), .route (getRoute "/lang/:locale?" 1)]) := rfl
  refine Built.unaffected hbuilt (.add .refl hadd fun _ => ⟨?_, ?_, ?_, ?_, ?_⟩)
  · rintro (hmatches | ⟨hpath, -⟩)
    · revert hmatches
      decide
    · revert hpath
      decide
  · intro c hchild
    cases hchild
  · intro r hr
    obtain rfl := Registration.route.inj hr
    decide
  · refine .inr ?_
    have hone : ∃ m, findMatches digits (splitPath (ascii "/users/5")) []
        ((Router.build .last () [.route (getRoute "/users/:id" 0)]).treeFor (ascii "GET")) = [m] :=
      ⟨_, rfl⟩
    obtain ⟨only, hone⟩ := hone
    intro m hm m' hm' _ _
    have hm : m ∈ [only] := hone ▸ hm
    have hm' : m' ∈ [only] := hone ▸ hm'
    rw [List.mem_singleton.mp hm, List.mem_singleton.mp hm']
  · intro hpattern
    cases hpattern

/-- A longer route takes the language without a locale away. -/
theorem not_unaffected_lang :
    (¬ Registration.Covers digits
      ((Router.build .last () [.route (getRoute "/lang/:locale?" 0)]).treeFor (ascii "GET"))
      (splitPath (ascii "/lang")) (.route (getRoute "/lang/:locale/x" 1))) ∧
    ¬ Router.Unaffected (.stable digits) (ascii "GET") (ascii "/lang")
      (.build .last () [.route (getRoute "/lang/:locale?" 0)])
      (.build .last ()
        [.route (getRoute "/lang/:locale?" 0), .route (getRoute "/lang/:locale/x" 1)]) := by
  constructor
  · rintro (hmatches | ⟨hpath, -⟩)
    · revert hmatches
      decide
    · revert hpath
      decide
  · intro hsame
    have hhandler := (hsame fun _ => none).1
    cases hhandler

end GinCpp.Routing
