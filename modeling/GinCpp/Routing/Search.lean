import GinCpp.Routing.Matcher

/-!
# The two searches of the matcher

`findMatches` goes from a node to its children, and each way of doing so (`Enters`) uses up some
of the path: `mem_findMatches_cons` says this once for all four.  `recalculateParams` searches the
whole tree for a node of which the address is known; `recalculateParams_eq_along` is that search
without the detours.
-/

namespace GinCpp.Routing

open KeyedTree

variable {H M : Type} {regex : Regex}

/-! ## Collecting the nodes -/

/-- `find_matches` goes on to the child `val` of key `key` with the segments `rest`. -/
inductive Enters (regex : Regex) (seg : Str) (segments : List Str) (key : Str) (val : Node H M) :
    List Str → Prop
  | name : key = seg → Enters regex seg segments key val segments
  | parameter : val.type = .parameter → Enters regex seg segments key val segments
  | wildcard : val.type = .wildcard → Enters regex seg segments key val []
  | regex : val.type = .regex → regex val.regexPattern seg = some true →
      Enters regex seg segments key val segments

namespace Enters

variable {seg key : Str} {segments rest : List Str} {val val' : Node H M}

theorem congr (h : Enters regex seg segments key val rest) (htype : val'.type = val.type)
    (hpattern : val'.regexPattern = val.regexPattern) :
    Enters regex seg segments key val' rest := by
  cases h with
  | name hkey => exact .name hkey
  | parameter hval => exact .parameter (htype.trans hval)
  | wildcard hval => exact .wildcard (htype.trans hval)
  | regex hval hmatch => exact .regex (htype.trans hval) (hpattern ▸ hmatch)

theorem length_le (h : Enters regex seg segments key val rest) :
    rest.length ≤ segments.length := by
  cases h with
  | wildcard => exact Nat.zero_le _
  | name | parameter | regex => exact le_rfl

/-- Only a wildcard takes more than one segment. -/
theorem rest_eq (h : Enters regex seg segments key val rest) (htype : val.type ≠ .wildcard) :
    rest = segments := by
  cases h with
  | wildcard hval => exact absurd hval htype
  | name | parameter | regex => rfl

/-- A static child is entered by its name. -/
theorem key_eq_of_static (h : Enters regex seg segments key val rest) (htype : val.type = .static) :
    key = seg := by
  cases h with
  | name hkey => exact hkey
  | parameter hval | wildcard hval | regex hval => cases htype.symm.trans hval

/-- So is a regex child whose expression does not match. -/
theorem key_eq_of_regex (h : Enters regex seg segments key val rest) (htype : val.type = .regex)
    (hmatch : ¬ regex val.regexPattern seg = some true) : key = seg := by
  cases h with
  | name hkey => exact hkey
  | regex hval hmatch' => exact absurd hmatch' hmatch
  | parameter hval | wildcard hval => cases htype.symm.trans hval

end Enters

namespace RouteMatcher

variable {address : List Str} {t : TrieNode H M} {m : Match H M}

theorem mem_arrive (hdistinct : t.Distinct) (hmount : t.value.isStaticFiles = false) :
    m ∈ arrive address t ↔
      (m = ⟨address, t.value⟩ ∧ t.value.handler.isSome) ∨
      ∃ key c, t.child? key = some c ∧ m = ⟨address ++ [key], c.value⟩ ∧
        c.value.isOptional = true ∧ c.value.handler.isSome := by
  rw [arrive, if_neg (by simp [hmount]), List.mem_append, List.mem_flatMap]
  refine or_congr ?_ ⟨?_, ?_⟩
  · split_ifs with hhandler
    · simp [hhandler]
    · simp [hhandler]
  · rintro ⟨⟨key, c⟩, hchild, hm⟩
    dsimp only at hm
    split_ifs at hm with hoptional
    · rw [Bool.and_eq_true] at hoptional
      exact ⟨key, c, (child?_eq_some_iff hdistinct.nodup).mpr hchild, List.mem_singleton.mp hm,
        hoptional⟩
    · cases hm
  · rintro ⟨key, c, hchild, rfl, hoptional⟩
    refine ⟨(key, c), mem_of_child? hchild, ?_⟩
    dsimp only
    rw [if_pos (by simpa using hoptional)]
    exact List.mem_singleton.mpr rfl

theorem mem_arrive_of_isStaticFiles (hmount : t.value.isStaticFiles = true) :
    m ∈ arrive address t ↔ m = ⟨address, t.value⟩ := by
  rw [arrive, if_pos hmount, List.mem_singleton]

/-- **One turn of `find_matches`.** -/
theorem mem_findMatches_cons {seg : Str} {segments : List Str} (hdistinct : t.Distinct)
    (hmount : t.value.isStaticFiles = false) :
    m ∈ findMatches regex (seg :: segments) address t ↔
      ∃ key c rest, t.child? key = some c ∧ Enters regex seg segments key c.value rest ∧
        m ∈ findMatches regex rest (address ++ [key]) c := by
  rw [findMatches, if_neg (by simp [hmount]), List.mem_append, List.mem_flatMap]
  constructor
  · rintro (hm | ⟨⟨key, c⟩, hchild, hm⟩)
    · -- the child with the name of the segment
      cases hfound : t.child? seg with
      | none =>
          rw [hfound] at hm
          cases hm
      | some c =>
          rw [hfound] at hm
          exact ⟨seg, c, segments, hfound, .name rfl, hm⟩
    · -- one that the loop over the children comes to, in which static ones are passed over
      have hfound : t.child? key = some c := (child?_eq_some_iff hdistinct.nodup).mpr hchild
      dsimp only at hm
      cases htype : c.value.type with
      | static =>
          rw [htype] at hm
          cases hm
      | parameter =>
          rw [htype] at hm
          exact ⟨key, c, segments, hfound, .parameter htype, hm⟩
      | wildcard =>
          rw [htype] at hm
          exact ⟨key, c, [], hfound, .wildcard htype, hm⟩
      | regex =>
          rw [htype] at hm
          dsimp only at hm
          split_ifs at hm with hmatch
          · exact ⟨key, c, segments, hfound, .regex htype hmatch, hm⟩
          · cases hm
  · rintro ⟨key, c, rest, hfound, henters, hm⟩
    have hchild : (key, c) ∈ t.children := mem_of_child? hfound
    cases henters with
    | name hkey =>
        left
        rw [← hkey, hfound]
        exact hm
    | parameter htype | wildcard htype =>
        right
        refine ⟨(key, c), hchild, ?_⟩
        dsimp only
        rw [htype]
        exact hm
    | regex htype hmatch =>
        right
        refine ⟨(key, c), hchild, ?_⟩
        dsimp only
        rw [htype]
        dsimp only
        rw [if_pos hmatch]
        exact hm

theorem mem_findMatches_of_isStaticFiles {segments : List Str}
    (hmount : t.value.isStaticFiles = true) :
    m ∈ findMatches regex segments address t ↔ m = ⟨address, t.value⟩ := by
  cases segments with
  | nil => exact mem_arrive_of_isStaticFiles hmount
  | cons seg segments => rw [findMatches, if_pos hmount, List.mem_singleton]

/-- Induction over the search for a pointer that is pushed.  The segments that are left get fewer,
by more than one at a wildcard. -/
theorem findMatches_induction {P : List Str → List Str → TrieNode H M → Prop}
    (mount : ∀ segments address t, t.value.isStaticFiles = true → m = ⟨address, t.value⟩ →
      P segments address t)
    (handler : ∀ address t, t.value.isStaticFiles = false → m = ⟨address, t.value⟩ →
      t.value.handler.isSome → P [] address t)
    (optional : ∀ address t key c, t.value.isStaticFiles = false → t.child? key = some c →
      m = ⟨address ++ [key], c.value⟩ → c.value.isOptional = true → c.value.handler.isSome →
      P [] address t)
    (child : ∀ seg segments address t key c rest, t.value.isStaticFiles = false →
      t.child? key = some c → Enters regex seg segments key c.value rest →
      P rest (address ++ [key]) c → P (seg :: segments) address t)
    {segments : List Str} (hdistinct : t.Distinct)
    (hm : m ∈ findMatches regex segments address t) : P segments address t := by
  induction h : segments.length using Nat.strongRecOn generalizing segments address t with
  | ind n ih =>
      cases hmount : t.value.isStaticFiles with
      | true => exact mount _ _ _ hmount ((mem_findMatches_of_isStaticFiles hmount).mp hm)
      | false =>
          cases segments with
          | nil =>
              rcases (mem_arrive hdistinct hmount).mp hm with
                ⟨hhere, hhandler⟩ | ⟨key, c, hchild, hhere, hoptional, hhandler⟩
              · exact handler _ _ hmount hhere hhandler
              · exact optional _ _ key c hmount hchild hhere hoptional hhandler
          | cons seg segments =>
              obtain ⟨key, c, rest, hchild, henters, hbelow⟩ :=
                (mem_findMatches_cons hdistinct hmount).mp hm
              have hrest : rest.length < n := by
                rw [← h, List.length_cons]
                exact Nat.lt_succ_of_le henters.length_le
              exact child _ _ _ _ key c rest hmount hchild henters
                (ih _ hrest (hdistinct.child (mem_of_child? hchild)) hbelow rfl)

/-- A pointer that was pushed points to a node of the tree, a mount or one with a handler. -/
theorem exists_address_of_mem_findMatches {segments : List Str} (hdistinct : t.Distinct)
    (hm : m ∈ findMatches regex segments address t) :
    ∃ below, m.address = address ++ below ∧ t.valueAt? below = some m.node ∧
      (m.node.isStaticFiles = true ∨ m.node.handler.isSome) := by
  refine findMatches_induction (P := fun _ address t => ∃ below, m.address = address ++ below ∧
    t.valueAt? below = some m.node ∧ (m.node.isStaticFiles = true ∨ m.node.handler.isSome))
    ?_ ?_ ?_ ?_ hdistinct hm
  · rintro segments address t hmount rfl
    exact ⟨[], (List.append_nil _).symm, rfl, Or.inl hmount⟩
  · rintro address t hmount rfl hhandler
    exact ⟨[], (List.append_nil _).symm, rfl, Or.inr hhandler⟩
  · rintro address t key c hmount hchild rfl hoptional hhandler
    exact ⟨[key], rfl, by rw [valueAt?_cons, hchild]; rfl, Or.inr hhandler⟩
  · rintro seg segments address t key c rest hmount hchild henters
      ⟨below, haddress, hvalue, hpushed⟩
    refine ⟨key :: below, by rw [haddress]; simp, ?_, hpushed⟩
    rw [valueAt?_cons, hchild]
    exact hvalue

/-! ## Searching for a known node -/

/-- `recalculate_params` for the node at the address `below` from the current one. -/
def along (regex : Regex) : List Str → List Str → TrieNode H M → Params → Option Params
  | [], [], _, out => some out
  | key :: below, seg :: segments, current, out =>
      (current.child? key).bind fun val =>
        (if key = seg then along regex below segments val out else none) <|>
          recalculateChild regex seg segments (below = []) val.value out
            (along regex below segments val out)
  | _, _, _, _ => none

@[simp] theorem recalculateChild_none {seg : Str} {segments : List Str} {val : Node H M}
    {out : Params} : recalculateChild regex seg segments false val out none = none := by
  unfold recalculateChild
  cases val.type <;> simp

theorem recalculateChild_congr {seg : Str} {segments : List Str} {isBest : Bool}
    {val val' : Node H M} {out : Params} {below : Option Params} (hpart : val'.part = val.part)
    (htype : val'.type = val.type) (hpattern : val'.regexPattern = val.regexPattern) :
    recalculateChild regex seg segments isBest val' out below =
      recalculateChild regex seg segments isBest val out below := by
  rw [recalculateChild, recalculateChild, hpart, htype, hpattern]

/-- A child that is not entered with the next segment is not searched. -/
theorem recalculateChild_of_not_enters {seg key : Str} {segments : List Str} {isBest : Bool}
    {val : Node H M} {out : Params} (below below' : Option Params)
    (hnot : ¬ Enters regex seg segments key val segments) :
    recalculateChild regex seg segments isBest val out below =
      recalculateChild regex seg segments isBest val out below' := by
  unfold recalculateChild
  cases htype : val.type with
  | static | wildcard => rfl
  | parameter => exact absurd (.parameter htype) hnot
  | regex =>
      dsimp only
      rw [if_neg fun hmatch => hnot (.regex htype hmatch),
        if_neg fun hmatch => hnot (.regex htype hmatch)]

theorem recalculateParams_cons_eq_none {best : List Str} {seg : Str} {segments : List Str}
    {out : Params}
    (hbelow : ∀ key (c : TrieNode H M),
      recalculateParams regex best segments (address ++ [key]) c out = none)
    (hne : ∀ key, address ++ [key] ≠ best) :
    recalculateParams regex best (seg :: segments) address t out = none := by
  rw [recalculateParams, List.findSome?_eq_none_iff.mpr]
  · cases t.child? seg with
    | none => rfl
    | some c => exact congrArg (· <|> none) (hbelow seg c)
  · rintro ⟨key, val⟩ -
    dsimp only
    rw [hbelow, decide_eq_false (hne key), recalculateChild_none]

/-- Below a node that is not on the way there is nothing to find. -/
theorem recalculateParams_eq_none {best : List Str} {segments : List Str} {out : Params}
    (hoff : ¬ address <+: best) :
    recalculateParams regex best segments address t out = none := by
  induction segments generalizing address t with
  | nil =>
      rw [recalculateParams, if_neg]
      rintro rfl
      exact hoff List.prefix_rfl
  | cons seg segments ih =>
      have hbelow : ∀ key, ¬ address ++ [key] <+: best := fun key hbefore =>
        hoff ((List.prefix_append _ _).trans hbefore)
      refine recalculateParams_cons_eq_none (fun key _ => ih (hbelow key)) ?_
      rintro key rfl
      exact hbelow key List.prefix_rfl

/-- **The search for a node follows its address.** -/
theorem recalculateParams_eq_along {below segments : List Str} {out : Params}
    (hdistinct : t.Distinct) :
    recalculateParams regex (address ++ below) segments address t out =
      along regex below segments t out := by
  induction segments generalizing address t below with
  | nil =>
      cases below with
      | nil => simp [recalculateParams, along]
      | cons key below => simp [recalculateParams, along]
  | cons seg segments ih =>
      cases below with
      | nil =>
          -- the node is here, with a segment left: everything below is off its address
          have hoff : ∀ key, ¬ address ++ [key] <+: address := by
            intro key hbefore
            have hlength := hbefore.length_le
            rw [List.length_append, List.length_singleton] at hlength
            omega
          rw [List.append_nil]
          refine recalculateParams_cons_eq_none (fun key c => recalculateParams_eq_none (hoff key))
            fun key heq => hoff key ?_
          exact ⟨[], by rw [List.append_nil, heq]⟩
      | cons key below =>
          have hbest : address ++ key :: below = (address ++ [key]) ++ below := by simp
          have hother : ∀ key' (c : TrieNode H M), key' ≠ key →
              recalculateParams regex (address ++ key :: below) segments (address ++ [key']) c out =
                none := by
            intro key' c hkey
            refine recalculateParams_eq_none fun hbefore => hkey ?_
            simpa using (List.prefix_append_right_inj _).mp hbefore
          have hchild : ∀ c, t.child? key = some c →
              recalculateParams regex (address ++ key :: below) segments (address ++ [key]) c out =
                along regex below segments c out := by
            intro c hc
            rw [hbest]
            exact ih (hdistinct.child (mem_of_child? hc))
          -- all children but the next on the address come to nothing
          rw [recalculateParams, findSome?_children hdistinct.nodup (k := key), along]
          · by_cases hkey : key = seg
            · subst hkey
              cases hfound : t.child? key with
              | none => rfl
              | some c => simp [hchild c hfound]
            · have hraw : ((t.child? seg).bind fun c =>
                  recalculateParams regex (address ++ key :: below) segments (address ++ [seg]) c
                    out) = none := by
                cases t.child? seg with
                | none => rfl
                | some c => exact hother seg c (Ne.symm hkey)
              rw [hraw]
              cases hfound : t.child? key with
              | none => rfl
              | some c => simp [hkey, hchild c hfound]
          · rintro ⟨key', c⟩ - hkey
            have hne : address ++ [key'] ≠ address ++ key :: below := fun heq => hkey (by
              simpa using (List.cons.inj (List.append_cancel_left heq)).1)
            dsimp only at hkey ⊢
            rw [hother key' c hkey, decide_eq_false hne, recalculateChild_none]

/-! ## Both searches together -/

/-- The first node after sorting is one of the highest priority. -/
theorem sort_cons {lib : Library H M} {matchList others : List (Match H M)} {best : Match H M}
    (h : lib.sort matchList = best :: others) :
    best ∈ matchList ∧ ∀ m ∈ matchList, m.node.priority ≤ best.node.priority := by
  have hperm := lib.sort_perm matchList
  have hsorted := lib.sort_sorted matchList
  rw [h] at hperm hsorted
  refine ⟨hperm.subset List.mem_cons_self, fun m hm => ?_⟩
  rcases List.mem_cons.mp (hperm.mem_iff.mpr hm) with rfl | hm
  · exact Int.le_refl _
  · exact (List.pairwise_cons.mp hsorted).1 m hm

theorem sort_eq_nil {lib : Library H M} {matchList : List (Match H M)} :
    lib.sort matchList = [] ↔ matchList = [] := by
  have hperm := lib.sort_perm matchList
  constructor
  · intro h
    rw [h] at hperm
    exact hperm.symm.eq_nil
  · rintro rfl
    exact hperm.eq_nil

/-- **What `match` returns**: the root, if nothing was found and it is the catch-all, or a node
of the highest priority that was found. -/
theorem matchRoute_cases {lib : Library H M} {root : TrieNode H M} (hdistinct : root.Distinct)
    {path : Str} {params params' : Params} {found : Match H M}
    (h : matchRoute lib root path params = (some found, params')) :
    (findMatches lib.regex (splitPath path) [] root = [] ∧ root.value.isCatchAll = true ∧
      found = ⟨[], root.value⟩ ∧ params' = params) ∨
    (found ∈ findMatches lib.regex (splitPath path) [] root ∧
      (∀ m ∈ findMatches lib.regex (splitPath path) [] root,
        m.node.priority ≤ found.node.priority) ∧
      params' = addDefault found.node
        ((along lib.regex found.address (splitPath path) root fun _ => none).getD
          fun _ => none)) := by
  dsimp only [matchRoute] at h
  split at h
  · next hnil =>
      left
      split_ifs at h with hcatchAll
      · obtain ⟨hfound, rfl⟩ := Prod.mk.inj h
        exact ⟨sort_eq_nil.mp hnil, hcatchAll, (Option.some_inj.mp hfound).symm, rfl⟩
      · cases h
  · next best others hbest =>
      right
      obtain ⟨hfound, rfl⟩ := Prod.mk.inj h
      obtain rfl := Option.some_inj.mp hfound
      obtain ⟨hmem, hhighest⟩ := sort_cons hbest
      refine ⟨hmem, hhighest, ?_⟩
      rw [← recalculateParams_eq_along hdistinct, List.nil_append]

end RouteMatcher

end GinCpp.Routing
