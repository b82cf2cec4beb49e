import GinCpp.Routing.StaticFiles

/-!
# Completeness of the search

A node is selectable if a path leads to it along the edges of the trie.  The search finds all of
these nodes, and the match is one of the highest priority: `Built.picksMaximum`.

What the search finds are the candidates (`mem_findMatches_iff_candidate`).  They are more than the
selectable nodes, since a segment is first looked up among the bare names of the children of all
kinds.
-/

namespace GinCpp.Routing

open KeyedTree RouteMatcher

variable {H M : Type} {regex : Regex}

/-! ## What the search finds -/

/-- The search pushes the node at an address: a mount, behind which nothing is searched, or a node
with a handler where the segments end, or an optional child of it. -/
inductive Candidate (regex : Regex) : TrieNode H M → List Str → List Str → Node H M → Prop
  | mount {t segments} (hmount : t.value.isStaticFiles = true) :
      Candidate regex t segments [] t.value
  | handler {t} (hmount : t.value.isStaticFiles = false) (hhandler : t.value.handler.isSome) :
      Candidate regex t [] [] t.value
  | optional {t key c} (hmount : t.value.isStaticFiles = false) (hchild : t.child? key = some c)
      (hoptional : c.value.isOptional = true) (hhandler : c.value.handler.isSome) :
      Candidate regex t [] [key] c.value
  | child {t seg segments key c rest address node} (hmount : t.value.isStaticFiles = false)
      (hchild : t.child? key = some c) (henters : Enters regex seg segments key c.value rest)
      (hbelow : Candidate regex c rest address node) :
      Candidate regex t (seg :: segments) (key :: address) node

/-- **The search finds the candidates.** -/
theorem mem_findMatches_iff_candidate {t : TrieNode H M} {address segments : List Str}
    {m : Match H M} (hdistinct : t.Distinct) :
    m ∈ findMatches regex segments address t ↔
      ∃ below, m.address = address ++ below ∧ Candidate regex t segments below m.node := by
  constructor
  · intro hm
    refine findMatches_induction (P := fun segments address t => ∃ below,
      m.address = address ++ below ∧ Candidate regex t segments below m.node)
      ?_ ?_ ?_ ?_ hdistinct hm
    · rintro segments address t hmount rfl
      exact ⟨[], (List.append_nil _).symm, .mount hmount⟩
    · rintro address t hmount rfl hhandler
      exact ⟨[], (List.append_nil _).symm, .handler hmount hhandler⟩
    · rintro address t key c hmount hchild rfl hoptional hhandler
      exact ⟨[key], rfl, .optional hmount hchild hoptional hhandler⟩
    · rintro seg segments address t key c rest hmount hchild henters ⟨below, haddress, hbelow⟩
      refine ⟨key :: below, ?_, .child hmount hchild henters hbelow⟩
      rw [haddress, List.append_assoc, List.singleton_append]
  · rintro ⟨below, haddress, hcandidate⟩
    obtain ⟨maddress, node⟩ := m
    subst haddress
    dsimp only at hcandidate
    induction hcandidate generalizing address with
    | mount hmount =>
        rw [List.append_nil]
        exact (mem_findMatches_of_isStaticFiles hmount).mpr rfl
    | handler hmount hhandler =>
        rw [List.append_nil]
        exact (mem_arrive hdistinct hmount).mpr (.inl ⟨rfl, hhandler⟩)
    | optional hmount hchild hoptional hhandler =>
        exact (mem_arrive hdistinct hmount).mpr (.inr ⟨_, _, hchild, rfl, hoptional, hhandler⟩)
    | @child t seg segments key c rest below node hmount hchild henters _ ih =>
        have hm : ⟨(address ++ [key]) ++ below, node⟩ ∈
            findMatches regex rest (address ++ [key]) c :=
          ih (hdistinct.child (mem_of_child? hchild))
        rw [List.append_assoc, List.singleton_append] at hm
        exact (mem_findMatches_cons hdistinct hmount).mpr ⟨key, c, rest, hchild, henters, hm⟩

/-! ## What is selectable -/

/-- All segments are consumed along edges. -/
inductive LeadsTo (regex : Regex) : TrieNode H M → List Str → TrieNode H M → Prop
  | done (t) : LeadsTo regex t [] t
  | static {t key c seg segments u} (hchild : (key, c) ∈ t.children)
      (htype : c.value.type = .static) (hpart : c.value.part = seg)
      (hrest : LeadsTo regex c segments u) :
      LeadsTo regex t (seg :: segments) u
  | parameter {t key c seg segments u} (hchild : (key, c) ∈ t.children)
      (htype : c.value.type = .parameter) (hrest : LeadsTo regex c segments u) :
      LeadsTo regex t (seg :: segments) u
  | regex {t key c seg segments u} (hchild : (key, c) ∈ t.children) (htype : c.value.type = .regex)
      (hmatch : regex c.value.regexPattern seg = some true) (hrest : LeadsTo regex c segments u) :
      LeadsTo regex t (seg :: segments) u
  | wildcard {t key c seg segments} (hchild : (key, c) ∈ t.children)
      (htype : c.value.type = .wildcard) : LeadsTo regex t (seg :: segments) c

/-- A node with a handler at which the segments end, or an optional child there. -/
def Selectable (regex : Regex) (root : TrieNode H M) (segments : List Str) (node : Node H M) :
    Prop :=
  node.handler.isSome ∧ ∃ u, LeadsTo regex root segments u ∧
    (node = u.value ∨ ∃ key c, (key, c) ∈ u.children ∧ c.value.isOptional = true ∧ node = c.value)

/-- A tree of routes alone: its keys are distinct, nothing is mounted, and every node but the root
is found under its name. -/
structure Tidy (t : TrieNode H M) : Prop where
  distinct : t.Distinct
  unmounted : Unmounted t
  keyed : ∀ address key node, t.valueAt? (address ++ [key]) = some node → node.part = key

namespace Tidy

variable {t c : TrieNode H M} {key : Str}

theorem child?_eq (h : Tidy t) (hchild : (key, c) ∈ t.children) : t.child? key = some c :=
  (child?_eq_some_iff h.distinct.nodup).mpr hchild

theorem child (h : Tidy t) (hchild : (key, c) ∈ t.children) : Tidy c where
  distinct := h.distinct.child hchild
  unmounted := h.unmounted.child (h.child?_eq hchild)
  keyed address key' node hnode := by
    refine h.keyed (key :: address) key' node ?_
    rw [List.cons_append, valueAt?_cons, h.child?_eq hchild]
    exact hnode

theorem part_eq (h : Tidy t) (hchild : (key, c) ∈ t.children) : c.value.part = key := by
  refine h.keyed [] key c.value ?_
  rw [List.nil_append, valueAt?_cons, h.child?_eq hchild]
  rfl

theorem isStaticFiles_eq (h : Tidy t) : t.value.isStaticFiles = false :=
  h.unmounted [] _ valueAt?_nil

/-- A candidate of a child is one of the tree. -/
theorem exists_candidate_child {seg : Str} {segments rest : List Str} {node : Node H M}
    (h : Tidy t) (hchild : (key, c) ∈ t.children)
    (henters : Enters regex seg segments key c.value rest)
    (hbelow : ∃ address, Candidate regex c rest address node) :
    ∃ address, Candidate regex t (seg :: segments) address node := by
  obtain ⟨address, hbelow⟩ := hbelow
  exact ⟨key :: address, .child h.isStaticFiles_eq (h.child?_eq hchild) henters hbelow⟩

end Tidy

/-- Where the segments are consumed there are candidates. -/
theorem LeadsTo.exists_candidate {t u : TrieNode H M} {segments : List Str} {node : Node H M}
    (h : LeadsTo regex t segments u) (htidy : Tidy t)
    (hnode : Tidy u → ∃ address, Candidate regex u [] address node) :
    ∃ address, Candidate regex t segments address node := by
  induction h with
  | done t => exact hnode htidy
  | static hchild htype hpart _ ih =>
      have hname := (htidy.part_eq hchild).symm.trans hpart
      exact htidy.exists_candidate_child hchild (.name hname) (ih (htidy.child hchild) hnode)
  | parameter hchild htype _ ih =>
      exact htidy.exists_candidate_child hchild (.parameter htype) (ih (htidy.child hchild) hnode)
  | regex hchild htype hmatch _ ih =>
      exact htidy.exists_candidate_child hchild (.regex htype hmatch)
        (ih (htidy.child hchild) hnode)
  | wildcard hchild htype =>
      exact htidy.exists_candidate_child hchild (.wildcard htype) (hnode (htidy.child hchild))

/-- **Every selectable node is found.** -/
theorem Selectable.exists_mem_findMatches {t : TrieNode H M} {segments : List Str}
    {node : Node H M} (h : Selectable regex t segments node) (htidy : Tidy t) :
    ∃ m ∈ findMatches regex segments [] t, m.node = node := by
  obtain ⟨hhandler, u, hleads, hend⟩ := h
  have hcandidate : ∃ address, Candidate regex t segments address node := by
    refine hleads.exists_candidate htidy fun hu => ?_
    rcases hend with rfl | ⟨key, c, hchild, hoptional, rfl⟩
    · exact ⟨[], .handler hu.isStaticFiles_eq hhandler⟩
    · exact ⟨[key], .optional hu.isStaticFiles_eq (hu.child?_eq hchild) hoptional hhandler⟩
  obtain ⟨address, hcandidate⟩ := hcandidate
  exact ⟨⟨address, node⟩, (mem_findMatches_iff_candidate htidy.distinct).mpr
    ⟨address, rfl, hcandidate⟩, rfl⟩

/-! ## The match is a maximum -/

/-- What `match` returns if anything was found. -/
theorem exists_matchRoute_of_mem (lib : Library H M) {root : TrieNode H M} {path : Str}
    (params : Params) {m : Match H M} (hm : m ∈ findMatches lib.regex (splitPath path) [] root) :
    ∃ best ∈ findMatches lib.regex (splitPath path) [] root,
      (matchRoute lib root path params).1 = some best ∧
        ∀ m ∈ findMatches lib.regex (splitPath path) [] root,
          m.node.priority ≤ best.node.priority := by
  cases hsort : lib.sort (findMatches lib.regex (splitPath path) [] root) with
  | nil =>
      rw [sort_eq_nil.mp hsort] at hm
      cases hm
  | cons best others =>
      obtain ⟨hbest, hhighest⟩ := sort_cons hsort
      refine ⟨best, hbest, ?_, hhighest⟩
      unfold matchRoute
      dsimp only
      rw [hsort]

/-- `match` returns nothing only if nothing was found and the root is no catch-all. -/
theorem of_matchRoute_eq_none {lib : Library H M} {root : TrieNode H M} {path : Str}
    {params : Params} (h : (matchRoute lib root path params).1 = none) :
    findMatches lib.regex (splitPath path) [] root = [] ∧ root.value.isCatchAll = false := by
  unfold matchRoute at h
  dsimp only at h
  split at h
  · next hsort =>
    refine ⟨sort_eq_nil.mp hsort, ?_⟩
    split_ifs at h with hcatchAll
    exact Bool.eq_false_iff.mpr hcatchAll
  · cases h

variable {placement : Placement Str (Node H M)} {errorHandler : M}
  {regs : List (Registration H M)} {router : Router H M}

theorem mark_part (node : Node H M) (seg : Segment) : (node.mark seg).part = node.part := by
  obtain ⟨part, kind⟩ := seg
  cases kind <;> rfl

theorem Registration.atEnd_part (reg : Registration H M) (node : Node H M) :
    (reg.atEnd node).part = node.part := by
  cases reg with
  | route r => exact (r.leaf_atEnd.sameFace node).part
  | mount path baseDir => rfl

/-- Every node but the root is found under its name. -/
theorem Built.keyed (hbuilt : Built placement errorHandler regs router) (method : Str) :
    ∀ address, ∀ node ∈ (router.treeFor method).valueAt? address,
      ∀ key ∈ address.getLast?, node.part = key := by
  refine hbuilt.treeFor_induction (P := fun _ tree => ∀ address, ∀ node ∈ tree.valueAt? address,
    ∀ key ∈ address.getLast?, node.part = key) (fun address node hnode => ?_) ?_ ?_
  · cases address with
    | nil => exact nofun
    | cons key address => cases hnode
  · intro regs reg tree _ hdistinct ih
    refine forall_valueAt?_insert (P := fun address node =>
      ∀ key ∈ address.getLast?, node.part = key) hdistinct ?_ ?_ ih
    · intro address node hnode
      rw [reg.atEnd_part]
      exact hnode
    · intro step hstep address old hold key hkey
      obtain ⟨seg, -, rfl⟩ := List.mem_map.mp hstep
      change ((old.getD seg.node).mark seg).part = key
      rw [mark_part]
      cases old with
      | some node => exact hold node rfl key hkey
      | none => simpa [Segment.step, Segment.node] using hkey
  · exact fun _ _ _ _ ih => ih

theorem Built.tidy (hbuilt : Built placement errorHandler regs router) (hroutes : RoutesOnly regs)
    (method : Str) : Tidy (router.treeFor method) where
  distinct := hbuilt.distinct method
  unmounted address node hnode := by
    rw [Bool.eq_false_iff]
    intro hmount
    obtain ⟨path, hpath⟩ := hbuilt.mounted method address node hnode hmount
    obtain ⟨r, hr⟩ := hroutes _ hpath
    cases hr
  keyed address key node hnode :=
    hbuilt.keyed method _ node hnode key List.getLast?_concat

/-- **The search is complete and picks a maximum.**  In every tree of routes and for every path: if
a node is selectable the match is no less than all of them, and there is no match only if none is
and the root is no catch-all. -/
theorem Built.picksMaximum (hbuilt : Built placement errorHandler regs router)
    (hroutes : RoutesOnly regs) (lib : Library H M) (method path : Str) (params : Params) :
    ((∃ node, Selectable lib.regex (router.treeFor method) (splitPath path) node) →
      ∃ best, (matchRoute lib (router.treeFor method) path params).1 = some best ∧
        ∀ node, Selectable lib.regex (router.treeFor method) (splitPath path) node →
          node.priority ≤ best.node.priority) ∧
    ((matchRoute lib (router.treeFor method) path params).1 = none →
      (∀ node, ¬ Selectable lib.regex (router.treeFor method) (splitPath path) node) ∧
        (router.treeFor method).value.isCatchAll = false) := by
  have htidy := hbuilt.tidy hroutes method
  constructor
  · rintro ⟨node, hnode⟩
    obtain ⟨m, hm, -⟩ := hnode.exists_mem_findMatches htidy
    obtain ⟨best, -, hbest, hhighest⟩ := exists_matchRoute_of_mem lib params hm
    refine ⟨best, hbest, fun node hnode => ?_⟩
    obtain ⟨m, hm, rfl⟩ := hnode.exists_mem_findMatches htidy
    exact hhighest m hm
  · intro hnone
    obtain ⟨hempty, hcatchAll⟩ := of_matchRoute_eq_none hnone
    refine ⟨fun node hnode => ?_, hcatchAll⟩
    obtain ⟨m, hm, -⟩ := hnode.exists_mem_findMatches htidy
    rw [hempty] at hm
    cases hm

/-- A parameter and a wildcard for one path. -/
def filesRoutes : List (Registration ℕ Unit) :=
  [.route (getRoute "/files/:name" 0), .route (getRoute "/files/*all" 1)]

/-- The match for a file has at least the priority of a parameter. -/
theorem picksMaximum_files :
    Built .last () filesRoutes (.build .last () filesRoutes) ∧
      ∃ best, (matchRoute (.stable digits)
        ((Router.build .last () filesRoutes).treeFor (ascii "GET")) (ascii "/files/x")
          fun _ => none).1 = some best ∧ 2 ≤ best.node.priority := by
  have hbuilt : Built .last () filesRoutes (.build .last () filesRoutes) :=
    .add (.add .construct rfl) rfl
  have hroutes : RoutesOnly filesRoutes :=
    List.forall_mem_cons.mpr ⟨⟨_, rfl⟩, List.forall_mem_singleton.mpr ⟨_, rfl⟩⟩
  refine ⟨hbuilt, ?_⟩
  have hsegments : splitPath (ascii "/files/x") = [ascii "files", ascii "x"] := by decide +kernel
  obtain ⟨node, hselectable, hpriority⟩ : ∃ node, Selectable digits
      ((Router.build .last () filesRoutes).treeFor (ascii "GET")) (splitPath (ascii "/files/x"))
        node ∧ node.priority = 2 := by
    rw [hsegments]
    refine ⟨_, ⟨?_, _, .static List.mem_cons_self ?_ ?_
      (.parameter List.mem_cons_self ?_ (.done _)), .inl rfl⟩, ?_⟩
    all_goals rfl
  obtain ⟨best, hbest, hhighest⟩ := (hbuilt.picksMaximum hroutes (.stable digits) (ascii "GET")
    (ascii "/files/x") fun _ => none).1 ⟨node, hselectable⟩
  exact ⟨best, hbest, hpriority ▸ hhighest node hselectable⟩

end GinCpp.Routing
