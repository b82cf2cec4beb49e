import GinCpp.Routing.Router
import GinCpp.Routing.Search

/-!
# What the registrations leave in a tree

A node is shared by all the patterns that pass through its address, and shows the kind of the
segment that touched it last, under the type of the one that created it.  If patterns that share
bare names are `Compatible`, written alike there, this cannot be seen: every registered pattern
`Spells` its nodes, and the handler of a node is that of the last pattern registered for it.
-/

namespace GinCpp.Routing

open KeyedTree

variable {H M : Type}

/-! ## Patterns -/

/-- Two patterns are written alike as long as their bare names are the same. -/
def Compatible : List Segment → List Segment → Prop
  | seg :: pattern, seg' :: pattern' =>
      seg.part = seg'.part → seg = seg' ∧ Compatible pattern pattern'
  | _, _ => True

instance decidableCompatible : (pattern pattern' : List Segment) →
    Decidable (Compatible pattern pattern')
  | [], _ => .isTrue trivial
  | _ :: _, [] => .isTrue trivial
  | seg :: pattern, seg' :: pattern' =>
      have := decidableCompatible pattern pattern'
      inferInstanceAs (Decidable (seg.part = seg'.part → seg = seg' ∧ Compatible pattern pattern'))

theorem Compatible.eq {before before' after after' : List Segment} {seg seg' : Segment}
    (h : Compatible (before ++ seg :: after) (before' ++ seg' :: after'))
    (hbefore : before.map Segment.part = before'.map Segment.part)
    (hpart : seg.part = seg'.part) : seg = seg' := by
  induction before generalizing before' with
  | nil =>
      obtain rfl := List.map_eq_nil_iff.mp hbefore.symm
      exact (h hpart).1
  | cons first before ih =>
      cases before' with
      | nil => simp at hbefore
      | cons first' before' =>
          obtain ⟨hfirst, hbefore⟩ := List.cons.inj hbefore
          exact ih (h hfirst).2 hbefore

/-- The pattern of a route. -/
def Route.segments (r : Route H M) : List Segment := (readPath r.path).getD []

theorem segments_of_root {r : Route H M} (hroot : r.path = ascii "/") : r.segments = [] := by
  rw [Route.segments, hroot]
  decide

def Route.address (r : Route H M) : List Str := r.segments.map Segment.part

/-- The routes of a method among some registrations. -/
def routesOf (method : Str) (regs : List (Registration H M)) : List (Route H M) :=
  regs.filterMap fun
    | .route r => if r.method = method then some r else none
    | .mount _ _ => none

/-- Patterns of the method that share bare names are written alike there. -/
def NoClash (routes : List (Route H M)) : Prop :=
  ∀ r ∈ routes, ∀ r' ∈ routes, Compatible r.segments r'.segments

instance (routes : List (Route H M)) : Decidable (NoClash routes) :=
  inferInstanceAs (Decidable (∀ r ∈ routes, ∀ r' ∈ routes, Compatible r.segments r'.segments))

/-- A segment stands behind an address in the pattern of some route. -/
def StandsAt (routes : List (Route H M)) (address : List Str) (seg : Segment) : Prop :=
  ∃ r ∈ routes, ∃ before after, r.segments = before ++ seg :: after ∧
    before.map Segment.part = address

theorem StandsAt.mono {routes routes' : List (Route H M)} {address : List Str} {seg : Segment}
    (h : StandsAt routes address seg) (hsubset : routes ⊆ routes') :
    StandsAt routes' address seg := by
  obtain ⟨r, hr, hsegments⟩ := h
  exact ⟨r, hsubset hr, hsegments⟩

/-- No `add_static_route` call. -/
def RoutesOnly (regs : List (Registration H M)) : Prop := ∀ reg ∈ regs, ∃ r, reg = .route r

/-! ## Nodes -/

/-- A node shows the kind of a segment. -/
def Node.Shows (node : Node H M) (seg : Segment) : Prop :=
  node.part = seg.part ∧ node.type = seg.kind.type ∧ node.isOptional = seg.kind.isOptional ∧
    match seg.kind with
    | .static => True
    | .parameter _ defaultValue => node.defaultValue = defaultValue
    | .wildcard => node.isWildcard = true
    | .regex pattern => node.regexPattern = pattern

theorem Segment.shows_mark_node (seg : Segment) : ((seg.node : Node H M).mark seg).Shows seg := by
  obtain ⟨part, kind⟩ := seg
  cases kind <;> simp [Segment.node, Node.mark, Node.Shows, Kind.type, Kind.isOptional]

/-- A segment overwrites nothing where it is shown. -/
theorem Node.Shows.mark_eq {node : Node H M} {seg : Segment} (h : node.Shows seg) :
    node.mark seg = node := by
  obtain ⟨part, kind⟩ := seg
  obtain ⟨-, -, hoptional, hfields⟩ := h
  cases kind with
  | static => rfl
  | parameter isOptional defaultValue =>
      rw [Node.mark, ← hfields, ← (show node.isOptional = isOptional from hoptional)]
  | wildcard => rw [Node.mark, ← hfields]
  | regex pattern => rw [Node.mark, ← hfields]

/-- Two nodes show the same. -/
structure Node.SameFace (node node' : Node H M) : Prop where
  part : node.part = node'.part
  type : node.type = node'.type
  isOptional : node.isOptional = node'.isOptional
  defaultValue : node.defaultValue = node'.defaultValue
  isWildcard : node.isWildcard = node'.isWildcard
  regexPattern : node.regexPattern = node'.regexPattern

theorem Node.SameFace.shows {node node' : Node H M} {seg : Segment} (h : node.SameFace node')
    (hshows : node'.Shows seg) : node.Shows seg := by
  unfold Node.Shows
  rw [h.part, h.type, h.isOptional, h.defaultValue, h.isWildcard, h.regexPattern]
  exact hshows

/-- What the matcher reads of a node is the kind of some of the segments in a set, though not
necessarily of one of them. -/
structure Node.Blends (among : Segment → Prop) (node : Node H M) : Prop where
  type : ∃ seg, among seg ∧ seg.kind.type = node.type
  isOptional : node.isOptional = true → ∃ seg, among seg ∧ seg.kind.isOptional = true
  regexPattern : node.type = .regex → ∃ seg, among seg ∧ seg.kind = .regex node.regexPattern

namespace Node.Blends

variable {among among' : Segment → Prop} {node node' : Node H M} {seg : Segment}

theorem imp (h : node.Blends among) (himp : ∀ seg, among seg → among' seg) :
    node.Blends among' where
  type := h.type.imp fun seg hseg => ⟨himp seg hseg.1, hseg.2⟩
  isOptional hoptional := (h.isOptional hoptional).imp fun seg hseg => ⟨himp seg hseg.1, hseg.2⟩
  regexPattern htype := (h.regexPattern htype).imp fun seg hseg => ⟨himp seg hseg.1, hseg.2⟩

theorem congr (h : node.Blends among) (hface : node'.SameFace node) : node'.Blends among := by
  refine ⟨?_, ?_, ?_⟩
  · rw [hface.type]
    exact h.type
  · rw [hface.isOptional]
    exact h.isOptional
  · rw [hface.type, hface.regexPattern]
    exact h.regexPattern

/-- One more segment passes through the node. -/
theorem mark (h : node.Blends among) (hseg : among seg) : (node.mark seg).Blends among := by
  obtain ⟨part, kind⟩ := seg
  cases kind with
  | static => exact h
  | parameter isOptional defaultValue =>
      exact ⟨h.type, fun hoptional => ⟨_, hseg, hoptional⟩, h.regexPattern⟩
  | wildcard => exact ⟨h.type, h.isOptional, h.regexPattern⟩
  | regex pattern => exact ⟨h.type, h.isOptional, fun _ => ⟨_, hseg, rfl⟩⟩

theorem mark_node (hseg : among seg) : ((seg.node : Node H M).mark seg).Blends among := by
  obtain ⟨part, kind⟩ := seg
  cases kind with
  | static => exact ⟨⟨_, hseg, rfl⟩, nofun, nofun⟩
  | parameter isOptional defaultValue =>
      exact ⟨⟨_, hseg, rfl⟩, fun hoptional => ⟨_, hseg, hoptional⟩, nofun⟩
  | wildcard => exact ⟨⟨_, hseg, rfl⟩, nofun, nofun⟩
  | regex pattern => exact ⟨⟨_, hseg, rfl⟩, nofun, fun _ => ⟨_, hseg, rfl⟩⟩

end Node.Blends

/-- Every node below an address is on the way of some routes, and blends their segments there. -/
def Blended (routes : List (Route H M)) (address : List Str) (t : TrieNode H M) : Prop :=
  ∀ below k node, t.valueAt? (below ++ [k]) = some node →
    node.Blends fun seg => StandsAt routes (address ++ below) seg ∧ seg.part = k

namespace Blended

variable {routes : List (Route H M)} {address : List Str} {t c : TrieNode H M} {key : Str}

theorem value (h : Blended routes address t) (hchild : t.child? key = some c) :
    c.value.Blends fun seg => StandsAt routes address seg ∧ seg.part = key := by
  have hvalue : t.valueAt? ([] ++ [key]) = some c.value := by
    rw [List.nil_append, valueAt?_cons, hchild]
    rfl
  exact List.append_nil address ▸ h [] key c.value hvalue

theorem child (h : Blended routes address t) (hchild : t.child? key = some c) :
    Blended routes (address ++ [key]) c := by
  intro below k node hnode
  rw [List.append_assoc]
  refine h (key :: below) k node ?_
  rw [List.cons_append, valueAt?_cons, hchild]
  exact hnode

end Blended

/-- The pattern leads through nodes that show its segments. -/
inductive Spells : TrieNode H M → List Segment → TrieNode H M → Prop
  | nil {t} : Spells t [] t
  | cons {t c u seg pattern} : t.child? seg.part = some c → c.value.Shows seg →
      Spells c pattern u → Spells t (seg :: pattern) u

/-- No node of the tree is a mount. -/
def Unmounted (t : TrieNode H M) : Prop :=
  ∀ address node, t.valueAt? address = some node → node.isStaticFiles = false

theorem Unmounted.child {t c : TrieNode H M} {key : Str} (h : Unmounted t)
    (hchild : t.child? key = some c) : Unmounted c := by
  intro address node hnode
  refine h (key :: address) node ?_
  rw [valueAt?_cons, hchild]
  exact hnode

/-- What routes leave in the tree of their method, however they are written. -/
structure Imprinted (tree : TrieNode H M) (routes : List (Route H M)) : Prop where
  distinct : tree.Distinct
  blended : Blended routes [] tree
  /-- Every pattern has its node. -/
  present : ∀ r ∈ routes, (tree.valueAt? r.address).isSome
  /-- A handler is that of the last route with the address. -/
  latest : ∀ address node h, tree.valueAt? address = some node → node.handler = some h →
    ∃ before r after, routes = before ++ r :: after ∧ r.address = address ∧
      r.handler = some h ∧ ∀ q ∈ after, q.address ≠ address
  unmounted : Unmounted tree
  /-- The root is not optional. -/
  required : tree.value.isOptional = false

/-- What routes that are written alike leave there. -/
structure Invariant (tree : TrieNode H M) (routes : List (Route H M)) : Prop
    extends Imprinted tree routes where
  /-- Every node is on the way of a pattern whose segment it shows. -/
  shown : ∀ address k node, tree.valueAt? (address ++ [k]) = some node →
    ∃ r ∈ routes, ∃ before seg after, r.segments = before ++ seg :: after ∧
      before.map Segment.part = address ∧ seg.part = k ∧ node.Shows seg

/-! ## One more route -/

section Insert

variable {placement : Placement Str (Node H M)} {leaf : Node H M → Node H M}
  {tree : TrieNode H M} {pattern : List Segment}

/-- The walk of `add_route`. -/
abbrev walk (placement : Placement Str (Node H M)) (leaf : Node H M → Node H M)
    (pattern : List Segment) (tree : TrieNode H M) : TrieNode H M :=
  tree.insert placement leaf (pattern.map Segment.step)

theorem map_fst_step (pattern : List Segment) :
    (pattern.map (Segment.step (H := H) (M := M))).map Prod.fst = pattern.map Segment.part := by
  rw [List.map_map]
  rfl

/-- An address on the way of a pattern. -/
theorem exists_onWay {address : List Str} (h : address <+: pattern.map Segment.part) :
    address = [] ∨ ∃ before seg after, pattern = before ++ seg :: after ∧
      address = before.map Segment.part ++ [seg.part] := by
  have htake : address = (pattern.take address.length).map Segment.part := by
    rw [List.map_take]
    exact List.prefix_iff_eq_take.mp h
  rcases List.eq_nil_or_concat' (pattern.take address.length) with hnil | ⟨before, seg, hconcat⟩
  · exact Or.inl (by rw [htake, hnil, List.map_nil])
  · refine Or.inr ⟨before, seg, pattern.drop address.length, ?_, ?_⟩
    · rw [List.append_cons, ← hconcat, List.take_append_drop]
    · rw [htake, hconcat, List.map_append, List.map_cons, List.map_nil]

/-- Where the value at an address comes from. -/
theorem valueAt?_walk (hdistinct : tree.Distinct) {address : List Str} {node : Node H M}
    (h : (walk placement leaf pattern tree).valueAt? address = some node) :
    (tree.valueAt? address = some node ∧ ¬ address <+: pattern.map Segment.part) ∨
    (address = [] ∧ node = (if pattern = [] then leaf else id) tree.value) ∨
    ∃ before seg after, pattern = before ++ seg :: after ∧
      address = before.map Segment.part ++ [seg.part] ∧
      node = (if after = [] then leaf else id)
        (((tree.valueAt? address).getD seg.node).mark seg) := by
  by_cases hway : address <+: pattern.map Segment.part
  · refine Or.inr ?_
    rcases exists_onWay hway with rfl | ⟨before, seg, after, rfl, rfl⟩
    · refine Or.inl ⟨rfl, ?_⟩
      cases pattern with
      | nil => exact (Option.some_inj.mp h).symm
      | cons seg pattern =>
          rw [valueAt?_nil, Option.some_inj] at h
          exact h.symm.trans value_insert_cons
    · refine Or.inr ⟨before, seg, after, rfl, rfl, ?_⟩
      have hvalue : (walk placement leaf (before ++ seg :: after) tree).valueAt?
          (before.map Segment.part ++ [seg.part]) =
            some ((if after.map (Segment.step (H := H) (M := M)) = [] then leaf else id)
              (seg.step.2 (tree.valueAt? (before.map Segment.part ++ [seg.part])))) := by
        rw [walk, List.map_append, List.map_cons, ← map_fst_step (H := H) (M := M) before]
        exact valueAt?_insert_append hdistinct _
      simp only [List.map_eq_nil_iff] at hvalue
      exact Option.some_inj.mp (h.symm.trans hvalue)
  · refine Or.inl ⟨?_, hway⟩
    rwa [walk, valueAt?_insert_off hdistinct (by rwa [map_fst_step])] at h

/-- The nodes that were there, and those on the way. -/
theorem isSome_valueAt?_walk (hdistinct : tree.Distinct) {address : List Str}
    (h : (tree.valueAt? address).isSome ∨ address <+: pattern.map Segment.part) :
    ((walk placement leaf pattern tree).valueAt? address).isSome := by
  by_cases hway : address <+: pattern.map Segment.part
  · rcases exists_onWay hway with rfl | ⟨before, seg, after, rfl, rfl⟩
    · rfl
    · rw [walk, List.map_append, List.map_cons, ← map_fst_step (H := H) (M := M) before]
      exact Option.isSome_of_eq_some (valueAt?_insert_append hdistinct _)
  · rw [walk, valueAt?_insert_off hdistinct (by rwa [map_fst_step])]
    exact h.resolve_right hway

/-- The node at the end of a walk. -/
theorem exists_valueAt?_walk_end (placement : Placement Str (Node H M))
    (leaf : Node H M → Node H M) (pattern : List Segment) (hdistinct : tree.Distinct) :
    ∃ node, (walk placement leaf pattern tree).valueAt? (pattern.map Segment.part) =
      some (leaf node) := by
  obtain ⟨node, hnode⟩ := Option.isSome_iff_exists.mp
    (isSome_valueAt?_walk hdistinct (.inr (List.prefix_refl (pattern.map Segment.part))) :
      ((walk placement leaf pattern tree).valueAt? (pattern.map Segment.part)).isSome)
  rw [hnode]
  rcases valueAt?_walk hdistinct hnode with ⟨-, hoff⟩ | ⟨hnil, rfl⟩ |
    ⟨before, seg, after, rfl, haddress, rfl⟩
  · exact absurd List.prefix_rfl hoff
  · rw [if_pos (List.map_eq_nil_iff.mp hnil)]
    exact ⟨_, rfl⟩
  · have hafter : after = [] := by
      have hlength := congrArg List.length haddress
      exact List.eq_nil_of_length_eq_zero (by simpa using hlength)
    rw [if_pos hafter]
    exact ⟨_, rfl⟩

/-- A change of the node at the end of a route. -/
structure Leaf (r : Route H M) (leaf : Node H M → Node H M) : Prop where
  handler : ∀ node, (leaf node).handler = r.handler
  sameFace : ∀ node, (leaf node).SameFace node
  isStaticFiles : ∀ node, (leaf node).isStaticFiles = node.isStaticFiles

/-- What `add_route` does to the node at the end of its pattern. -/
def Route.atEnd (r : Route H M) : Node H M → Node H M :=
  if r.path = ascii "/" then .catchAll r.handler r.middlewares
  else .register r.handler r.middlewares r.priority

theorem Route.leaf_atEnd (r : Route H M) : Leaf r r.atEnd := by
  unfold Route.atEnd
  split_ifs
  · exact ⟨fun _ => rfl, fun _ => ⟨rfl, rfl, rfl, rfl, rfl, rfl⟩, fun _ => rfl⟩
  · exact ⟨fun _ => rfl, fun _ => ⟨rfl, rfl, rfl, rfl, rfl, rfl⟩, fun _ => rfl⟩

theorem mark_handler (node : Node H M) (seg : Segment) :
    (node.mark seg).handler = node.handler := by
  obtain ⟨part, kind⟩ := seg
  cases kind <;> rfl

theorem mark_isStaticFiles (node : Node H M) (seg : Segment) :
    (node.mark seg).isStaticFiles = node.isStaticFiles := by
  obtain ⟨part, kind⟩ := seg
  cases kind <;> rfl

end Insert

namespace Imprinted

variable {placement : Placement Str (Node H M)} {leaf : Node H M → Node H M}
  {tree : TrieNode H M} {routes : List (Route H M)}

/-- An empty tree has a root alone. -/
theorem valueAt?_root_concat (address : List Str) (k : Str) :
    TrieNode.root.valueAt? (address ++ [k]) = (none : Option (Node H M)) := by
  cases address with
  | nil => rfl
  | cons first address => rfl

theorem root : Imprinted (TrieNode.root : TrieNode H M) [] where
  distinct := .mk List.nodup_nil nofun
  blended address k node h := by
    rw [valueAt?_root_concat] at h
    cases h
  present := nofun
  latest address node h hnode hhandler := by
    cases address with
    | nil =>
        obtain rfl := Option.some_inj.mp hnode
        cases hhandler
    | cons k address => cases hnode
  unmounted address node hnode := by
    cases address with
    | nil =>
        obtain rfl := Option.some_inj.mp hnode
        rfl
    | cons k address => cases hnode
  required := rfl

theorem blended_walk (h : Imprinted tree routes) {r : Route H M} (hleaf : Leaf r leaf)
    (address : List Str) (k : Str) (node : Node H M)
    (hnode : (walk placement leaf r.segments tree).valueAt? (address ++ [k]) = some node) :
    node.Blends fun seg => StandsAt (routes ++ [r]) address seg ∧ seg.part = k := by
  have holder : ∀ seg, StandsAt routes address seg ∧ seg.part = k →
      StandsAt (routes ++ [r]) address seg ∧ seg.part = k := fun seg hseg =>
    ⟨hseg.1.mono (List.subset_append_left routes [r]), hseg.2⟩
  rcases valueAt?_walk h.distinct hnode with ⟨hold, -⟩ | ⟨hnil, -⟩ |
    ⟨before, seg, after, hsegments, haddress, rfl⟩
  · exact (h.blended address k node hold).imp holder
  · simp at hnil
  · obtain ⟨hbefore, hk⟩ := List.append_inj' haddress rfl
    have hseg : StandsAt (routes ++ [r]) address seg ∧ seg.part = k :=
      ⟨⟨r, by simp, before, after, hsegments, hbefore.symm⟩, by simpa using hk.symm⟩
    have hmarked : (((tree.valueAt? (address ++ [k])).getD seg.node).mark seg).Blends
        fun seg => StandsAt (routes ++ [r]) address seg ∧ seg.part = k := by
      cases hold : tree.valueAt? (address ++ [k]) with
      | none => exact .mark_node hseg
      | some old => exact ((h.blended address k old hold).imp holder).mark hseg
    split_ifs
    · exact hmarked.congr (hleaf.sameFace _)
    · exact hmarked

/-- A later route with another address does not change who was last. -/
theorem latest_append {address : List Str} {h : H} {r : Route H M}
    (hlatest : ∃ before q after, routes = before ++ q :: after ∧ q.address = address ∧
      q.handler = some h ∧ ∀ q' ∈ after, q'.address ≠ address) (hne : r.address ≠ address) :
    ∃ before q after, routes ++ [r] = before ++ q :: after ∧ q.address = address ∧
      q.handler = some h ∧ ∀ q' ∈ after, q'.address ≠ address := by
  obtain ⟨before, q, after, rfl, haddress, hhandler, hafter⟩ := hlatest
  refine ⟨before, q, after ++ [r], by simp, haddress, hhandler, ?_⟩
  intro q' hq'
  rcases List.mem_append.mp hq' with hq' | hq'
  · exact hafter q' hq'
  · rw [List.mem_singleton.mp hq']
    exact hne

theorem latest_walk (h : Imprinted tree routes) {r : Route H M} (hleaf : Leaf r leaf)
    (address : List Str) (node : Node H M) (handler : H)
    (hnode : (walk placement leaf r.segments tree).valueAt? address = some node)
    (hhandler : node.handler = some handler) :
    ∃ before q after, routes ++ [r] = before ++ q :: after ∧ q.address = address ∧
      q.handler = some handler ∧ ∀ q' ∈ after, q'.address ≠ address := by
  rcases valueAt?_walk h.distinct hnode with ⟨hold, hoff⟩ | ⟨rfl, rfl⟩ |
    ⟨before, seg, after, hsegments, haddress, rfl⟩
  · refine latest_append (h.latest address node handler hold hhandler) ?_
    rintro rfl
    exact hoff List.prefix_rfl
  · by_cases hnil : r.segments = []
    · rw [if_pos hnil, hleaf.handler] at hhandler
      exact ⟨routes, r, [], rfl, by rw [Route.address, hnil, List.map_nil], hhandler, nofun⟩
    · rw [if_neg hnil] at hhandler
      refine latest_append (h.latest [] _ handler valueAt?_nil hhandler) ?_
      rwa [Route.address, Ne, List.map_eq_nil_iff]
  · have hroute : r.address = address ++ after.map Segment.part := by
      rw [Route.address, hsegments, haddress]
      simp
    by_cases hnil : after = []
    · rw [if_pos hnil, hleaf.handler] at hhandler
      exact ⟨routes, r, [], rfl, by rw [hroute, hnil]; simp, hhandler, nofun⟩
    · rw [if_neg hnil, id_eq, mark_handler] at hhandler
      cases hold : tree.valueAt? address with
      | none =>
          rw [hold] at hhandler
          cases hhandler
      | some old =>
          rw [hold] at hhandler
          refine latest_append (h.latest address old handler hold hhandler) ?_
          rw [hroute]
          simpa using hnil

theorem unmounted_walk (h : Imprinted tree routes) {r : Route H M} (hleaf : Leaf r leaf) :
    Unmounted (walk placement leaf r.segments tree) := by
  intro address node hnode
  rcases valueAt?_walk h.distinct hnode with ⟨hold, -⟩ | ⟨-, rfl⟩ | ⟨-, seg, after, -, -, rfl⟩
  · exact h.unmounted address node hold
  · have hroot : tree.value.isStaticFiles = false := h.unmounted [] _ valueAt?_nil
    split_ifs
    · rw [hleaf.isStaticFiles, hroot]
    · exact hroot
  · have hmark : (((tree.valueAt? address).getD seg.node).mark seg).isStaticFiles = false := by
      rw [mark_isStaticFiles]
      cases hold : tree.valueAt? address with
      | none => rfl
      | some old => exact h.unmounted address old hold
    split_ifs
    · rw [hleaf.isStaticFiles, hmark]
    · exact hmark

theorem required_walk (h : Imprinted tree routes) {r : Route H M} (hleaf : Leaf r leaf) :
    (walk placement leaf r.segments tree).value.isOptional = false := by
  cases r.segments with
  | nil => exact (hleaf.sameFace _).isOptional.trans h.required
  | cons seg pattern => exact (congrArg Node.isOptional value_insert_cons).trans h.required

/-- **`add_route` keeps what others have left.** -/
theorem walk (h : Imprinted tree routes) {r : Route H M} (hleaf : Leaf r leaf) :
    Imprinted (Routing.walk placement leaf r.segments tree) (routes ++ [r]) where
  distinct := h.distinct.insert
  blended := h.blended_walk hleaf
  present q hq := by
    rcases List.mem_append.mp hq with hq | hq
    · exact isSome_valueAt?_walk h.distinct (Or.inl (h.present q hq))
    · obtain rfl := List.mem_singleton.mp hq
      exact isSome_valueAt?_walk h.distinct (Or.inr List.prefix_rfl)
  latest := h.latest_walk hleaf
  unmounted := h.unmounted_walk hleaf
  required := h.required_walk hleaf

end Imprinted

namespace Invariant

variable {placement : Placement Str (Node H M)} {leaf : Node H M → Node H M}
  {tree : TrieNode H M} {routes : List (Route H M)}

theorem root : Invariant (TrieNode.root : TrieNode H M) [] where
  toImprinted := .root
  shown address k node h := by
    rw [Imprinted.valueAt?_root_concat] at h
    cases h

/-- The node at an address on the way of a compatible pattern shows that pattern's segment. -/
theorem shows_of_compatible (h : Invariant tree routes) {before after : List Segment}
    {seg : Segment} (hcompatible : ∀ q ∈ routes, Compatible q.segments (before ++ seg :: after))
    {node : Node H M}
    (hnode : tree.valueAt? (before.map Segment.part ++ [seg.part]) = some node) :
    node.Shows seg := by
  obtain ⟨q, hq, before', seg', after', hsegments, hbefore, hpart, hshows⟩ := h.shown _ _ _ hnode
  have hsame : seg' = seg :=
    (hsegments ▸ hcompatible q hq : Compatible (before' ++ seg' :: after') _).eq hbefore hpart
  exact hsame ▸ hshows

theorem shown_walk (h : Invariant tree routes) {r : Route H M}
    (hcompatible : ∀ q ∈ routes, Compatible q.segments r.segments) (hleaf : Leaf r leaf)
    (address : List Str) (k : Str) (node : Node H M)
    (hnode : (walk placement leaf r.segments tree).valueAt? (address ++ [k]) = some node) :
    ∃ q ∈ routes ++ [r], ∃ before seg after, q.segments = before ++ seg :: after ∧
      before.map Segment.part = address ∧ seg.part = k ∧ node.Shows seg := by
  rcases valueAt?_walk h.distinct hnode with ⟨hold, -⟩ | ⟨hnil, -⟩ |
    ⟨before, seg, after, hsegments, haddress, rfl⟩
  · obtain ⟨q, hq, hshown⟩ := h.shown address k node hold
    exact ⟨q, List.mem_append_left _ hq, hshown⟩
  · simp at hnil
  · obtain ⟨hbefore, hk⟩ := List.append_inj' haddress rfl
    refine ⟨r, by simp, before, seg, after, hsegments, hbefore.symm, by simpa using hk.symm, ?_⟩
    -- the node is new, or an earlier pattern has made it show this very segment
    have hshows : (((tree.valueAt? (address ++ [k])).getD seg.node).mark seg).Shows seg := by
      cases hold : tree.valueAt? (address ++ [k]) with
      | none => exact seg.shows_mark_node
      | some old =>
          have hshows := h.shows_of_compatible (hsegments ▸ hcompatible) (haddress ▸ hold)
          rwa [Option.getD_some, hshows.mark_eq]
    split_ifs
    · exact (hleaf.sameFace _).shows hshows
    · exact hshows

/-- **`add_route` keeps the invariant**, if the new pattern is written as the old ones are. -/
theorem walk (h : Invariant tree routes) {r : Route H M}
    (hcompatible : ∀ q ∈ routes, Compatible q.segments r.segments) (hleaf : Leaf r leaf) :
    Invariant (Routing.walk placement leaf r.segments tree) (routes ++ [r]) where
  toImprinted := h.toImprinted.walk hleaf
  shown := h.shown_walk hcompatible hleaf

end Invariant

/-! ## Spelling -/

namespace Spells

variable {t u : TrieNode H M} {seg : Segment} {pattern : List Segment}

theorem cons_iff : Spells t (seg :: pattern) u ↔
    ∃ c, t.child? seg.part = some c ∧ c.value.Shows seg ∧ Spells c pattern u := by
  constructor
  · rintro ⟨⟩
    exact ⟨_, by assumption, by assumption, by assumption⟩
  · rintro ⟨c, hchild, hshows, hspells⟩
    exact .cons hchild hshows hspells

theorem valueAt? (h : Spells t pattern u) :
    t.valueAt? (pattern.map Segment.part) = some u.value := by
  induction h with
  | nil => rfl
  | cons hchild _ _ ih =>
      rw [List.map_cons, valueAt?_cons, hchild]
      exact ih

end Spells

/-- A pattern spells its nodes if they are there and show its segments. -/
theorem exists_spells {t : TrieNode H M} {pattern : List Segment}
    (hpresent : (t.valueAt? (pattern.map Segment.part)).isSome)
    (hshows : ∀ before seg after node, pattern = before ++ seg :: after →
      t.valueAt? (before.map Segment.part ++ [seg.part]) = some node → node.Shows seg) :
    ∃ u, Spells t pattern u := by
  induction pattern generalizing t with
  | nil => exact ⟨t, .nil⟩
  | cons seg pattern ih =>
      rw [List.map_cons, valueAt?_cons] at hpresent
      cases hchild : t.child? seg.part with
      | none =>
          rw [hchild] at hpresent
          cases hpresent
      | some c =>
          rw [hchild] at hpresent
          have hfirst : t.valueAt? [seg.part] = some c.value := by
            rw [valueAt?_cons, hchild]
            rfl
          obtain ⟨u, hspells⟩ := ih hpresent fun before seg' after node hpattern hnode => by
            refine hshows (seg :: before) seg' after node (congrArg (seg :: ·) hpattern) ?_
            rw [List.map_cons, List.cons_append, valueAt?_cons, hchild]
            exact hnode
          exact ⟨u, .cons hchild (hshows [] seg pattern _ rfl hfirst) hspells⟩

/-- **Every pattern spells its nodes.** -/
theorem Invariant.spells {tree : TrieNode H M} {routes : List (Route H M)}
    (h : Invariant tree routes) (hclash : NoClash routes) {r : Route H M} (hr : r ∈ routes) :
    ∃ u, Spells tree r.segments u := by
  refine exists_spells (h.present r hr) fun before seg after node hsegments hnode => ?_
  exact h.shows_of_compatible (fun q hq => hsegments ▸ hclash q hq r hr) hnode

/-! ## Every run -/

namespace Router

variable {router router' : Router H M} {method : Str}

theorem tree?_setTree (tree : TrieNode H M) (method' : Str) :
    (router.setTree method tree).tree? method' =
      if method' = method then some tree else router.tree? method' := by
  cases hfirst : router.trees.find? (·.1 = method) with
  | some old =>
      have hsome : (router.tree? method).isSome := by rw [tree?, hfirst]; rfl
      have htrees : (router.setTree method tree).trees =
          router.trees.map fun kv => if kv.1 = method then (method, tree) else kv := if_pos hsome
      have hkey : ∀ kv : Str × TrieNode H M,
          (if kv.1 = method then (method, tree) else kv).1 = kv.1 := by
        intro kv
        split_ifs with hkv
        · exact hkv.symm
        · rfl
      rw [tree?, htrees, List.find?_map, Option.map_map]
      simp only [Function.comp_def, hkey]
      split_ifs with hmethod
      · rw [hmethod, hfirst, Option.map_some, if_pos (by simpa using List.find?_some hfirst)]
      · refine Option.map_congr fun kv hkv => ?_
        have hfound : kv.1 = method' := by simpa using List.find?_some hkv
        rw [if_neg (hfound ▸ hmethod)]
  | none =>
      have hnone : ¬ (router.tree? method).isSome := by rw [tree?, hfirst]; simp
      have htrees : (router.setTree method tree).trees = router.trees ++ [(method, tree)] :=
        if_neg hnone
      rw [tree?, htrees, List.find?_append]
      split_ifs with hmethod
      · rw [hmethod, hfirst]
        simp
      · have hother : [(method, tree)].find? (·.1 = method') = none := by
          simpa using Ne.symm hmethod
        rw [hother, Option.or_none, tree?]

theorem treeFor_setTree (tree : TrieNode H M) (method' : Str) :
    (router.setTree method tree).treeFor method' =
      if method' = method then tree else router.treeFor method' := by
  rw [treeFor, tree?_setTree]
  split_ifs
  · rfl
  · rfl

theorem trees_nameRoute (r : Route H M) : (router.nameRoute r).trees = router.trees := by
  unfold nameRoute
  split_ifs <;> rfl

end Router

namespace Registration

/-- The method whose tree is changed. -/
def method : Registration H M → Str
  | .route r => r.method
  | .mount _ _ => ascii "GET"

/-- The pattern that is walked along. -/
def pattern : Registration H M → List Segment
  | .route r => r.segments
  | .mount path _ => (splitPath path).map fun seg => ⟨seg, .static⟩

/-- The change of the node at the end. -/
def atEnd : Registration H M → Node H M → Node H M
  | .route r => r.atEnd
  | .mount _ baseDir => .mount baseDir

end Registration

/-- **A registration walks along its pattern** in the tree of its method and leaves the other
trees alone. -/
theorem Router.treeFor_add {placement : Placement Str (Node H M)} {router router' : Router H M}
    {reg : Registration H M} (h : router.add placement reg = .ok router') (method : Str) :
    router'.treeFor method =
      if method = reg.method then walk placement reg.atEnd reg.pattern (router.treeFor reg.method)
      else router.treeFor method := by
  cases reg with
  | mount path baseDir =>
      obtain rfl := Except.ok.inj h
      have hsteps : (splitPath path).map mountStep =
          (((splitPath path).map fun seg => ⟨seg, .static⟩).map Segment.step :
            List (Str × (Option (Node H M) → Node H M))) := by
        rw [List.map_map]
        rfl
      rw [addStaticRoute, treeFor_setTree, TrieNode.addStaticRoute, hsteps]
      rfl
  | route r =>
      have htreeFor : ∀ method, (router.nameRoute r).treeFor method = router.treeFor method := by
        intro method
        rw [treeFor, treeFor, tree?, tree?, trees_nameRoute]
      simp only [add, addRoute] at h
      split_ifs at h with hname hpath
      · obtain rfl := Except.ok.inj h
        rw [treeFor_setTree, htreeFor, htreeFor, Registration.pattern, segments_of_root hpath,
          Registration.atEnd, Route.atEnd, if_pos hpath]
        rfl
      · cases hread : readPath r.path with
        | none =>
            rw [hread] at h
            cases h
        | some segments =>
            rw [hread] at h
            obtain rfl := Except.ok.inj h
            rw [treeFor_setTree, htreeFor, htreeFor, Registration.pattern, Route.segments, hread,
              Option.getD_some, Registration.atEnd, Route.atEnd, if_neg hpath]
            rfl

theorem routesOf_append (method : Str) (regs : List (Registration H M)) (r : Route H M) :
    routesOf method (regs ++ [.route r]) =
      routesOf method regs ++ if r.method = method then [r] else [] := by
  rw [routesOf, List.filterMap_append]
  congr 1
  split_ifs with h
  · simp [h]
  · simp [h]

section Trees

variable {placement : Placement Str (Node H M)} {errorHandler : M}
  {regs : List (Registration H M)} {router : Router H M} {method : Str}

theorem Built.distinct (hbuilt : Built placement errorHandler regs router) (method : Str) :
    (router.treeFor method).Distinct := by
  induction hbuilt with
  | construct => exact Invariant.root.distinct
  | use middleware hbuilt ih => exact ih
  | @add regs router reg router' hbuilt hadd ih =>
      rw [Router.treeFor_add hadd]
      split_ifs with hmethod
      · exact (hmethod ▸ ih).insert
      · exact ih

/-- **The rule for the tree of a method.**  What holds of an empty tree, is kept by every
registration of this method and does not mind the others holds of the tree. -/
theorem Built.treeFor_induction {P : List (Registration H M) → TrieNode H M → Prop}
    (hbuilt : Built placement errorHandler regs router) (hroot : P [] .root)
    (hadd : ∀ regs reg tree, reg.method = method → tree.Distinct → P regs tree →
      P (regs ++ [reg]) (walk placement reg.atEnd reg.pattern tree))
    (hother : ∀ regs reg tree, reg.method ≠ method → P regs tree → P (regs ++ [reg]) tree) :
    P regs (router.treeFor method) := by
  induction hbuilt with
  | construct => exact hroot
  | use middleware hbuilt ih => exact ih
  | @add regs router reg router' hbuilt hreg ih =>
      rw [Router.treeFor_add hreg]
      split_ifs with hmethod
      · exact hadd regs reg _ hmethod.symm (hbuilt.distinct _) (hmethod ▸ ih)
      · exact hother regs reg _ (Ne.symm hmethod) ih

/-- **The trees of a router built by `add_route` calls alone.** -/
theorem Built.imprinted (hbuilt : Built placement errorHandler regs router)
    (hroutes : RoutesOnly regs) :
    Imprinted (router.treeFor method) (routesOf method regs) := by
  refine hbuilt.treeFor_induction (P := fun regs tree => RoutesOnly regs →
    Imprinted tree (routesOf method regs)) (fun _ => Imprinted.root) ?_ ?_ hroutes
  · intro regs reg tree hmethod _ ih hroutes
    obtain ⟨r, rfl⟩ := hroutes reg (by simp)
    rw [routesOf_append, if_pos (show r.method = method from hmethod)]
    exact (ih fun reg hreg => hroutes reg (List.mem_append_left _ hreg)).walk r.leaf_atEnd
  · intro regs reg tree hmethod ih hroutes
    obtain ⟨r, rfl⟩ := hroutes reg (by simp)
    rw [routesOf_append, if_neg (show ¬ r.method = method from hmethod), List.append_nil]
    exact ih fun reg hreg => hroutes reg (List.mem_append_left _ hreg)

/-- Where they are written alike. -/
theorem Built.invariant (hbuilt : Built placement errorHandler regs router)
    (hroutes : RoutesOnly regs) (hclash : NoClash (routesOf method regs)) :
    Invariant (router.treeFor method) (routesOf method regs) := by
  refine hbuilt.treeFor_induction (P := fun regs tree => RoutesOnly regs →
    NoClash (routesOf method regs) → Invariant tree (routesOf method regs))
    (fun _ _ => Invariant.root) ?_ ?_ hroutes hclash
  · intro regs reg tree hmethod _ ih hroutes hclash
    obtain ⟨r, rfl⟩ := hroutes reg (by simp)
    rw [routesOf_append, if_pos (show r.method = method from hmethod)] at hclash ⊢
    have hold := ih (fun reg hreg => hroutes reg (List.mem_append_left _ hreg))
      fun q hq q' hq' => hclash q (List.mem_append_left _ hq) q' (List.mem_append_left _ hq')
    exact hold.walk (fun q hq => hclash q (by simp [hq]) r (by simp)) r.leaf_atEnd
  · intro regs reg tree hmethod ih hroutes hclash
    obtain ⟨r, rfl⟩ := hroutes reg (by simp)
    rw [routesOf_append, if_neg (show ¬ r.method = method from hmethod), List.append_nil]
      at hclash ⊢
    exact ih (fun reg hreg => hroutes reg (List.mem_append_left _ hreg)) hclash

end Trees

namespace Router

variable {lib : Library H M} {router : Router H M} {params params' : Params}

/-- An empty tree finds nothing. -/
theorem matchRoute_root (lib : Library H M) (path : Str) (params : Params) :
    RouteMatcher.matchRoute lib .root path params = (none, params) := by
  have hempty : RouteMatcher.findMatches lib.regex (splitPath path) [] (.root : TrieNode H M) =
      [] := by
    cases splitPath path <;> rfl
  have hsort : lib.sort [] = [] := RouteMatcher.sort_eq_nil.mpr rfl
  simp only [RouteMatcher.matchRoute, hempty, hsort]
  rfl

/-- A method without a tree is as good as one with an empty tree. -/
theorem lookup_eq (lib : Library H M) (router : Router H M) (method path : Str) (params : Params) :
    router.lookup lib method path params =
      RouteMatcher.matchRoute lib (router.treeFor method) path params := by
  unfold lookup treeFor
  cases router.tree? method with
  | none => exact (matchRoute_root lib path params).symm
  | some tree => rfl

/-- The exit of `match_route` for a route. -/
theorem matchRoute_route {request : Http.Request} {node : Node H M}
    (h : router.matchRoute lib request params = (.route node, params')) :
    ∃ found, router.lookup lib (effectiveMethod request) request.getPath params =
      (some found, params') ∧ found.node = node := by
  dsimp only [matchRoute] at h
  split at h
  · next found params'' hfound =>
      split_ifs at h
      · cases h
      · obtain ⟨hnode, rfl⟩ := Prod.mk.inj h
        exact ⟨found, hfound, Dispatch.route.inj hnode⟩
  · split_ifs at h <;> cases h

/-- A match that is no mount is dispatched to. -/
theorem matchRoute_of_lookup {request : Http.Request} {found : Match H M}
    (hfound : router.lookup lib (effectiveMethod request) request.getPath params =
      (some found, params')) (hmount : found.node.isStaticFiles = false) :
    (router.matchRoute lib request params).1 = .route found.node := by
  unfold matchRoute
  dsimp only
  rw [hfound]
  dsimp only
  rw [if_neg (Bool.eq_false_iff.mp hmount)]

/-- The exit of `match_route` for a mount. -/
theorem matchRoute_staticFiles {request : Http.Request} {baseDir : Str}
    (h : router.matchRoute lib request params = (.staticFiles baseDir, params')) :
    ∃ found, router.lookup lib (effectiveMethod request) request.getPath params =
      (some found, params') ∧ found.node.isStaticFiles = true ∧
      found.node.staticFilesBaseDir = baseDir := by
  dsimp only [matchRoute] at h
  split at h
  · next found params'' hfound =>
      split_ifs at h with hmount
      · obtain ⟨hdirectory, rfl⟩ := Prod.mk.inj h
        exact ⟨found, hfound, hmount, Dispatch.staticFiles.inj hdirectory⟩
      · cases h
  · split_ifs at h <;> cases h

end Router

end GinCpp.Routing
