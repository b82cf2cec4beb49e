import Mathlib.Data.List.Perm.Basic
import Mathlib.Data.List.Nodup

/-!
# Trees with keyed children

A tree whose nodes carry a value and whose children are told apart by keys, as in a trie over an
associative container.  The children are a list, in the order in which the container is iterated;
`Placement` is how a new child changes that order, of which nothing is known but that no child is
lost.

`insert` walks along a list of keys, creating what is missing and touching the value of every
node on the way.  `child?_insert` and `perm_children_insert` say what it changes.
-/

namespace GinCpp

universe u v

/-- A tree with values in `α` and keys in `κ`. -/
structure KeyedTree (κ : Type u) (α : Type v) where
  value : α
  children : List (κ × KeyedTree κ α)

namespace KeyedTree

variable {κ : Type u} {α : Type v}

/-- How a new child enters the iteration order. -/
structure Placement (κ : Type u) (α : Type v) where
  place : List (κ × KeyedTree κ α) → κ × KeyedTree κ α → List (κ × KeyedTree κ α)
  perm : ∀ children child, (place children child).Perm (child :: children)

/-- New children come last. -/
def Placement.last : Placement κ α where
  place children child := children ++ [child]
  perm _ _ := List.perm_append_comm

/-- New children come first. -/
def Placement.first : Placement κ α where
  place children child := child :: children
  perm _ _ := .rfl

/-- No two children of a node have the same key. -/
inductive Distinct : KeyedTree κ α → Prop
  | mk {t : KeyedTree κ α} : (t.children.map Prod.fst).Nodup →
      (∀ kc ∈ t.children, Distinct kc.2) → Distinct t

namespace Distinct

variable {t : KeyedTree κ α}

theorem nodup (h : t.Distinct) : (t.children.map Prod.fst).Nodup := by
  cases h with
  | mk hnodup _ => exact hnodup

theorem child (h : t.Distinct) {kc : κ × KeyedTree κ α} (hkc : kc ∈ t.children) :
    kc.2.Distinct := by
  cases h with
  | mk _ hchildren => exact hchildren kc hkc

end Distinct

variable [DecidableEq κ]

/-- `children.find(k)`. -/
def child? (t : KeyedTree κ α) (k : κ) : Option (KeyedTree κ α) :=
  (t.children.find? (·.1 = k)).map Prod.snd

/-- The node at an address. -/
def at? : KeyedTree κ α → List κ → Option (KeyedTree κ α)
  | t, [] => some t
  | t, k :: address =>
      match t.child? k with
      | some c => c.at? address
      | none => none

/-- The value of the child that is there, or a new one. -/
def touched (t : KeyedTree κ α) (k : κ) (touch : Option α → α) : KeyedTree κ α :=
  match t.child? k with
  | some c => { c with value := touch (some c.value) }
  | none => { value := touch none, children := [] }

/-- Replace the child of an existing key, or place a new one. -/
def setChild (placement : Placement κ α) (t : KeyedTree κ α) (k : κ) (c : KeyedTree κ α) :
    KeyedTree κ α :=
  if (t.child? k).isSome then
    { t with children := t.children.map fun kc => if kc.1 = k then (k, c) else kc }
  else { t with children := placement.place t.children (k, c) }

/-- Walk along `steps`, touching every node on the way, and change the value at the end. -/
def insert (placement : Placement κ α) (leaf : α → α) :
    List (κ × (Option α → α)) → KeyedTree κ α → KeyedTree κ α
  | [], t => { t with value := leaf t.value }
  | (k, touch) :: steps, t =>
      t.setChild placement k (insert placement leaf steps (t.touched k touch))

/-! ## Finding children -/

section Children

variable {t : KeyedTree κ α} {k : κ} {c : KeyedTree κ α}

theorem mem_of_child? (h : t.child? k = some c) : (k, c) ∈ t.children := by
  obtain ⟨⟨k', c'⟩, hfind, rfl⟩ := Option.map_eq_some_iff.mp h
  have hkey : k' = k := by simpa using List.find?_some hfind
  exact hkey ▸ List.mem_of_find?_eq_some hfind

theorem child?_eq_some_iff (h : (t.children.map Prod.fst).Nodup) :
    t.child? k = some c ↔ (k, c) ∈ t.children := by
  refine ⟨mem_of_child?, fun hmem => ?_⟩
  have hsome : (t.child? k).isSome := by
    rw [child?, Option.isSome_map, List.find?_isSome]
    exact ⟨(k, c), hmem, by simp⟩
  obtain ⟨c', hc'⟩ := Option.isSome_iff_exists.mp hsome
  have hsame : (k, c') = (k, c) :=
    List.inj_on_of_nodup_map h (mem_of_child? hc') hmem rfl
  rw [hc', (Prod.mk.inj hsame).2]

theorem child?_eq_none_iff : t.child? k = none ↔ ∀ c, (k, c) ∉ t.children := by
  rw [child?, Option.map_eq_none_iff, List.find?_eq_none]
  constructor
  · intro h c hc
    exact h (k, c) hc (by simp)
  · rintro h ⟨k', c⟩ hc
    rw [decide_eq_true_iff]
    rintro rfl
    exact h c hc

/-- Only one child can be the one that is searched for. -/
theorem findSome?_children {β : Type*} (h : (t.children.map Prod.fst).Nodup)
    {f : κ × KeyedTree κ α → Option β} (hother : ∀ kc ∈ t.children, kc.1 ≠ k → f kc = none) :
    t.children.findSome? f = (t.child? k).bind fun c => f (k, c) := by
  cases hfound : t.child? k with
  | none =>
      rw [Option.bind_none, List.findSome?_eq_none_iff]
      rintro ⟨key', c⟩ hchild
      refine hother _ hchild ?_
      rintro rfl
      exact child?_eq_none_iff.mp hfound c hchild
  | some c =>
      rw [Option.bind_some]
      cases hf : f (k, c) with
      | none =>
          rw [List.findSome?_eq_none_iff]
          rintro ⟨key', c'⟩ hchild
          by_cases hkey : key' = k
          · subst hkey
            have hsame : c' = c := by
              rw [(child?_eq_some_iff h).mpr hchild] at hfound
              exact Option.some_inj.mp hfound
            rw [hsame, hf]
          · exact hother _ hchild hkey
      | some x =>
          have hmem : ∃ kc ∈ t.children, (f kc).isSome :=
            ⟨(k, c), mem_of_child? hfound, by rw [hf]; rfl⟩
          obtain ⟨y, hy⟩ := Option.isSome_iff_exists.mp (List.findSome?_isSome_iff.mpr hmem)
          obtain ⟨⟨key', c'⟩, hchild, hf'⟩ := List.exists_of_findSome?_eq_some hy
          have hkey : key' = k := by
            by_contra hkey
            rw [hother _ hchild hkey] at hf'
            cases hf'
          subst hkey
          rw [(child?_eq_some_iff h).mpr hchild, Option.some_inj] at hfound
          rw [hy, ← hf', hfound, hf]

end Children

/-! ## Replacing a child -/

section SetChild

variable {placement : Placement κ α} {t c c' : KeyedTree κ α} {k k' : κ}

theorem mem_children_setChild : (k', c') ∈ (t.setChild placement k c).children ↔
    (k' = k ∧ c' = c) ∨ (k' ≠ k ∧ (k', c') ∈ t.children) := by
  unfold setChild
  split_ifs with hsome
  · obtain ⟨old, hold⟩ := Option.isSome_iff_exists.mp hsome
    rw [List.mem_map]
    constructor
    · rintro ⟨⟨key, child⟩, hmem, heq⟩
      dsimp only at heq
      split_ifs at heq with hkey
      · obtain ⟨rfl, rfl⟩ := Prod.mk.inj heq
        exact Or.inl ⟨rfl, rfl⟩
      · obtain ⟨rfl, rfl⟩ := Prod.mk.inj heq
        exact Or.inr ⟨hkey, hmem⟩
    · rintro (⟨rfl, rfl⟩ | ⟨hne, hmem⟩)
      · exact ⟨(k', old), mem_of_child? hold, if_pos rfl⟩
      · exact ⟨(k', c'), hmem, if_neg hne⟩
  · have hnone : t.child? k = none := Option.not_isSome_iff_eq_none.mp hsome
    rw [(placement.perm t.children (k, c)).mem_iff, List.mem_cons, Prod.mk.injEq]
    refine or_congr_right ⟨fun hmem => ⟨?_, hmem⟩, And.right⟩
    rintro rfl
    exact child?_eq_none_iff.mp hnone c' hmem

theorem nodup_setChild (h : (t.children.map Prod.fst).Nodup) :
    ((t.setChild placement k c).children.map Prod.fst).Nodup := by
  unfold setChild
  split_ifs with hsome
  · have hkeys : (t.children.map fun kc => if kc.1 = k then (k, c) else kc).map Prod.fst =
        t.children.map Prod.fst := by
      rw [List.map_map]
      refine List.map_congr_left fun kc _ => ?_
      by_cases hkey : kc.1 = k <;> simp [hkey]
    rw [hkeys]
    exact h
  · have hnone : t.child? k = none := Option.not_isSome_iff_eq_none.mp hsome
    have hperm := (placement.perm t.children (k, c)).map Prod.fst
    rw [hperm.nodup_iff, List.map_cons, List.nodup_cons]
    refine ⟨fun hmem => ?_, h⟩
    obtain ⟨⟨key, child⟩, hchild, rfl⟩ := List.mem_map.mp hmem
    exact child?_eq_none_iff.mp hnone child hchild

theorem child?_setChild (h : (t.children.map Prod.fst).Nodup) :
    (t.setChild placement k c).child? k' = if k' = k then some c else t.child? k' := by
  ext c'
  rw [child?_eq_some_iff (nodup_setChild h), mem_children_setChild]
  split_ifs with hkey
  · simp [hkey, eq_comm]
  · simp [hkey, child?_eq_some_iff h]

theorem Distinct.setChild (h : t.Distinct) (hc : c.Distinct) :
    (t.setChild placement k c).Distinct := by
  refine .mk (nodup_setChild h.nodup) ?_
  rintro ⟨k', c'⟩ hmem
  rcases mem_children_setChild.mp hmem with ⟨-, rfl⟩ | ⟨-, hmem⟩
  · exact hc
  · exact h.child hmem

/-- Where the child is there already, what is gathered from the children in their order is the same
if it is the same of this child. -/
theorem flatMap_children_setChild {β : Type*} (h : (t.children.map Prod.fst).Nodup)
    (hold : t.child? k = some c') {f : κ × KeyedTree κ α → List β} (hf : f (k, c) = f (k, c')) :
    (t.setChild placement k c).children.flatMap f = t.children.flatMap f := by
  unfold setChild
  rw [if_pos (Option.isSome_of_eq_some hold), List.flatMap_map]
  refine List.flatMap_congr fun kc hkc => ?_
  split_ifs with hkey
  · obtain ⟨key, child⟩ := kc
    obtain rfl : key = k := hkey
    rw [hf, Option.some_inj.mp (hold.symm.trans ((child?_eq_some_iff h).mpr hkc))]
  · rfl

@[simp] theorem value_setChild : (t.setChild placement k c).value = t.value := by
  unfold KeyedTree.setChild
  split_ifs <;> rfl

end SetChild

/-! ## Insertion -/

section Insert

variable {placement : Placement κ α} {leaf : α → α} {t : KeyedTree κ α} {k : κ}
  {touch : Option α → α} {steps : List (κ × (Option α → α))}

theorem Distinct.touched (h : t.Distinct) : (t.touched k touch).Distinct := by
  unfold KeyedTree.touched
  split
  · next c hc =>
    have hchild : c.Distinct := h.child (mem_of_child? hc)
    exact .mk hchild.nodup fun kc hkc => hchild.child hkc
  · exact .mk List.nodup_nil nofun

theorem Distinct.insert (h : t.Distinct) : (t.insert placement leaf steps).Distinct := by
  induction steps generalizing t with
  | nil => exact .mk h.nodup fun kc hkc => h.child hkc
  | cons step steps ih => exact h.setChild (ih h.touched)

@[simp] theorem value_insert_cons :
    (t.insert placement leaf ((k, touch) :: steps)).value = t.value := value_setChild

/-- What `insert` does to the children of the node it starts at. -/
theorem child?_insert_cons (h : t.Distinct) (k' : κ) :
    (t.insert placement leaf ((k, touch) :: steps)).child? k' =
      if k' = k then some ((t.touched k touch).insert placement leaf steps) else t.child? k' :=
  child?_setChild h.nodup

end Insert

/-! ## Values at addresses -/

/-- The value at an address. -/
def valueAt? (t : KeyedTree κ α) (address : List κ) : Option α := (t.at? address).map value

section Addresses

variable {placement : Placement κ α} {leaf : α → α} {t : KeyedTree κ α} {k k' : κ}
  {touch : Option α → α} {steps : List (κ × (Option α → α))} {address : List κ}

@[simp] theorem valueAt?_nil : t.valueAt? [] = some t.value := rfl

theorem valueAt?_cons : t.valueAt? (k :: address) = (t.child? k).bind (·.valueAt? address) := by
  rw [valueAt?, at?]
  cases t.child? k <;> rfl

theorem valueAt?_touched_cons :
    (t.touched k touch).valueAt? (k' :: address) = t.valueAt? (k :: k' :: address) := by
  rw [valueAt?_cons, valueAt?_cons, touched]
  cases t.child? k with
  | none => rfl
  | some c => exact valueAt?_cons.symm

theorem value_touched : (t.touched k touch).value = touch (t.valueAt? [k]) := by
  rw [valueAt?_cons, touched]
  cases t.child? k <;> rfl

theorem valueAt?_insert_cons (h : t.Distinct) :
    (t.insert placement leaf ((k, touch) :: steps)).valueAt? (k' :: address) =
      if k' = k then ((t.touched k touch).insert placement leaf steps).valueAt? address
      else t.valueAt? (k' :: address) := by
  rw [valueAt?_cons, child?_insert_cons h]
  split_ifs
  · rfl
  · exact valueAt?_cons.symm

/-- `insert` changes no value off its way. -/
theorem valueAt?_insert_off (h : t.Distinct)
    (haddress : ¬ address <+: steps.map Prod.fst) :
    (t.insert placement leaf steps).valueAt? address = t.valueAt? address := by
  induction steps generalizing t address with
  | nil =>
      cases address with
      | nil => exact absurd List.nil_prefix haddress
      | cons k' address => rfl
  | cons step steps ih =>
      obtain ⟨k, touch⟩ := step
      cases address with
      | nil => exact absurd List.nil_prefix haddress
      | cons k' address =>
          rw [valueAt?_insert_cons h]
          split_ifs with hkey
          · subst hkey
            have htail : ¬ address <+: steps.map Prod.fst := fun hshort =>
              haddress (List.cons_prefix_cons.mpr ⟨rfl, hshort⟩)
            rw [ih h.touched htail]
            cases address with
            | nil => exact absurd List.nil_prefix htail
            | cons k' address => exact valueAt?_touched_cons
          · rfl

/-- On its way `insert` touches the value that was there, if any, and changes the last one. -/
theorem valueAt?_insert_append (h : t.Distinct) (before : List (κ × (Option α → α))) :
    (t.insert placement leaf (before ++ (k, touch) :: steps)).valueAt?
        (before.map Prod.fst ++ [k]) =
      some ((if steps = [] then leaf else id)
        (touch (t.valueAt? (before.map Prod.fst ++ [k])))) := by
  induction before generalizing t with
  | nil =>
      have hvalue : (t.touched k touch).value = touch (t.valueAt? [k]) := value_touched
      rw [List.nil_append, List.map_nil, List.nil_append, valueAt?_insert_cons h, if_pos rfl,
        valueAt?_nil, ← hvalue]
      cases steps with
      | nil => rfl
      | cons step steps => exact congrArg some value_insert_cons
  | cons step before ih =>
      obtain ⟨k', touch'⟩ := step
      rw [List.cons_append, List.map_cons, List.cons_append, valueAt?_insert_cons h, if_pos rfl,
        ih h.touched]
      cases hkeys : before.map Prod.fst ++ [k] with
      | nil => simp at hkeys
      | cons key keys => rw [valueAt?_touched_cons]

/-- What the touches and the change at the end keep holds of every value. -/
theorem forall_valueAt?_insert {P : List κ → α → Prop} (h : t.Distinct)
    (hleaf : ∀ address a, P address a → P address (leaf a))
    (htouch : ∀ step ∈ steps, ∀ address old,
      (∀ a ∈ old, P (address ++ [step.1]) a) → P (address ++ [step.1]) (step.2 old))
    (hall : ∀ address, ∀ a ∈ t.valueAt? address, P address a) :
    ∀ address, ∀ a ∈ (t.insert placement leaf steps).valueAt? address, P address a := by
  intro address
  by_cases hway : address <+: steps.map Prod.fst
  · obtain ⟨more, hmore⟩ := hway
    obtain ⟨before, after, rfl, rfl, rfl⟩ := List.map_eq_append_iff.mp hmore.symm
    rcases List.eq_nil_or_concat' before with rfl | ⟨before, ⟨k, touch⟩, rfl⟩
    · intro a ha
      obtain rfl := Option.some_inj.mp ha
      cases after with
      | nil => exact hleaf [] _ (hall [] _ rfl)
      | cons step after =>
          have hvalue : (t.insert placement leaf ([] ++ step :: after)).value = t.value :=
            value_insert_cons
          rw [hvalue]
          exact hall [] _ rfl
    · have htouched := htouch (k, touch) (by simp) (before.map Prod.fst)
        (t.valueAt? (before.map Prod.fst ++ [k])) (hall _)
      intro a ha
      rw [List.map_append, List.append_assoc, List.singleton_append, List.map_singleton,
        valueAt?_insert_append h] at ha
      obtain rfl := Option.some_inj.mp ha
      rw [List.map_append, List.map_singleton]
      split_ifs
      · exact hleaf _ _ htouched
      · exact htouched
  · rw [valueAt?_insert_off h hway]
    exact hall address

end Addresses

end KeyedTree

end GinCpp
