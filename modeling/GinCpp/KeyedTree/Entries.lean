import GinCpp.KeyedTree.Basic
import Mathlib.Data.List.Lattice

/-!
# The nodes of a keyed tree

`entries` visits a tree from the root down, a node before its children.  Every node is visited
once, under its address (`mem_entries_iff`, `nodup_entries`).
-/

namespace GinCpp.KeyedTree

universe u v

variable {κ : Type u} {α : Type v}

mutual

/-- The nodes in the order in which they are visited, each with its address. -/
def entries : KeyedTree κ α → List (List κ × α)
  | ⟨value, children⟩ => ([], value) :: entriesOf children

/-- The nodes of the children. -/
def entriesOf : List (κ × KeyedTree κ α) → List (List κ × α)
  | [] => []
  | (k, c) :: children => c.entries.map (Prod.map (k :: ·) id) ++ entriesOf children

end

theorem entriesOf_eq_flatMap (children : List (κ × KeyedTree κ α)) :
    entriesOf children =
      children.flatMap fun kc => kc.2.entries.map (Prod.map (kc.1 :: ·) id) := by
  induction children with
  | nil => rfl
  | cons kc children ih => rw [entriesOf, ih, List.flatMap_cons]

theorem entries_eq (t : KeyedTree κ α) : t.entries =
    ([], t.value) :: t.children.flatMap fun kc => kc.2.entries.map (Prod.map (kc.1 :: ·) id) := by
  obtain ⟨value, children⟩ := t
  rw [entries, entriesOf_eq_flatMap]

variable [DecidableEq κ] {t : KeyedTree κ α} {address : List κ} {a : α}

/-- **Every node is visited**, and nothing else. -/
theorem mem_entries_iff (h : t.Distinct) :
    (address, a) ∈ t.entries ↔ t.valueAt? address = some a := by
  induction h generalizing address with
  | @mk t hnodup _ ih =>
      rw [entries_eq]
      cases address with
      | nil => simp [eq_comm]
      | cons k address =>
          rw [valueAt?_cons, Option.bind_eq_some_iff]
          simp only [child?_eq_some_iff hnodup]
          constructor
          · intro hmem
            have hne : (k :: address, a) ≠ ([], t.value) := by simp
            obtain ⟨⟨k', c⟩, hc, hmem⟩ := List.mem_flatMap.mp (List.mem_of_ne_of_mem hne hmem)
            obtain ⟨⟨below, a'⟩, hbelow, heq⟩ := List.mem_map.mp hmem
            obtain ⟨⟨rfl, rfl⟩, rfl⟩ : (k' = k ∧ below = address) ∧ a' = a := by simpa using heq
            exact ⟨c, hc, (ih _ hc).mp hbelow⟩
          · rintro ⟨c, hc, hvalue⟩
            apply List.mem_cons_of_mem
            exact List.mem_flatMap.mpr ⟨(k, c), hc,
              List.mem_map.mpr ⟨(address, a), (ih _ hc).mpr hvalue, rfl⟩⟩

omit [DecidableEq κ] in
/-- **No node is visited twice.** -/
theorem nodup_entries (h : t.Distinct) : (t.entries.map Prod.fst).Nodup := by
  induction h with
  | @mk t hnodup _ ih =>
      have hkeys : t.entries.map Prod.fst = [] ::
          t.children.flatMap fun kc => (kc.2.entries.map Prod.fst).map (kc.1 :: ·) := by
        rw [entries_eq, List.map_cons, List.map_flatMap]
        simp [Function.comp_def]
      rw [hkeys, List.nodup_cons, List.nodup_flatMap]
      refine ⟨by simp, fun kc hkc => ?_, ?_⟩
      · exact (ih kc hkc).map (List.cons_injective)
      · -- the addresses below different children begin differently
        refine (List.pairwise_map.mp hnodup).imp fun {kc kc'} hne => ?_
        intro address hmem hmem'
        obtain ⟨below, -, rfl⟩ := List.mem_map.mp hmem
        obtain ⟨below', -, heq⟩ := List.mem_map.mp hmem'
        exact hne (List.cons.inj heq).1.symm

end GinCpp.KeyedTree
