import GinCpp.Separator.Basic
import Mathlib.Data.List.DropRight
import Mathlib.Logic.Function.Basic

/-!
# Assignments

A map from keys to values is built by assignments, each of which overwrites what the key had
before.  An assignment may be written as text, the key up to an equals sign and the value behind
it; with several equals signs there are two ways of reading it, from the first one and from the
last.
-/

namespace GinCpp.Assignment

open Separator

/-! ## Maps -/

section Maps

variable {κ ν : Type*} [DecidableEq κ] {m : κ → Option ν} {assignments : List (κ × ν)} {k : κ}
  {v : ν}

/-- The map after some assignments, in order. -/
def assignAll (m : κ → Option ν) (assignments : List (κ × ν)) : κ → Option ν :=
  assignments.foldl (fun m kv => Function.update m kv.1 (some kv.2)) m

@[simp] theorem assignAll_nil : assignAll m [] = m := rfl

@[simp] theorem assignAll_cons (kv : κ × ν) : assignAll m (kv :: assignments) =
    assignAll (Function.update m kv.1 (some kv.2)) assignments := rfl

theorem assignAll_append (front : List (κ × ν)) : assignAll m (front ++ assignments) =
    assignAll (assignAll m front) assignments := List.foldl_append

theorem assignAll_congr {m' : κ → Option ν} (h : m k = m' k) :
    assignAll m assignments k = assignAll m' assignments k := by
  induction assignments generalizing m m' with
  | nil => exact h
  | cons kv assignments ih =>
      rw [assignAll_cons, assignAll_cons]
      apply ih
      by_cases hk : k = kv.1
      · rw [hk, Function.update_self, Function.update_self]
      · rw [Function.update_of_ne hk, Function.update_of_ne hk, h]

/-- The other keys do not matter. -/
theorem assignAll_filter : assignAll m (assignments.filter (·.1 = k)) k =
    assignAll m assignments k := by
  induction assignments generalizing m with
  | nil => rfl
  | cons kv assignments ih =>
      rw [assignAll_cons, ← ih]
      by_cases hk : kv.1 = k
      · rw [List.filter_cons_of_pos (by simpa using hk), assignAll_cons]
      · rw [List.filter_cons_of_neg (by simpa using hk)]
        exact assignAll_congr (Function.update_of_ne (Ne.symm hk) ..).symm

/-- A value stays if it is all that the key is assigned. -/
theorem assignAll_eq_some (hv : m k = some v) (h : ∀ kv ∈ assignments, kv.1 = k → kv.2 = v) :
    assignAll m assignments k = some v := by
  induction assignments generalizing m with
  | nil => exact hv
  | cons kv assignments ih =>
      obtain ⟨hfirst, hothers⟩ := List.forall_mem_cons.mp h
      rw [assignAll_cons]
      refine ih ?_ hothers
      by_cases hk : kv.1 = k
      · rw [← hk, Function.update_self, hfirst hk]
      · rw [Function.update_of_ne (Ne.symm hk), hv]

/-- The value of the last assignment, behind which the key is assigned nothing else. -/
theorem assignAll_append_cons (front : List (κ × ν))
    (h : ∀ kv ∈ assignments, kv.1 = k → kv.2 = v) :
    assignAll m (front ++ (k, v) :: assignments) k = some v := by
  rw [assignAll_append, assignAll_cons]
  exact assignAll_eq_some (Function.update_self ..) h

/-- A value comes from the map or from an assignment. -/
theorem mem_of_assignAll (h : assignAll m assignments k = some v) :
    m k = some v ∨ (k, v) ∈ assignments := by
  induction assignments generalizing m with
  | nil => exact Or.inl h
  | cons kv assignments ih =>
      rw [assignAll_cons] at h
      rcases ih h with hupdate | hmem
      · by_cases hk : k = kv.1
        · rw [hk, Function.update_self] at hupdate
          refine Or.inr (List.mem_cons.mpr (Or.inl ?_))
          rw [hk, ← Option.some_inj.mp hupdate]
        · rw [Function.update_of_ne hk] at hupdate
          exact Or.inl hupdate
      · exact Or.inr (List.mem_cons_of_mem _ hmem)

/-- If no key is assigned twice, the map is the list of its assignments. -/
theorem assignAll_eq_some_iff (hnodup : (assignments.map Prod.fst).Nodup) :
    assignAll (fun _ => none) assignments k = some v ↔ (k, v) ∈ assignments := by
  constructor
  · intro h
    exact (mem_of_assignAll h).resolve_left (by simp)
  · intro hmem
    obtain ⟨front, back, rfl⟩ := List.append_of_mem hmem
    rw [List.map_append, List.map_cons, List.nodup_append] at hnodup
    have hback : k ∉ back.map Prod.fst := (List.nodup_cons.mp hnodup.2.1).1
    refine assignAll_append_cons front fun kv hkv hk => ?_
    exact absurd (List.mem_map_of_mem hkv) (hk ▸ hback)

/-- A key that is assigned has a value. -/
theorem isSome_assignAll (h : (m k).isSome ∨ ∃ kv ∈ assignments, kv.1 = k) :
    (assignAll m assignments k).isSome := by
  induction assignments generalizing m with
  | nil => exact h.resolve_right (by simp)
  | cons kv assignments ih =>
      rw [assignAll_cons]
      refine ih ?_
      by_cases hk : k = kv.1
      · rw [hk, Function.update_self]
        exact Or.inl rfl
      · rw [Function.update_of_ne hk]
        refine h.imp_right fun hmem => ?_
        rw [List.exists_mem_cons_iff] at hmem
        exact hmem.resolve_left (Ne.symm hk)

/-- A value that some of the steps give is the one that the last of them gives. -/
theorem foldl_eq_getLast? {σ α β : Type*} {step : σ → α → σ} {get : σ → β} {given : α → Option β}
    (h : ∀ s a, get (step s a) = (given a).getD (get s)) (s : σ) (l : List α) :
    get (l.foldl step s) = (l.filterMap given).getLast?.getD (get s) := by
  induction l generalizing s with
  | nil => rfl
  | cons a l ih =>
      rw [List.foldl_cons, ih, h, List.filterMap_cons]
      cases given a with
      | none => rfl
      | some v =>
          rw [Option.getD_some, List.getLast?_cons, Option.getD_some]

end Maps

/-! ## Text -/

section Text

variable {α : Type*} [DecidableEq α]

/-- The key in front of the first equals sign. -/
def name (eq : α) (text : List α) : List α := text.takeWhile (· != eq)

/-- The value behind the first equals sign. -/
def value (eq : α) (text : List α) : List α := (text.dropWhile (· != eq)).tail

/-- The value behind the last equals sign. -/
def lastValue (eq : α) (text : List α) : List α := text.rtakeWhile (· != eq)

/-- The key in front of the last equals sign, back to the one before that. -/
def lastName (eq : α) (text : List α) : List α :=
  lastValue eq (text.rdropWhile (· != eq)).dropLast

variable {eq : α} {text before after : List α}

theorem name_of_notMem (h : eq ∉ text) : name eq text = text := takeWhile_of_notMem h

theorem name_append_cons (h : eq ∉ before) (after : List α) :
    name eq (before ++ eq :: after) = before := (takeWhile_append_cons h after).1

theorem value_append_cons (h : eq ∉ before) (after : List α) :
    value eq (before ++ eq :: after) = after := by
  rw [value, (takeWhile_append_cons h after).2, List.tail_cons]

theorem name_of_head? (h : text.head? = some eq) : name eq text = [] := by
  obtain ⟨rest, rfl⟩ := List.head?_eq_some_iff.mp h
  exact List.takeWhile_cons_of_neg (by simp)

/-- Only an equals sign leaves no key. -/
theorem head?_of_name_eq_nil (h : name eq text = []) (hne : text ≠ []) :
    text.head? = some eq := by
  obtain ⟨a, rest, rfl⟩ := List.exists_cons_of_ne_nil hne
  by_contra hhead
  have ha : a ≠ eq := fun heq => hhead (congrArg some heq)
  rw [name, List.takeWhile_cons_of_pos (by simpa using ha)] at h
  cases h

@[simp] theorem lastValue_nil : lastValue eq [] = [] := List.rtakeWhile_nil ..

theorem lastValue_concat_self (text : List α) : lastValue eq (text ++ [eq]) = [] :=
  List.rtakeWhile_concat_neg _ _ _ (by simp)

theorem lastValue_concat {a : α} (h : a ≠ eq) (text : List α) :
    lastValue eq (text ++ [a]) = lastValue eq text ++ [a] :=
  List.rtakeWhile_concat_pos _ _ _ (by simpa using h)

theorem lastName_concat_self (text : List α) :
    lastName eq (text ++ [eq]) = lastValue eq text := by
  rw [lastName, List.rdropWhile_concat_neg _ _ _ (by simp), List.dropLast_concat]

theorem lastName_concat {a : α} (h : a ≠ eq) (text : List α) :
    lastName eq (text ++ [a]) = lastName eq text := by
  rw [lastName, List.rdropWhile_concat_pos _ _ _ (by simpa using h), lastName]

theorem lastValue_of_getLast? (h : text.getLast? = some eq) : lastValue eq text = [] := by
  obtain ⟨front, rfl⟩ := List.getLast?_eq_some_iff.mp h
  exact lastValue_concat_self front

theorem notMem_lastValue (text : List α) : eq ∉ lastValue eq text :=
  fun h => by simpa using List.mem_rtakeWhile_imp h

theorem lastValue_of_notMem (h : eq ∉ text) : lastValue eq text = text :=
  (List.rtakeWhile_eq_self_iff ..).mpr fun a ha => by simpa using ne_of_mem_of_not_mem ha h

theorem lastValue_append_cons (h : eq ∉ after) (before : List α) :
    lastValue eq (before ++ eq :: after) = after := by
  induction after using List.reverseRecOn with
  | nil => exact lastValue_concat_self before
  | append_singleton after a ih =>
      obtain ⟨hafter, ha⟩ : eq ∉ after ∧ eq ≠ a := by simpa using h
      rw [← List.cons_append, ← List.append_assoc, lastValue_concat (Ne.symm ha), ih hafter]

theorem lastName_append_cons (h : eq ∉ after) (before : List α) :
    lastName eq (before ++ eq :: after) = lastValue eq before := by
  induction after using List.reverseRecOn with
  | nil => exact lastName_concat_self before
  | append_singleton after a ih =>
      obtain ⟨hafter, ha⟩ : eq ∉ after ∧ eq ≠ a := by simpa using h
      rw [← List.cons_append, ← List.append_assoc, lastName_concat (Ne.symm ha), ih hafter]

/-- With one equals sign there is one way of reading. -/
theorem exists_of_count_eq_one (h : text.count eq = 1) :
    ∃ k v, text = k ++ eq :: v ∧ name eq text = k ∧ value eq text = v ∧
      lastName eq text = k ∧ lastValue eq text = v := by
  obtain ⟨k, v, rfl, hk⟩ := List.eq_append_cons_of_mem
    (List.count_pos_iff.mp (h ▸ Nat.one_pos))
  have hv : eq ∉ v := by
    rw [List.count_append, List.count_cons_self, List.count_eq_zero_of_not_mem hk] at h
    exact List.count_eq_zero.mp (by omega)
  refine ⟨k, v, rfl, name_append_cons hk v, value_append_cons hk v, ?_,
    lastValue_append_cons hv k⟩
  rw [lastName_append_cons hv, lastValue_of_notMem hk]

/-- With more of them the value from the first one on has another. -/
theorem mem_value_of_two_le (h : 2 ≤ text.count eq) : eq ∈ value eq text := by
  obtain ⟨k, v, rfl, hk⟩ := List.eq_append_cons_of_mem
    (List.count_pos_iff.mp (Nat.lt_of_lt_of_le Nat.two_pos h))
  rw [List.count_append, List.count_cons_self, List.count_eq_zero_of_not_mem hk] at h
  rw [value_append_cons hk]
  exact List.count_pos_iff.mp (by omega)

end Text

end GinCpp.Assignment
