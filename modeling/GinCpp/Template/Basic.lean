import GinCpp.Separator.Basic

/-!
# Templates

A template is a list of words: fixed text, or a target that is to be replaced by a value, with a
suffix behind it.  The targets are replaced one after another, each at its first occurrence in the
words as they are by then, and that need not be its own word.

If every target is `Apart` from what is in front of it, any order of the targets fills the
template: `replaceAll_eq_filled`.
-/

namespace GinCpp.Template

open Separator

variable {α : Type*}

inductive Word (α : Type*)
  | fixed (text : List α)
  | hole (target suffix : List α)
  deriving DecidableEq

namespace Word

def raw : Word α → List α
  | fixed text => text
  | hole target suffix => target ++ suffix

/-- A word with its own target replaced. -/
def filled (value : List α → List α) : Word α → List α
  | fixed text => text
  | hole target suffix => value target ++ suffix

def target? : Word α → Option (List α)
  | fixed _ => none
  | hole target _ => some target

end Word

/-- The targets of a template, from left to right. -/
def targets (words : List (Word α)) : List (List α) := words.filterMap Word.target?

@[simp] theorem targets_nil : targets ([] : List (Word α)) = [] := rfl

@[simp] theorem targets_fixed (text : List α) (words : List (Word α)) :
    targets (.fixed text :: words) = targets words := rfl

@[simp] theorem targets_hole (target suffix : List α) (words : List (Word α)) :
    targets (.hole target suffix :: words) = target :: targets words := rfl

@[simp] theorem targets_append (words more : List (Word α)) :
    targets (words ++ more) = targets words ++ targets more := List.filterMap_append

theorem mem_targets {words : List (Word α)} {target : List α} :
    target ∈ targets words ↔ ∃ suffix, .hole target suffix ∈ words := by
  rw [targets, List.mem_filterMap]
  constructor
  · rintro ⟨w, hw, htarget⟩
    cases w with
    | fixed text => cases htarget
    | hole t suffix =>
        obtain rfl := Option.some_inj.mp htarget
        exact ⟨suffix, hw⟩
  · rintro ⟨suffix, hw⟩
    exact ⟨_, hw, rfl⟩

variable [DecidableEq α]

/-! ## Replacing -/

/-- Replace the first occurrence of a target. -/
def replaceFirst (target value text : List α) : List α :=
  match breakOn target text with
  | some (before, after) => before ++ value ++ after
  | none => text

/-- Replace the first occurrence in some words. -/
def replaceIn (target value : List α) : List (List α) → List (List α)
  | [] => []
  | text :: texts =>
      if target <:+: text then replaceFirst target value text :: texts
      else text :: replaceIn target value texts

/-- Replace one target after another. -/
def replaceAll (value : List α → List α) (texts : List (List α)) (order : List (List α)) :
    List (List α) :=
  order.foldl (fun texts target => replaceIn target (value target) texts) texts

section Replacing

variable {target value text front back : List α} {texts more : List (List α)} {x : α}

theorem replaceFirst_eq (value : List α) (h : target <:+: text) :
    ∃ before after, text = before ++ target ++ after ∧
      replaceFirst target value text = before ++ value ++ after := by
  obtain ⟨⟨before, after⟩, hbreak⟩ := Option.isSome_iff_exists.mp (isSome_breakOn_iff.mpr h)
  exact ⟨before, after, eq_of_breakOn hbreak, by rw [replaceFirst, hbreak]⟩

theorem replaceFirst_append (target value rest : List α) :
    replaceFirst target value (target ++ rest) = value ++ rest := by
  rw [replaceFirst, breakOn_append]
  rfl

theorem replaceFirst_self (target text : List α) : replaceFirst target target text = text := by
  unfold replaceFirst
  cases hbreak : breakOn target text with
  | none => rfl
  | some found => exact (eq_of_breakOn hbreak).symm

theorem replaceIn_self (target : List α) (texts : List (List α)) :
    replaceIn target target texts = texts := by
  induction texts with
  | nil => rfl
  | cons text texts ih =>
      rw [replaceIn, replaceFirst_self, ih]
      exact ite_self _

/-- A target that is in the words in front is replaced there. -/
theorem replaceIn_append_of_mem (h : ∃ text ∈ texts, target <:+: text) :
    replaceIn target value (texts ++ more) = replaceIn target value texts ++ more := by
  induction texts with
  | nil => simp at h
  | cons text texts ih =>
      rw [List.cons_append, replaceIn, replaceIn]
      by_cases hfirst : target <:+: text
      · rw [if_pos hfirst, if_pos hfirst, List.cons_append]
      · rw [if_neg hfirst, if_neg hfirst, ih, List.cons_append]
        simpa [hfirst] using h

/-- Words without the target are passed. -/
theorem replaceIn_append_of_notMem (h : ∀ text ∈ texts, ¬ target <:+: text) :
    replaceIn target value (texts ++ more) = texts ++ replaceIn target value more := by
  induction texts with
  | nil => rfl
  | cons text texts ih =>
      obtain ⟨hfirst, hrest⟩ := List.forall_mem_cons.mp h
      rw [List.cons_append, replaceIn, if_neg hfirst, ih hrest, List.cons_append]

theorem replaceIn_hole (target value suffix : List α) (texts : List (List α)) :
    replaceIn target value ((target ++ suffix) :: texts) = (value ++ suffix) :: texts := by
  rw [replaceIn, if_pos (List.prefix_append target suffix).isInfix, replaceFirst_append]

theorem length_replaceIn (target value : List α) (texts : List (List α)) :
    (replaceIn target value texts).length = texts.length := by
  induction texts with
  | nil => rfl
  | cons text texts ih =>
      rw [replaceIn]
      split_ifs
      · rfl
      · rw [List.length_cons, ih, List.length_cons]

theorem replaceFirst_of_not_isInfix (h : ¬ target <:+: text) :
    replaceFirst target value text = text := by
  rw [← isSome_breakOn_iff, Option.not_isSome_iff_eq_none] at h
  rw [replaceFirst, h]

theorem replaceFirst_append_of_isInfix (h : target <:+: front) (rest : List α) :
    replaceFirst target value (front ++ rest) = replaceFirst target value front ++ rest := by
  obtain ⟨found, hfound⟩ := Option.isSome_iff_exists.mp (isSome_breakOn_iff.mpr h)
  simp [replaceFirst, breakOn_append_of_isInfix h, hfound]

theorem replaceFirst_append_cons (h : ¬ target <:+: front) (hx : x ∉ target) (rest : List α) :
    replaceFirst target value (front ++ x :: rest) =
      front ++ x :: replaceFirst target value rest := by
  rw [replaceFirst, breakOn_append_cons_of_not_isInfix h hx, replaceFirst]
  cases breakOn target rest <;> simp

/-- **Words between separators are searched one by one.** -/
theorem replaceFirst_intercalate (hx : x ∉ target) (htarget : target ≠ [])
    (texts : List (List α)) :
    replaceFirst target value ([x].intercalate texts) =
      [x].intercalate (replaceIn target value texts) := by
  have hcons : ∀ (text next : List α) texts, [x].intercalate (text :: next :: texts) =
      text ++ x :: [x].intercalate (next :: texts) := by
    intro text next texts
    rw [List.intercalate_cons_cons, List.append_assoc]
    rfl
  induction texts with
  | nil => exact replaceFirst_of_not_isInfix fun h => htarget (List.infix_nil.mp h)
  | cons text texts ih =>
      cases texts with
      | nil =>
          rw [replaceIn, List.intercalate_singleton]
          split_ifs with h
          · rw [List.intercalate_singleton]
          · rw [replaceFirst_of_not_isInfix h, replaceIn, List.intercalate_singleton]
      | cons next texts =>
          rw [hcons, replaceIn]
          split_ifs with h
          · rw [replaceFirst_append_of_isInfix h, hcons]
          · have hrest : replaceIn target value (next :: texts) ≠ [] := by
              rw [Ne, ← List.length_eq_zero_iff, length_replaceIn]
              simp
            obtain ⟨next', texts', hrest⟩ := List.exists_cons_of_ne_nil hrest
            rw [replaceFirst_append_cons h hx, ih, hrest, hcons]

end Replacing

/-! ## Filling -/

/-- The target of a later word does not occur in an earlier one, be that filled or not, unless it
stands for itself. -/
def Word.Apart (value : List α → List α) (w w' : Word α) : Prop :=
  ∀ target ∈ w'.target?, value target = target ∨
    (¬ target <:+: w.raw ∧ ¬ target <:+: w.filled value)

instance (value : List α → List α) (w w' : Word α) : Decidable (w.Apart value w') :=
  inferInstanceAs (Decidable (∀ target ∈ w'.target?, value target = target ∨
    (¬ target <:+: w.raw ∧ ¬ target <:+: w.filled value)))

/-- A word when some targets are done. -/
def Word.partly (value : List α → List α) (done : List (List α)) : Word α → List α
  | fixed text => text
  | hole target suffix => (if target ∈ done then value target else target) ++ suffix

section Filling

variable {value : List α → List α} {words : List (Word α)} {done order : List (List α)}
  {target : List α}

theorem Word.partly_nil (w : Word α) : w.partly value [] = w.raw := by
  cases w <;> simp [Word.partly, Word.raw]

/-- Another target does not matter. -/
theorem map_partly_cons_of_notMem (h : target ∉ targets words) :
    words.map (Word.partly value (target :: done)) = words.map (Word.partly value done) := by
  apply List.map_congr_left
  intro w hw
  cases w with
  | fixed text => rfl
  | hole t suffix =>
      have hne : t ≠ target := fun heq => h (mem_targets.mpr ⟨suffix, heq ▸ hw⟩)
      simp [Word.partly, hne]

theorem map_partly_cons_of_self (h : value target = target) :
    words.map (Word.partly value (target :: done)) = words.map (Word.partly value done) := by
  apply List.map_congr_left
  intro w _
  cases w with
  | fixed text => rfl
  | hole t suffix =>
      by_cases ht : t = target
      · subst ht
        simp [Word.partly, h]
      · simp [Word.partly, ht]

theorem Word.Apart.not_isInfix_partly {w w' : Word α} (h : w.Apart value w')
    (htarget : w'.target? = some target) (hvalue : value target ≠ target) :
    ¬ target <:+: w.partly value done := by
  obtain ⟨hraw, hfilled⟩ := (h target htarget).resolve_left hvalue
  cases w with
  | fixed text => exact hraw
  | hole t suffix =>
      rw [Word.partly]
      split_ifs
      · exact hfilled
      · exact hraw

/-- One target is replaced in its own word. -/
theorem replaceIn_partly (hapart : words.Pairwise (Word.Apart value))
    (hnodup : (targets words).Nodup) (htarget : target ∈ targets words) (hnew : target ∉ done) :
    replaceIn target (value target) (words.map (Word.partly value done)) =
      words.map (Word.partly value (target :: done)) := by
  by_cases hvalue : value target = target
  · rw [hvalue, replaceIn_self, map_partly_cons_of_self hvalue]
  induction words with
  | nil => cases htarget
  | cons w words ih =>
      obtain ⟨hfirst, hrest⟩ := List.pairwise_cons.mp hapart
      have hlater : target ∈ targets words → ¬ target <:+: w.partly value done := by
        intro hmem
        obtain ⟨suffix, hw'⟩ := mem_targets.mp hmem
        exact (hfirst _ hw').not_isInfix_partly rfl hvalue
      cases w with
      | fixed text =>
          rw [targets_fixed] at hnodup htarget
          rw [List.map_cons, replaceIn, if_neg (hlater htarget), ih hrest hnodup htarget]
          rfl
      | hole t suffix =>
          rw [targets_hole] at hnodup htarget
          obtain ⟨hfresh, hnodup⟩ := List.nodup_cons.mp hnodup
          rcases List.mem_cons.mp htarget with rfl | htarget
          · have hown : (Word.hole target suffix).partly value done = target ++ suffix := by
              rw [Word.partly, if_neg hnew]
            rw [List.map_cons, hown, replaceIn_hole, List.map_cons,
              map_partly_cons_of_notMem hfresh]
            simp [Word.partly]
          · have hne : t ≠ target := by
              rintro rfl
              exact hfresh htarget
            rw [List.map_cons, replaceIn, if_neg (hlater htarget), ih hrest hnodup htarget]
            simp [Word.partly, hne]

theorem replaceAll_partly (hapart : words.Pairwise (Word.Apart value))
    (hnodup : (targets words).Nodup) (horder : order.Nodup) (hsubset : order ⊆ targets words)
    (hnew : ∀ target ∈ order, target ∉ done) :
    replaceAll value (words.map (Word.partly value done)) order =
      words.map (Word.partly value (order.reverse ++ done)) := by
  induction order generalizing done with
  | nil => rfl
  | cons target order ih =>
      obtain ⟨hfresh, horder⟩ := List.nodup_cons.mp horder
      obtain ⟨htarget, hsubset⟩ := List.cons_subset.mp hsubset
      obtain ⟨hfirst, hnew⟩ := List.forall_mem_cons.mp hnew
      have hnew' : ∀ t ∈ order, t ∉ target :: done := by
        intro t ht hmem
        rcases List.mem_cons.mp hmem with rfl | hmem
        · exact hfresh ht
        · exact hnew t ht hmem
      calc replaceAll value (words.map (Word.partly value done)) (target :: order)
          = replaceAll value (words.map (Word.partly value (target :: done))) order := by
            rw [← replaceIn_partly hapart hnodup htarget hfirst]
            rfl
        _ = words.map (Word.partly value (order.reverse ++ target :: done)) :=
            ih horder hsubset hnew'
        _ = words.map (Word.partly value ((target :: order).reverse ++ done)) := by
            rw [List.reverse_cons, List.append_assoc]
            rfl

/-- **Any order of the targets fills the template.** -/
theorem replaceAll_eq_filled (hapart : words.Pairwise (Word.Apart value))
    (hnodup : (targets words).Nodup) (horder : order.Perm (targets words)) :
    replaceAll value (words.map Word.raw) order = words.map (Word.filled value) := by
  have hraw : words.map Word.raw = words.map (Word.partly value []) :=
    List.map_congr_left fun w _ => w.partly_nil.symm
  rw [hraw, replaceAll_partly hapart hnodup (horder.nodup_iff.mpr hnodup) horder.subset
    fun _ _ => List.not_mem_nil, List.append_nil]
  apply List.map_congr_left
  intro w hw
  cases w with
  | fixed text => rfl
  | hole t suffix =>
      have hdone : t ∈ order.reverse :=
        List.mem_reverse.mpr (horder.mem_iff.mpr (mem_targets.mpr ⟨suffix, hw⟩))
      rw [Word.partly, if_pos hdone]
      rfl

end Filling

end GinCpp.Template
