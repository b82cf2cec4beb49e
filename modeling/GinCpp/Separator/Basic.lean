import Mathlib.Data.List.Infix
import Mathlib.Data.List.TakeWhile

/-!
# Breaking text at a separator

`breakOn` finds the first occurrence of a separator.  `breakOn_lines` is about text made of lines:
an empty line ends it, and what is in front of the empty line are the lines.
-/

namespace GinCpp.Separator

variable {α : Type*} [DecidableEq α] {sep front text : List α} {a : α}

/-! ## One symbol -/

theorem takeWhile_of_notMem (h : a ∉ text) : text.takeWhile (· != a) = text :=
  List.takeWhile_eq_self_iff.mpr fun b hb => by simpa using ne_of_mem_of_not_mem hb h

theorem dropWhile_of_notMem (h : a ∉ text) : text.dropWhile (· != a) = [] :=
  List.dropWhile_eq_nil_iff.mpr fun b hb => by simpa using ne_of_mem_of_not_mem hb h

theorem takeWhile_append_cons (h : a ∉ front) (text : List α) :
    (front ++ a :: text).takeWhile (· != a) = front ∧
      (front ++ a :: text).dropWhile (· != a) = a :: text := by
  have hfront : ∀ b ∈ front, (b != a) = true :=
    fun b hb => by simpa using ne_of_mem_of_not_mem hb h
  constructor
  · rw [List.takeWhile_append_of_pos hfront, List.takeWhile_cons_of_neg (by simp),
      List.append_nil]
  · rw [List.dropWhile_append_of_pos hfront, List.dropWhile_cons_of_neg (by simp)]

/-! ## Several symbols -/

/-- What is in front of the first occurrence of `sep`, and what is behind it. -/
def breakOn (sep : List α) : List α → Option (List α × List α)
  | [] => if sep = [] then some ([], []) else none
  | a :: text =>
      if sep <+: a :: text then some ([], (a :: text).drop sep.length)
      else (breakOn sep text).map (Prod.map (a :: ·) id)

theorem breakOn_append (sep text : List α) : breakOn sep (sep ++ text) = some ([], text) := by
  cases htext : sep ++ text with
  | nil =>
      obtain ⟨rfl, rfl⟩ := List.append_eq_nil_iff.mp htext
      rfl
  | cons a rest =>
      rw [breakOn, ← htext, if_pos (List.prefix_append sep text), List.drop_left]

theorem breakOn_cons (h : ¬ sep <+: a :: text) :
    breakOn sep (a :: text) = (breakOn sep text).map (Prod.map (a :: ·) id) := by
  rw [breakOn, if_neg h]

theorem eq_of_breakOn {text : List α} {found : List α × List α}
    (h : breakOn sep text = some found) :
    text = found.1 ++ sep ++ found.2 := by
  induction text generalizing found with
  | nil =>
      rw [breakOn] at h
      split_ifs at h with hsep
      obtain rfl := Option.some_inj.mp h
      simp [hsep]
  | cons a text ih =>
      rw [breakOn] at h
      split_ifs at h with hstart
      · obtain rfl := Option.some_inj.mp h
        exact (List.prefix_iff_eq_append.mp hstart).symm
      · obtain ⟨below, hbelow, rfl⟩ := Option.map_eq_some_iff.mp h
        rw [ih hbelow]
        rfl

/-- Text is broken if the separator occurs. -/
theorem isSome_breakOn_iff {text : List α} : (breakOn sep text).isSome ↔ sep <:+: text := by
  induction text with
  | nil =>
      rw [breakOn, List.infix_nil]
      split_ifs with hsep <;> simp [hsep]
  | cons a text ih =>
      rw [breakOn, List.infix_cons_iff, ← ih]
      split_ifs with hstart <;> simp [hstart]

/-- What follows the first occurrence does not matter. -/
theorem breakOn_append_of_isInfix {text more : List α} (h : sep <:+: text) :
    breakOn sep (text ++ more) = (breakOn sep text).map (Prod.map id (· ++ more)) := by
  induction text with
  | nil =>
      obtain rfl := List.infix_nil.mp h
      cases more <;> simp [breakOn]
  | cons a text ih =>
      rw [List.cons_append, breakOn, breakOn]
      by_cases hstart : sep <+: a :: text
      · have hmore : sep <+: a :: (text ++ more) :=
          hstart.trans (List.prefix_append (a :: text) more)
        rw [if_pos hstart, if_pos hmore, ← List.cons_append,
          List.drop_append_of_le_length hstart.length_le]
        rfl
      · have hbelow : sep <:+: text := (List.infix_cons_iff.mp h).resolve_left hstart
        have hbelow' : ¬ sep <+: a :: (text ++ more) := by
          intro hstart'
          apply hstart
          exact List.prefix_of_prefix_length_le hstart' (List.prefix_append (a :: text) more)
            h.length_le
        rw [if_neg hstart, if_neg hbelow', ih hbelow, Option.map_map, Option.map_map]
        rfl

/-- A symbol that is not in the separator is passed, with all in front of it. -/
theorem breakOn_append_cons_of_not_isInfix {text : List α} {x : α} (h : ¬ sep <:+: text)
    (hx : x ∉ sep) (more : List α) : breakOn sep (text ++ x :: more) =
      (breakOn sep more).map (Prod.map ((text ++ [x]) ++ ·) id) := by
  have hstart : ∀ front, ¬ sep <:+: front → ¬ sep <+: front ++ x :: more := by
    intro front hfront hstart
    rcases List.prefix_or_prefix_of_prefix hstart (List.prefix_append front (x :: more)) with
      hle | hle
    · exact hfront hle.isInfix
    · obtain ⟨rest, rfl⟩ := hle
      rw [List.prefix_append_right_inj] at hstart
      cases rest with
      | nil => exact hfront (by simp)
      | cons y rest =>
          obtain rfl := (List.cons_prefix_cons.mp hstart).1
          exact hx (by simp)
  induction text with
  | nil => rw [List.nil_append, breakOn_cons (hstart [] h)]; rfl
  | cons a text ih =>
      have hbelow : ¬ sep <:+: text := fun hbelow => h (List.infix_cons_iff.mpr (Or.inr hbelow))
      have hfirst : ¬ sep <+: a :: (text ++ x :: more) := hstart (a :: text) h
      rw [List.cons_append, breakOn_cons hfirst, ih hbelow, Option.map_map]
      rfl

/-- Symbols that do not begin the separator are passed. -/
theorem breakOn_append_of_notMem (h : a ∉ front) :
    breakOn (a :: sep) (front ++ text) =
      (breakOn (a :: sep) text).map (Prod.map (front ++ ·) id) := by
  induction front with
  | nil => exact (congrFun Option.map_id _).symm
  | cons b front ih =>
      obtain ⟨hb, hfront⟩ : a ≠ b ∧ a ∉ front := by simpa using h
      have hstart : ¬ a :: sep <+: b :: (front ++ text) := fun hstart =>
        hb (List.cons_prefix_cons.mp hstart).1
      rw [List.cons_append, breakOn_cons hstart, ih hfront, Option.map_map]
      rfl

/-- A line end is no empty line if something else follows. -/
theorem breakOn_lineEnd {cr lf : α} (hne : cr ≠ lf) (htext : text.head? ≠ some cr) :
    breakOn [cr, lf, cr, lf] ([cr, lf] ++ text) =
      (breakOn [cr, lf, cr, lf] text).map (Prod.map ([cr, lf] ++ ·) id) := by
  have hfirst : ¬ [cr, lf, cr, lf] <+: cr :: lf :: text := by
    intro hstart
    rw [List.cons_prefix_cons, List.cons_prefix_cons] at hstart
    obtain ⟨more, rfl⟩ := hstart.2.2
    exact htext rfl
  have hsecond : ¬ [cr, lf, cr, lf] <+: lf :: text := fun hstart =>
    hne (List.cons_prefix_cons.mp hstart).1
  calc breakOn [cr, lf, cr, lf] ([cr, lf] ++ text)
      = ((breakOn [cr, lf, cr, lf] text).map (Prod.map (lf :: ·) id)).map
          (Prod.map (cr :: ·) id) := by
        rw [← breakOn_cons hsecond, ← breakOn_cons hfirst]
        rfl
    _ = (breakOn [cr, lf, cr, lf] text).map (Prod.map ([cr, lf] ++ ·) id) := by
        rw [Option.map_map]
        rfl

omit [DecidableEq α] in
/-- Lines with an end each are lines with an end between them and one behind. -/
theorem intercalate_append {lines : List (List α)} (h : lines ≠ []) :
    sep.intercalate lines ++ sep = lines.flatMap (· ++ sep) := by
  induction lines with
  | nil => exact absurd rfl h
  | cons line lines ih =>
      cases lines with
      | nil => simp
      | cons next lines =>
          rw [List.intercalate_cons_cons, List.append_assoc, ih (List.cons_ne_nil _ _)]
          rfl

/-- **An empty line ends the lines.** -/
theorem breakOn_lines {cr lf : α} (hne : cr ≠ lf) {lines : List (List α)} (hlines : lines ≠ [])
    (h : ∀ line ∈ lines, line ≠ [] ∧ cr ∉ line) (rest : List α) :
    breakOn [cr, lf, cr, lf] ([cr, lf].intercalate lines ++ ([cr, lf, cr, lf] ++ rest)) =
      some ([cr, lf].intercalate lines, rest) := by
  induction lines with
  | nil => exact absurd rfl hlines
  | cons line lines ih =>
      obtain ⟨⟨-, hline⟩, hmore⟩ := List.forall_mem_cons.mp h
      cases lines with
      | nil =>
          rw [List.intercalate_singleton, breakOn_append_of_notMem hline, breakOn_append]
          simp
      | cons next lines =>
          obtain ⟨⟨hnext, hcr⟩, -⟩ := List.forall_mem_cons.mp hmore
          obtain ⟨a, next, rfl⟩ := List.exists_cons_of_ne_nil hnext
          have hhead : ([cr, lf].intercalate ((a :: next) :: lines) ++
              ([cr, lf, cr, lf] ++ rest)).head? ≠ some cr := by
            rw [List.intercalate_cons_cons_left, List.cons_append, List.head?_cons]
            rintro ⟨rfl⟩
            exact hcr List.mem_cons_self
          have hbreak := ih (List.cons_ne_nil _ _) hmore
          rw [List.intercalate_cons_cons, List.append_assoc, List.append_assoc,
            breakOn_append_of_notMem hline, breakOn_lineEnd hne hhead, hbreak]
          simp

end GinCpp.Separator
