import GinCpp.Separator.Basic

/-!
# Tables as text

A table is written row by row, the fields of a row with a separator between them and a stop behind
the row.  A reader who splits at the stops and at the separators reads the table back if and only
if no field has one of either kind in it (`read_text_iff`).  Rows may be written behind others that
are there already (`read_append`).
-/

namespace GinCpp.Table

variable {α : Type*} [DecidableEq α] {sep stop : α}

/-- What is written for some rows. -/
def text (sep stop : α) (rows : List (List (List α))) : List α :=
  rows.flatMap fun row => [sep].intercalate row ++ [stop]

/-- The rows of a text, the last of which is ended. -/
def read (sep stop : α) (text : List α) : Option (List (List (List α))) :=
  let pieces := text.splitOn stop
  if pieces.getLast? = some [] then some (pieces.dropLast.map (·.splitOn sep)) else none

/-! ## Pieces -/

theorem of_mem_splitOn {a : α} {text piece : List α} (h : piece ∈ text.splitOn a) :
    a ∉ piece ∧ ∀ b ∈ piece, b ∈ text := by
  induction text generalizing piece with
  | nil =>
      rw [List.splitOn_nil, List.mem_singleton] at h
      rw [h]
      exact ⟨List.not_mem_nil, nofun⟩
  | cons c text ih =>
      rw [List.splitOn_cons_eq_if_modifyHead] at h
      have hpast : ∀ {piece}, piece ∈ text.splitOn a → a ∉ piece ∧ ∀ b ∈ piece, b ∈ c :: text :=
        fun hpiece => ⟨(ih hpiece).1, fun b hb => List.mem_cons_of_mem c ((ih hpiece).2 b hb)⟩
      split_ifs at h with hc
      · rcases List.mem_cons.mp h with rfl | hpiece
        · exact ⟨List.not_mem_nil, nofun⟩
        · exact hpast hpiece
      · cases hpieces : text.splitOn a with
        | nil => exact absurd hpieces (List.splitOn_ne_nil a text)
        | cons first pieces =>
            rw [hpieces, List.modifyHead_cons] at h
            rw [hpieces] at hpast
            rcases List.mem_cons.mp h with rfl | hpiece
            · obtain ⟨hfirst, hmem⟩ := hpast List.mem_cons_self
              have hne : ¬ a = c := fun heq => hc (by rw [heq]; exact beq_self_eq_true c)
              exact ⟨by simp [hne, hfirst], List.forall_mem_cons.mpr ⟨List.mem_cons_self, hmem⟩⟩
            · exact hpast (List.mem_cons_of_mem _ hpiece)

/-! ## Reading -/

theorem read_nil : read sep stop ([] : List α) = some [] := by
  simp [read]

/-- Rows behind some that are ended. -/
theorem read_append_cons (front back : List α) : read sep stop (front ++ stop :: back) =
    (read sep stop back).map ((front.splitOn stop).map (·.splitOn sep) ++ ·) := by
  have hne : back.splitOn stop ≠ [] := List.splitOn_ne_nil stop back
  rw [read, read, List.splitOn_append_cons_self, List.getLast?_append_of_ne_nil _ hne]
  split_ifs with hlast
  · rw [List.dropLast_append_of_ne_nil hne, List.map_append]
    rfl
  · rfl

omit [DecidableEq α] in
theorem intercalate_concat_nil {pieces : List (List α)} (h : pieces ≠ []) :
    [stop].intercalate (pieces ++ [[]]) = [stop].intercalate pieces ++ [stop] := by
  induction pieces with
  | nil => exact absurd rfl h
  | cons piece pieces ih =>
      cases pieces with
      | nil => simp
      | cons next pieces =>
          rw [List.cons_append, List.cons_append, List.intercalate_cons_cons, ← List.cons_append,
            ih (List.cons_ne_nil _ _), List.intercalate_cons_cons]
          simp only [List.append_assoc]

/-- A text that can be read is empty or ends with a stop. -/
theorem eq_nil_or_concat_of_read {front : List α} {rows : List (List (List α))}
    (h : read sep stop front = some rows) : front = [] ∨ ∃ text, front = text ++ [stop] := by
  rw [read] at h
  split_ifs at h with hlast
  obtain ⟨pieces, hpieces⟩ := List.getLast?_eq_some_iff.mp hlast
  have hfront : front = [stop].intercalate (pieces ++ [[]]) := by
    rw [← hpieces, List.intercalate_splitOn]
  by_cases hnone : pieces = []
  · left
    rw [hfront, hnone]
    rfl
  · right
    exact ⟨_, hfront.trans (intercalate_concat_nil hnone)⟩

/-- Reading begins anew behind rows that can be read. -/
theorem read_append {front back : List α} {rows : List (List (List α))}
    (h : read sep stop front = some rows) :
    read sep stop (front ++ back) = (read sep stop back).map (rows ++ ·) := by
  rcases eq_nil_or_concat_of_read h with rfl | ⟨text, rfl⟩
  · obtain rfl := Option.some_inj.mp (read_nil.symm.trans h)
    exact Option.map_id'.symm
  · rw [read_append_cons, read_nil, Option.map_some, List.append_nil] at h
    rw [List.append_assoc, List.singleton_append, read_append_cons, ← Option.some_inj.mp h]

/-! ## Reading what was written -/

/-- A row whose fields can be told apart. -/
def Unbroken (sep stop : α) (row : List (List α)) : Prop :=
  ∀ field ∈ row, sep ∉ field ∧ stop ∉ field

instance (row : List (List α)) : Decidable (Unbroken sep stop row) :=
  inferInstanceAs (Decidable (∀ field ∈ row, sep ∉ field ∧ stop ∉ field))

omit [DecidableEq α] in
theorem notMem_intercalate {a : α} (hsep : a ≠ sep) {row : List (List α)}
    (h : ∀ field ∈ row, a ∉ field) : a ∉ [sep].intercalate row := by
  induction row with
  | nil => exact List.not_mem_nil
  | cons field row ih =>
      obtain ⟨hfield, hrow⟩ := List.forall_mem_cons.mp h
      cases row with
      | nil => rwa [List.intercalate_singleton]
      | cons next row =>
          rw [List.intercalate_cons_cons]
          refine List.not_mem_append (List.not_mem_append hfield ?_) (ih hrow)
          rwa [List.mem_singleton]

theorem read_text (hsep : stop ≠ sep) {rows : List (List (List α))}
    (h : ∀ row ∈ rows, row ≠ [] ∧ Unbroken sep stop row) :
    read sep stop (text sep stop rows) = some rows := by
  induction rows with
  | nil => exact read_nil
  | cons row rows ih =>
      obtain ⟨⟨hne, hrow⟩, hrows⟩ := List.forall_mem_cons.mp h
      have hstop : stop ∉ [sep].intercalate row :=
        notMem_intercalate hsep fun field hfield => (hrow field hfield).2
      have hfields : ([sep].intercalate row).splitOn sep = row :=
        List.splitOn_intercalate sep (fun field hfield => (hrow field hfield).1) hne
      rw [text, List.flatMap_cons, List.append_assoc, List.singleton_append, read_append_cons,
        List.splitOn_eq_singleton hstop]
      rw [text] at ih
      rw [ih hrows, List.map_singleton, hfields]
      rfl

/-- **A table behind another one is read back** if and only if all of its fields are unbroken. -/
theorem read_append_text_iff (hsep : stop ≠ sep) {front : List α}
    {old rows : List (List (List α))} (hfront : read sep stop front = some old)
    (hrows : ∀ row ∈ rows, row ≠ []) :
    read sep stop (front ++ text sep stop rows) = some (old ++ rows) ↔
      ∀ row ∈ rows, Unbroken sep stop row := by
  rw [read_append hfront]
  constructor
  · intro h row hrow field hfield
    obtain ⟨rows', hread, happend⟩ := Option.map_eq_some_iff.mp h
    obtain rfl := List.append_cancel_left happend
    rw [read] at hread
    split_ifs at hread
    rw [← Option.some_inj.mp hread] at hrow
    obtain ⟨piece, hpiece, rfl⟩ := List.mem_map.mp hrow
    obtain ⟨hfieldSep, hmem⟩ := of_mem_splitOn hfield
    have hpieceStop := (of_mem_splitOn (List.mem_of_mem_dropLast hpiece)).1
    exact ⟨hfieldSep, fun hc => hpieceStop (hmem _ hc)⟩
  · intro h
    rw [read_text hsep fun row hrow => ⟨hrows row hrow, h row hrow⟩]
    rfl

end GinCpp.Table
