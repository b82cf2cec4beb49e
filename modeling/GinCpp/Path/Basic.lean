import Mathlib.Data.List.DropRight
import Mathlib.Data.List.Infix

/-!
# File names

A name is a list of symbols, divided by a slash into components; empty components and single dots
say nothing.  `normalise` leaves them out.  `inside_append_iff` says when a text put behind the name
of a directory names something in it.
-/

namespace GinCpp.Path

variable {α : Type*} [DecidableEq α] (slash dot : α)

/-- What a name leads through. -/
def components (name : List α) : List (List α) :=
  (name.splitOn slash).filter fun piece => piece ≠ [] ∧ piece ≠ [dot]

/-- A name with repeated slashes collapsed and single dots removed. -/
def normalise (name : List α) : List α :=
  (if name.head? = some slash then [slash] else []) ++
    [slash].intercalate (components slash dot name)

/-- A name is that of a directory, or it begins with it and a slash.  A directory whose name is
empty is the one that relative names start from. -/
def Inside (directory name : List α) : Prop :=
  if normalise slash dot directory = [] then name.head? ≠ some slash
  else normalise slash dot name = normalise slash dot directory ∨
    normalise slash dot directory ++ [slash] <+: normalise slash dot name

instance (directory name : List α) : Decidable (Inside slash dot directory name) :=
  inferInstanceAs (Decidable (if normalise slash dot directory = [] then name.head? ≠ some slash
    else normalise slash dot name = normalise slash dot directory ∨
      normalise slash dot directory ++ [slash] <+: normalise slash dot name))

/-- What is behind the last slash of a name. -/
def lastPiece (name : List α) : List α := name.rtakeWhile (· ≠ slash)

variable {slash dot} {name front text piece : List α} {pieces : List (List α)}

/-! ## Components -/

theorem components_nil : components slash dot [] = [] := by
  simp [components]

theorem components_append_cons (front text : List α) :
    components slash dot (front ++ slash :: text) =
      components slash dot front ++ components slash dot text := by
  unfold components
  rw [List.splitOn_append_cons_self, List.filter_append]

/-- A piece without a slash is a component or nothing. -/
theorem components_of_notMem (h : slash ∉ piece) : components slash dot piece =
    if piece ≠ [] ∧ piece ≠ [dot] then [piece] else [] := by
  unfold components
  rw [List.splitOn_eq_singleton h, List.filter_singleton]
  by_cases hpiece : piece ≠ [] ∧ piece ≠ [dot]
  · rw [if_pos hpiece, decide_eq_true hpiece]
    rfl
  · rw [if_neg hpiece, decide_eq_false hpiece]
    rfl

theorem not_mem_lastPiece (name : List α) : slash ∉ lastPiece slash name := by
  intro hmem
  simpa using List.mem_rtakeWhile_imp hmem

variable (slash) in
/-- The last slash of a name, if it has one. -/
theorem eq_lastPiece_or_exists_front (name : List α) : name = lastPiece slash name ∨
    ∃ front, name = front ++ slash :: lastPiece slash name := by
  induction name using List.reverseRecOn with
  | nil => exact .inl rfl
  | append_singleton name a ih =>
      unfold lastPiece at ih ⊢
      by_cases ha : a = slash
      · subst ha
        rw [List.rtakeWhile_concat_neg _ _ _ (by simp)]
        exact .inr ⟨name, rfl⟩
      · rw [List.rtakeWhile_concat_pos _ _ _ (by simpa using ha)]
        rcases ih with hname | ⟨front, hname⟩
        · exact .inl (congrArg (· ++ [a]) hname)
        · refine .inr ⟨front, ?_⟩
          rw [← List.cons_append, ← List.append_assoc, ← hname]

/-- A component is not empty, is no single dot and has no slash. -/
theorem of_mem_components (h : piece ∈ components slash dot name) :
    piece ≠ [] ∧ piece ≠ [dot] ∧ slash ∉ piece := by
  have hlast : ∀ name, piece ∈ components slash dot (lastPiece slash name) →
      piece ≠ [] ∧ piece ≠ [dot] ∧ slash ∉ piece := by
    intro name hmem
    rw [components_of_notMem (not_mem_lastPiece name)] at hmem
    split_ifs at hmem with hkept
    · obtain rfl := List.mem_singleton.mp hmem
      exact ⟨hkept.1, hkept.2, not_mem_lastPiece name⟩
    · cases hmem
  induction hlength : name.length using Nat.strongRecOn generalizing name with
  | ind n ih =>
      rcases eq_lastPiece_or_exists_front slash name with hname | ⟨front, hname⟩
      · rw [hname] at h
        exact hlast name h
      · rw [hname, components_append_cons, List.mem_append] at h
        rcases h with hfront | hpiece
        · have hshorter : front.length < n := by
            rw [← hlength, hname, List.length_append, List.length_cons]
            omega
          exact ih front.length hshorter hfront rfl
        · exact hlast name hpiece

/-- The components of joined pieces are those that say something. -/
theorem components_intercalate_eq_filter (h : ∀ piece ∈ pieces, slash ∉ piece) :
    components slash dot ([slash].intercalate pieces) =
      pieces.filter fun piece => piece ≠ [] ∧ piece ≠ [dot] := by
  induction pieces with
  | nil => exact components_nil
  | cons piece pieces ih =>
      obtain ⟨hpiece, hmore⟩ := List.forall_mem_cons.mp h
      have hfirst : components slash dot piece =
          [piece].filter fun piece => piece ≠ [] ∧ piece ≠ [dot] := by
        rw [components, List.splitOn_eq_singleton hpiece]
      cases pieces with
      | nil => rw [List.intercalate_singleton, hfirst]
      | cons next pieces =>
          rw [List.intercalate_cons_cons, List.append_assoc, List.singleton_append,
            components_append_cons, hfirst, ih hmore, ← List.filter_append]
          rfl

theorem components_intercalate
    (h : ∀ piece ∈ pieces, piece ≠ [] ∧ piece ≠ [dot] ∧ slash ∉ piece) :
    components slash dot ([slash].intercalate pieces) = pieces := by
  rw [components_intercalate_eq_filter fun piece hpiece => (h piece hpiece).2.2,
    List.filter_eq_self]
  exact fun piece hpiece => decide_eq_true ⟨(h piece hpiece).1, (h piece hpiece).2.1⟩

/-! ## Normal names -/

theorem components_normalise (name : List α) :
    components slash dot (normalise slash dot name) = components slash dot name := by
  have hpieces : components slash dot ([slash].intercalate (components slash dot name)) =
      components slash dot name := components_intercalate fun _ => of_mem_components
  unfold normalise
  split_ifs
  · calc components slash dot ([] ++ slash :: [slash].intercalate (components slash dot name))
        = components slash dot [] ++
            components slash dot ([slash].intercalate (components slash dot name)) :=
          components_append_cons [] _
      _ = components slash dot name := by rw [hpieces, components_nil, List.nil_append]
  · exact hpieces

omit [DecidableEq α] in
/-- Pieces without a slash do not begin with one. -/
theorem head?_intercalate_ne (h : ∀ piece ∈ pieces, piece ≠ [] ∧ slash ∉ piece) :
    ([slash].intercalate pieces).head? ≠ some slash := by
  cases pieces with
  | nil => exact nofun
  | cons piece pieces =>
      obtain ⟨hne, hslash⟩ := h piece List.mem_cons_self
      obtain ⟨a, piece, rfl⟩ := List.exists_cons_of_ne_nil hne
      have ha : a ≠ slash := by
        rintro rfl
        exact hslash List.mem_cons_self
      cases pieces with
      | nil => simpa using ha
      | cons next pieces => simpa [List.intercalate_cons_cons] using ha

theorem head?_normalise (name : List α) :
    (normalise slash dot name).head? = some slash ↔ name.head? = some slash := by
  unfold normalise
  split_ifs with habsolute
  · exact iff_of_true rfl habsolute
  · refine iff_of_false (head?_intercalate_ne fun piece hpiece => ?_) habsolute
    obtain ⟨hne, -, hslash⟩ := of_mem_components hpiece
    exact ⟨hne, hslash⟩

theorem normalise_of_relative (h : name.head? ≠ some slash) :
    normalise slash dot name = [slash].intercalate (components slash dot name) := by
  unfold normalise
  rw [if_neg h]
  rfl

/-- Two names are the same if both are absolute or neither is, and the components are the same. -/
theorem normalise_eq_iff {other : List α} :
    normalise slash dot name = normalise slash dot other ↔
      (name.head? = some slash ↔ other.head? = some slash) ∧
        components slash dot name = components slash dot other := by
  constructor
  · intro hsame
    refine ⟨?_, ?_⟩
    · have hhead : ∀ text : List α,
          (normalise slash dot text).head? = some slash ↔ text.head? = some slash :=
        fun text => head?_normalise text
      rw [← hhead name, hsame, hhead]
    · rw [← components_normalise name, hsame, components_normalise]
  · rintro ⟨habsolute, hcomponents⟩
    unfold normalise
    simp only [habsolute, hcomponents]

omit [DecidableEq α] in
/-- A text without a slash in it is on one side of every slash. -/
theorem isInfix_append_cons_iff {within : List α} (h : slash ∉ within) (front text : List α) :
    within <:+: front ++ slash :: text ↔ within <:+: front ∨ within <:+: text := by
  constructor
  · rintro ⟨before, after, heq⟩
    rw [List.append_assoc] at heq
    rcases List.append_eq_append_iff.mp heq with ⟨middle, rfl, hrest⟩ | ⟨middle, rfl, hrest⟩
    · -- it begins in front of the slash
      left
      rcases List.append_eq_append_iff.mp hrest with ⟨more, hmiddle, -⟩ | ⟨more, hwithin, hslash⟩
      · rw [hmiddle]
        exact ⟨before, more, (List.append_assoc _ _ _)⟩
      · cases more with
        | nil =>
            rw [hwithin, List.append_nil]
            exact (List.suffix_append _ _).isInfix
        | cons a more =>
            obtain ⟨rfl, -⟩ := List.cons.inj hslash
            exact absurd (hwithin ▸ by simp) h
    · cases middle with
      | nil =>
          cases within with
          | nil => exact Or.inl (List.nil_infix)
          | cons a within =>
              obtain ⟨rfl, -⟩ := List.cons.inj hrest
              exact absurd List.mem_cons_self h
      | cons a middle =>
          obtain ⟨-, rfl⟩ := List.cons.inj hrest
          exact Or.inr ⟨middle, after, List.append_assoc _ _ _⟩
  · rintro (hfront | htext)
    · exact hfront.trans (List.prefix_append _ _).isInfix
    · exact htext.trans ((List.suffix_cons _ _).trans (List.suffix_append _ _)).isInfix

omit [DecidableEq α] in
theorem isInfix_intercalate_iff {within : List α} (h : slash ∉ within) (hne : within ≠ []) :
    within <:+: [slash].intercalate pieces ↔ ∃ piece ∈ pieces, within <:+: piece := by
  induction pieces with
  | nil => simp [hne]
  | cons piece pieces ih =>
      cases pieces with
      | nil => simp
      | cons next pieces =>
          rw [List.intercalate_cons_cons, List.append_assoc, List.singleton_append,
            isInfix_append_cons_iff h, ih]
          exact (List.exists_mem_cons_iff _ _ _).symm

omit [DecidableEq α] in
theorem intercalate_append {first second : List (List α)} (hfirst : first ≠ [])
    (hsecond : second ≠ []) : [slash].intercalate (first ++ second) =
      [slash].intercalate first ++ [slash] ++ [slash].intercalate second := by
  induction first with
  | nil => exact absurd rfl hfirst
  | cons piece first ih =>
      cases first with
      | nil =>
          obtain ⟨next, second, rfl⟩ := List.exists_cons_of_ne_nil hsecond
          rw [List.singleton_append, List.intercalate_cons_cons, List.intercalate_singleton]
      | cons next first =>
          rw [List.cons_append, List.cons_append, List.intercalate_cons_cons, ← List.cons_append,
            ih (List.cons_ne_nil _ _), List.intercalate_cons_cons]
          simp only [List.append_assoc]

/-! ## Directories -/

/-- **A name in a directory** leads through the components of the directory first. -/
theorem inside_iff {directory : List α} (hrelative : directory.head? ≠ some slash) :
    Inside slash dot directory name ↔ name.head? ≠ some slash ∧
      components slash dot directory <+: components slash dot name := by
  have hdirectory : normalise slash dot directory =
      [slash].intercalate (components slash dot directory) := normalise_of_relative hrelative
  unfold Inside
  split_ifs with hempty
  · have hnone : components slash dot directory = [] := by
      rw [← components_normalise, hempty, components_nil]
    rw [hnone]
    exact (and_iff_left List.nil_prefix).symm
  · have hnormal : (normalise slash dot directory).head? ≠ some slash :=
      fun h => hrelative ((head?_normalise directory).mp h)
    constructor
    · rintro (heq | ⟨rest, hrest⟩)
      · refine ⟨fun h => hnormal ?_, ?_⟩
        · rw [← heq]
          exact (head?_normalise name).mpr h
        · rw [← components_normalise directory, ← heq, components_normalise]
      · refine ⟨fun h => hnormal ?_, ?_⟩
        · have hhead : (normalise slash dot name).head? = some slash := (head?_normalise name).mpr h
          rwa [← hrest, List.append_assoc, List.head?_append_of_ne_nil _ hempty] at hhead
        · rw [← components_normalise name, ← hrest, List.append_assoc, List.singleton_append,
            components_append_cons, components_normalise]
          exact List.prefix_append _ _
    · rintro ⟨hname, rest, hrest⟩
      rw [normalise_of_relative hname, hdirectory, ← hrest]
      by_cases hnil : rest = []
      · rw [hnil, List.append_nil]
        exact .inl rfl
      · have hsome : components slash dot directory ≠ [] := by
          intro hnone
          rw [hdirectory, hnone] at hempty
          exact hempty rfl
        rw [intercalate_append hsome hnil]
        exact .inr (List.prefix_append _ _)

/-- A piece without a slash, and what is put behind it. -/
theorem components_prefix_append_iff (h : slash ∉ piece) (text : List α) :
    components slash dot piece <+: components slash dot (piece ++ text) ↔
      text = [] ∨ text.head? = some slash ∨ piece = [] ∨ piece = [dot] := by
  by_cases hkept : piece ≠ [] ∧ piece ≠ [dot]
  · have hlonger : ∀ more, piece ++ more ≠ [] ∧ piece ++ more ≠ [dot] := by
      intro more
      refine ⟨fun hnil => hkept.1 (List.append_eq_nil_iff.mp hnil).1, fun hdot => ?_⟩
      rcases List.append_eq_singleton_iff.mp hdot with ⟨hnil, -⟩ | ⟨hpiece, -⟩
      · exact hkept.1 hnil
      · exact hkept.2 hpiece
    have hsame : ∀ more rest, [piece] <+: (piece ++ more) :: rest ↔ more = [] := by
      intro more rest
      rw [List.cons_prefix_cons, and_iff_left List.nil_prefix]
      exact ⟨fun heq => List.append_cancel_left (heq.symm.trans (List.append_nil _).symm),
        fun hnil => by rw [hnil, List.append_nil]⟩
    have hneither : ¬ (piece = [] ∨ piece = [dot]) := not_or.mpr hkept
    rw [components_of_notMem h, if_pos hkept, ← or_assoc, or_iff_left hneither]
    by_cases hslash : slash ∈ text
    · obtain ⟨front, rest, rfl, hfront⟩ := List.eq_append_cons_of_mem hslash
      have hpiece : slash ∉ piece ++ front := by simp [h, hfront]
      rw [← List.append_assoc, components_append_cons, components_of_notMem hpiece,
        if_pos (hlonger front), List.singleton_append, hsame]
      cases front with
      | nil => exact iff_of_true rfl (.inr rfl)
      | cons a front =>
          refine iff_of_false (List.cons_ne_nil _ _) ?_
          rintro (hnil | hhead)
          · cases hnil
          · exact hfront (List.mem_cons.mpr (.inl (Option.some_inj.mp hhead).symm))
    · have hpiece : slash ∉ piece ++ text := by simp [h, hslash]
      rw [components_of_notMem hpiece, if_pos (hlonger text), hsame]
      refine (or_iff_left fun hhead => hslash ?_).symm
      exact List.mem_of_head? hhead
  · rw [components_of_notMem h, if_neg hkept]
    refine iff_of_true List.nil_prefix (.inr (.inr ?_))
    exact Decidable.of_not_not fun hne => hkept (not_or.mp hne)

/-- **A text behind the name of a directory** names something in it if it is set off by a slash, or
if the directory does not end in a component. -/
theorem inside_append_iff {directory : List α} (hrelative : directory.head? ≠ some slash)
    (text : List α) : Inside slash dot directory (directory ++ text) ↔
      if directory = [] then text.head? ≠ some slash
      else text = [] ∨ text.head? = some slash ∨
        lastPiece slash directory = [] ∨ lastPiece slash directory = [dot] := by
  rw [inside_iff hrelative]
  split_ifs with hnil
  · rw [hnil, components_nil]
    exact and_iff_left List.nil_prefix
  · rw [List.head?_append_of_ne_nil _ hnil, and_iff_right hrelative,
      ← components_prefix_append_iff (not_mem_lastPiece directory)]
    rcases eq_lastPiece_or_exists_front slash directory with hlast | ⟨front, hfront⟩
    · rw [← hlast]
    · have hsplit : components slash dot directory =
          components slash dot front ++ components slash dot (lastPiece slash directory) := by
        rw [← components_append_cons, ← hfront]
      have hlonger : components slash dot (directory ++ text) = components slash dot front ++
          components slash dot (lastPiece slash directory ++ text) := by
        rw [← components_append_cons, ← List.cons_append, ← List.append_assoc, ← hfront]
      rw [hsplit, hlonger, List.prefix_append_right_inj]

end GinCpp.Path
