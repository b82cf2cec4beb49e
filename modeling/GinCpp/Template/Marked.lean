import GinCpp.Template.Orders
import Mathlib.Data.List.Forall2

/-!
# Templates up to a mark

Of the words between separators only those in front of the first mark are read, `cut`.  They give
what is meant (`Gives`) if each is the value of its word, and the mark is behind the last one.
-/

namespace GinCpp.Template

variable {α : Type*} [DecidableEq α] {value : List α → List α} {mark x : α}

/-! ## Reading up to a mark -/

/-- The words in front of the first mark. -/
def cut (mark : α) : List (List α) → List (List α)
  | [] => []
  | text :: texts =>
      if mark ∈ text then [text.takeWhile (· != mark)] else text :: cut mark texts

theorem cut_ne_nil (mark : α) {texts : List (List α)} (h : texts ≠ []) : cut mark texts ≠ [] := by
  cases texts with
  | nil => exact absurd rfl h
  | cons text texts =>
      rw [cut]
      split_ifs <;> exact List.cons_ne_nil _ _

theorem takeWhile_append_of_mem {front back : List α} (h : mark ∈ front) :
    (front ++ back).takeWhile (· != mark) = front.takeWhile (· != mark) := by
  induction front with
  | nil => cases h
  | cons a front ih =>
      rw [List.cons_append, List.takeWhile_cons, List.takeWhile_cons]
      by_cases ha : a = mark
      · simp [ha]
      · rw [ih ((List.mem_cons.mp h).resolve_left (Ne.symm ha))]

theorem takeWhile_append_of_notMem {front : List α} (h : mark ∉ front) (back : List α) :
    (front ++ back).takeWhile (· != mark) = front ++ back.takeWhile (· != mark) := by
  apply List.takeWhile_append_of_pos
  intro a ha
  simpa using fun hmark : a = mark => h (hmark ▸ ha)

theorem takeWhile_of_notMem {text : List α} (h : mark ∉ text) :
    text.takeWhile (· != mark) = text := by
  have htake := takeWhile_append_of_notMem h []
  rwa [List.append_nil, List.takeWhile_nil, List.append_nil] at htake

theorem exists_eq_takeWhile_append {text : List α} (h : mark ∈ text) :
    ∃ extra, text = text.takeWhile (· != mark) ++ mark :: extra := by
  induction text with
  | nil => cases h
  | cons a text ih =>
      by_cases ha : a = mark
      · exact ⟨text, by simp [ha]⟩
      · obtain ⟨extra, hextra⟩ := ih ((List.mem_cons.mp h).resolve_left (Ne.symm ha))
        refine ⟨extra, ?_⟩
        rw [List.takeWhile_cons_of_pos (by simpa using ha), List.cons_append, ← hextra]

/-- **Reading text up to a mark is reading its words up to the mark.** -/
theorem takeWhile_intercalate (hx : x ≠ mark) (texts : List (List α)) :
    ([x].intercalate texts).takeWhile (· != mark) = [x].intercalate (cut mark texts) := by
  induction texts with
  | nil => rfl
  | cons text texts ih =>
      rw [cut]
      cases texts with
      | nil =>
          rw [List.intercalate_singleton]
          split_ifs with hmark
          · rw [List.intercalate_singleton]
          · rw [takeWhile_of_notMem hmark, cut, List.intercalate_singleton]
      | cons next texts =>
          rw [List.intercalate_cons_cons, List.append_assoc]
          split_ifs with hmark
          · rw [takeWhile_append_of_mem hmark, List.intercalate_singleton]
          · have hsep : mark ∉ [x] := by simpa using Ne.symm hx
            rw [takeWhile_append_of_notMem hmark, takeWhile_append_of_notMem hsep, ih]
            obtain ⟨first, rest, hcut⟩ :=
              List.exists_cons_of_ne_nil (cut_ne_nil mark (List.cons_ne_nil next texts))
            rw [hcut, List.intercalate_cons_cons, List.append_assoc]

/-! ## What happens to each word -/

omit [DecidableEq α] in
theorem trans_forall₂ {R : List α → List α → Prop}
    (htrans : ∀ text text' text'', R text text' → R text' text'' → R text text'')
    {texts texts' texts'' : List (List α)} (h : List.Forall₂ R texts texts')
    (h' : List.Forall₂ R texts' texts'') : List.Forall₂ R texts texts'' := by
  induction h generalizing texts'' with
  | nil => exact h'
  | cons hfirst hrest ih =>
      cases h' with
      | cons hfirst' hrest' => exact .cons (htrans _ _ _ hfirst hfirst') (ih hrest')

/-- What a replacement does to a text, any number of them do to each word. -/
theorem forall₂_replaceAll {R : List α → List α → Prop} (hrefl : ∀ text, R text text)
    (htrans : ∀ text text' text'', R text text' → R text' text'' → R text text'')
    {order : List (List α)} (hstep : ∀ target ∈ order, ∀ before after,
      R (before ++ target ++ after) (before ++ value target ++ after)) (texts : List (List α)) :
    List.Forall₂ R texts (replaceAll value texts order) := by
  have hone : ∀ target ∈ order, ∀ texts, List.Forall₂ R texts
      (replaceIn target (value target) texts) := by
    intro target htarget texts
    induction texts with
    | nil => exact .nil
    | cons text texts ih =>
        rw [replaceIn]
        split_ifs with hinfix
        · obtain ⟨before, after, rfl, hreplace⟩ := replaceFirst_eq (value target) hinfix
          rw [hreplace]
          exact .cons (hstep target htarget before after)
            (List.forall₂_same.mpr fun text _ => hrefl text)
        · exact .cons (hrefl text) ih
  induction order generalizing texts with
  | nil => exact List.forall₂_same.mpr fun text _ => hrefl text
  | cons target order ih =>
      obtain ⟨hfirst, hrest⟩ := List.forall_mem_cons.mp hone
      exact trans_forall₂ htrans (hfirst texts)
        (ih (fun t ht => hstep t (List.mem_cons_of_mem _ ht)) _ hrest)

/-! ## What is meant -/

/-- The texts in front of the mark are the values of their words, and the mark is behind the
last word, if there is one. -/
inductive Gives (value : List α → List α) (mark : α) : List (Word α) → List (List α) → Prop
  | nil : Gives value mark [] []
  | cons {w words texts} : mark ∉ w.meant value → Gives value mark words texts →
      Gives value mark (w :: words) (w.meant value :: texts)
  | marked {w words texts extra} : mark ∉ w.meant value → (∀ w' ∈ words, w' = .fixed []) →
      Gives value mark (w :: words) ((w.meant value ++ mark :: extra) :: texts)

omit [DecidableEq α] in
theorem Gives.mark_notMem {words : List (Word α)} {texts : List (List α)}
    (h : Gives value mark words texts) : ∀ w ∈ words, mark ∉ w.meant value := by
  induction h with
  | nil => exact nofun
  | cons hmark h ih => exact List.forall_mem_cons.mpr ⟨hmark, ih⟩
  | marked hmark htrail =>
      refine List.forall_mem_cons.mpr ⟨hmark, fun w hw => ?_⟩
      rw [htrail w hw]
      exact List.not_mem_nil

omit [DecidableEq α] in
theorem Gives.exists_eq {words : List (Word α)} {texts : List (List α)}
    (h : Gives value mark words texts) (hne : words ≠ []) :
    ∃ front w trail extra tail, words = front ++ w :: trail ∧ (∀ w' ∈ trail, w' = .fixed []) ∧
      (extra = [] ∨ extra.head? = some mark) ∧
      texts = front.map (Word.meant value) ++ (w.meant value ++ extra) :: tail := by
  induction h with
  | nil => exact absurd rfl hne
  | @cons w words texts hmark h ih =>
      cases h with
      | nil => exact ⟨[], w, [], [], [], rfl, nofun, Or.inl rfl, by simp⟩
      | cons _ _ | marked _ _ =>
          obtain ⟨front, w', trail, extra, tail, hwords, htrail, hextra, htexts⟩ :=
            ih (List.cons_ne_nil _ _)
          exact ⟨w :: front, w', trail, extra, tail, by rw [hwords]; rfl, htrail, hextra,
            by rw [htexts]; rfl⟩
  | @marked w words texts extra hmark htrail =>
      exact ⟨[], w, words, mark :: extra, texts, rfl, htrail, Or.inr rfl, rfl⟩

omit [DecidableEq α] in
theorem isInfix_of_isInfix_concat {text target : List α} (h : target <:+: text ++ [mark])
    (hmark : mark ∉ target) : target <:+: text := by
  rcases List.infix_concat_iff.mp h with hsuffix | hinfix
  · rcases List.suffix_concat_iff.mp hsuffix with rfl | ⟨front, rfl, -⟩
    · exact List.nil_infix
    · simp at hmark
  · exact hinfix

/-- **If all orders give what is meant**, the words are apart and have no suffixes, but the mark
behind the last one. -/
theorem Gives.apart {words : List (Word α)} {texts : List (List α)}
    (h : Gives value mark words texts) (hnodup : (targets words).Nodup)
    (hmark : ∀ t ∈ targets words, mark ∉ t)
    (hsuffix : ∀ t s, .hole t s ∈ words → s.head? = some mark → s = [mark])
    (hall : ∀ order, order.Perm (targets words) →
      replaceAll value (words.map Word.raw) order = texts) :
    words.Pairwise (Word.Apart value) ∧
      words.Pairwise (fun w w' => w' ≠ .fixed [] → w.Bare) ∧
      ∀ t s, .hole t s ∈ words → s = [] ∨ s = [mark] := by
  by_cases hne : words = []
  · subst hne
    exact ⟨.nil, .nil, nofun⟩
  -- `w` is the last word that is not empty, the only one that can have a suffix
  obtain ⟨front, w, trail, extra, tail, rfl, htrail, hextra, rfl⟩ := h.exists_eq hne
  have hlastMark : ∀ t ∈ targets [w], mark ∉ t := by
    intro t ht
    apply hmark
    rw [← List.singleton_append, targets_append, targets_append]
    exact List.mem_append_right _ (List.mem_append_left _ ht)
  have hlastSuffix : ∀ t s, w = .hole t s → s.head? = some mark → s = [mark] :=
    fun t s hw => hsuffix t s (by simp [hw])
  obtain ⟨hfront, hw, hfilled⟩ :=
    filled_of_meant htrail hlastMark hlastSuffix hextra (hall _ (.refl _))
  have hbare : (front ++ w :: trail).Pairwise fun w w' => w' ≠ .fixed [] → w.Bare := by
    refine List.pairwise_append.mpr
      ⟨?_, List.pairwise_cons.mpr ⟨?_, ?_⟩, fun p hp _ _ _ => hfront p hp⟩
    · exact List.pairwise_of_forall_mem_list fun p hp _ _ _ => hfront p hp
    · exact fun w' hw' hne => absurd (htrail w' hw') hne
    · exact List.pairwise_of_forall_mem_list fun _ _ w' hw' hne => absurd (htrail w' hw') hne
  have hholes : ∀ t s, .hole t s ∈ front ++ w :: trail → s = [] ∨ s = [mark] := by
    intro t s hmem
    rcases List.mem_append.mp hmem with hmem | hmem
    · exact Or.inl (hfront _ hmem)
    · rcases List.mem_cons.mp hmem with rfl | hmem
      · rcases hw with hbare | ⟨t', ht'⟩
        · exact Or.inl hbare
        · exact Or.inr (Word.hole.inj ht').2
      · cases htrail _ hmem
  refine ⟨pairwise_apart hnodup ?_ ?_ fun order horder => ?_, hbare, hholes⟩
  · refine hbare.imp fun h hsome => h ?_
    rintro rfl
    cases hsome
  · intro t ht target suffix hmem hinfix
    rcases hholes target suffix hmem with rfl | rfl
    · rwa [List.append_nil] at hinfix
    · exact isInfix_of_isInfix_concat hinfix (hmark t ht)
  · rw [hall order horder, hfilled]

end GinCpp.Template
