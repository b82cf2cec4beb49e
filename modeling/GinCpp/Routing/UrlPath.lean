import GinCpp.Routing.SoleRoute
import GinCpp.Template.Marked

/-!
# The path of a url

The uri that is joined from some texts is read up to its first question mark (`pathOf`).  If the
texts came from the pieces of a pattern by replacements, and the path reaches the pattern with the
values in the places of their names, then the texts are what the words of the pieces are meant to
give, `gives_of_reached`; and a template that is filled gives such a path, `pathOf_filled`.
-/

namespace GinCpp.Routing

open Http Template

/-! ## The path of a url -/

/-- The path segments of a uri that is joined from some texts. -/
def pathOf (texts : List Str) : List Str := (cut QUESTION texts).filter (!·.isEmpty)

theorem mem_cut {mark c : UInt8} {texts : List Str} {text : Str} (h : text ∈ cut mark texts)
    (hc : c ∈ text) : ∃ text' ∈ texts, c ∈ text' := by
  induction texts with
  | nil => cases h
  | cons first texts ih =>
      rw [cut] at h
      split_ifs at h with hmark
      · rw [List.mem_singleton.mp h] at hc
        exact ⟨first, List.mem_cons_self, (List.takeWhile_sublist _).subset hc⟩
      · rcases List.mem_cons.mp h with rfl | h
        · exact ⟨text, List.mem_cons_self, hc⟩
        · obtain ⟨text', htext', hc'⟩ := ih h
          exact ⟨text', List.mem_cons_of_mem _ htext', hc'⟩

theorem splitPath_getPath {texts : List Str} (hne : texts ≠ [])
    (hslash : ∀ text ∈ texts, SLASH ∉ text) {request : Request}
    (huri : request.uri = joinPath texts) :
    splitPath request.getPath = pathOf texts := by
  have hcut : ∀ text ∈ cut QUESTION texts, SLASH ∉ text := by
    intro text htext hmem
    obtain ⟨text', htext', hmem'⟩ := mem_cut htext hmem
    exact hslash text' htext' hmem'
  have hpath : request.getPath = joinPath (cut QUESTION texts) := by
    rw [Request.getPath, huri, joinPath]
    exact takeWhile_intercalate (by decide) texts
  rw [splitPath, hpath, joinPath, List.splitOn_intercalate _ hcut (cut_ne_nil _ hne)]
  rfl

section PathOf

variable {text : Str} {texts : List Str}

theorem pathOf_nil (texts : List Str) : pathOf ([] :: texts) = pathOf texts := by
  rw [pathOf, cut, if_neg List.not_mem_nil]
  rfl

theorem pathOf_cons (hne : text ≠ []) (hmark : QUESTION ∉ text) :
    pathOf (text :: texts) = text :: pathOf texts := by
  rw [pathOf, cut, if_neg hmark, List.filter_cons_of_pos (by simpa using hne)]
  rfl

theorem pathOf_marked (hmark : QUESTION ∈ text) :
    pathOf (text :: texts) = [text.takeWhile (· != QUESTION)].filter (!·.isEmpty) := by
  rw [pathOf, cut, if_pos hmark]

end PathOf

/-! ## What the replacements keep of a piece -/

/-- What a piece has in common with what becomes of it. -/
structure Traced (piece text : Str) : Prop where
  question : QUESTION ∈ text ↔ QUESTION ∈ piece
  front : piece.takeWhile (· != QUESTION) ≠ [] → text.takeWhile (· != QUESTION) ≠ []
  equals : EQUALS ∈ piece.takeWhile (· != QUESTION) → EQUALS ∈ text.takeWhile (· != QUESTION)
  empty : piece = [] → text = []
  slash : SLASH ∉ piece → SLASH ∉ text

namespace Traced

variable {piece text text' : Str} {pieces texts : List Str}

theorem refl (text : Str) : Traced text text := ⟨Iff.rfl, id, id, id, id⟩

theorem trans (h : Traced piece text) (h' : Traced text text') : Traced piece text' where
  question := h'.question.trans h.question
  front := h'.front ∘ h.front
  equals := h'.equals ∘ h.equals
  empty := h'.empty ∘ h.empty
  slash := h'.slash ∘ h.slash

/-- A value in place of a target. -/
theorem replace {target value : Str} (htarget : target ≠ [] ∧ EQUALS ∉ target ∧ QUESTION ∉ target)
    (hvalue : value ≠ [] ∧ SLASH ∉ value ∧ QUESTION ∉ value) (before after : Str) :
    Traced (before ++ target ++ after) (before ++ value ++ after) := by
  obtain ⟨hnonempty, hequals, hquestion⟩ := htarget
  obtain ⟨hnonempty', hslash', hquestion'⟩ := hvalue
  have hfront : ∀ middle : Str, QUESTION ∉ middle →
      (before ++ middle ++ after).takeWhile (· != QUESTION) =
        if QUESTION ∈ before then before.takeWhile (· != QUESTION)
        else before ++ middle ++ after.takeWhile (· != QUESTION) := by
    intro middle hmiddle
    rw [List.append_assoc]
    split_ifs with hbefore
    · exact takeWhile_append_of_mem hbefore
    · rw [takeWhile_append_of_notMem hbefore, takeWhile_append_of_notMem hmiddle,
        List.append_assoc]
  refine ⟨by simp [hquestion, hquestion'], ?_, ?_, fun h => ?_, ?_⟩
  · rw [hfront _ hquestion, hfront _ hquestion']
    split_ifs
    · exact id
    · exact fun _ h => hnonempty' (List.append_eq_nil_iff.mp (List.append_eq_nil_iff.mp h).1).2
  · rw [hfront _ hquestion, hfront _ hquestion']
    split_ifs
    · exact id
    · intro hmem
      simp only [List.mem_append, hequals, or_false] at hmem ⊢
      rcases hmem with hmem | hmem
      · exact Or.inl (Or.inl hmem)
      · exact Or.inr hmem
  · exact absurd (List.append_eq_nil_iff.mp (List.append_eq_nil_iff.mp h).1).2 hnonempty
  · simp only [List.mem_append, not_or]
    exact fun h => ⟨⟨h.1.1, hslash'⟩, h.2⟩

theorem ne_nil (h : Traced piece text) (hne : piece ≠ []) (hquestion : QUESTION ∉ text) :
    text ≠ [] := by
  have hpiece : QUESTION ∉ piece := fun hmem => hquestion (h.question.mpr hmem)
  have hfront := h.front (by rwa [takeWhile_of_notMem hpiece])
  rintro rfl
  exact hfront rfl

end Traced

/-! ## From the match to the words -/

section Given

variable {pieces texts : List Str} {pattern : List Segment} {value : Str → Str} {regex : Regex}

/-- The text of a parameter with a default has an `=` in it, which its name has not. -/
theorem equals_of_default (hreads : Reads pieces pattern)
    (htraced : List.Forall₂ Traced pieces texts) {seg : Segment} {s : Str}
    (hmem : (seg, s) ∈ pattern.zip (pathOf texts)) {defaultValue : Str}
    (hkind : seg.kind = .parameter true defaultValue) (hne : defaultValue ≠ [])
    (hquestion : QUESTION ∉ seg.part) : EQUALS ∈ s ∧ EQUALS ∉ seg.part := by
  induction hreads generalizing texts with
  | nil => cases hmem
  | empty hreads ih =>
      cases htraced with
      | @cons _ text _ texts hfirst htraced =>
          rw [hfirst.empty rfl, pathOf_nil] at hmem
          exact ih htraced hmem
  | @piece piece pieces first pattern hpiece hread hreads ih =>
      cases htraced with
      | @cons _ text _ texts hfirst htraced =>
          -- the text of the piece up to a question mark
          have hhere : ∀ s, text.takeWhile (· != QUESTION) = s → first = seg →
              EQUALS ∈ s ∧ EQUALS ∉ seg.part := by
            rintro s rfl rfl
            obtain ⟨part, kind⟩ := first
            obtain rfl : kind = .parameter true defaultValue := hkind
            obtain ⟨suffix, -, rfl, hequals, ⟨-, hnil⟩ | ⟨-, hnil⟩ | hhead⟩ :=
              exists_word_of_parameter hread
            · exact absurd hnil hne
            · exact absurd hnil hne
            · obtain ⟨more, rfl⟩ := List.head?_eq_some_iff.mp hhead
              have hname : QUESTION ∉ COLON :: part :=
                List.not_mem_cons_of_ne_of_not_mem (by decide) hquestion
              refine ⟨hfirst.equals ?_, hequals⟩
              rw [← List.cons_append, takeWhile_append_of_notMem hname,
                List.takeWhile_cons_of_pos (by decide)]
              exact List.mem_append_right _ List.mem_cons_self
          by_cases hmark : QUESTION ∈ text
          · rw [pathOf_marked hmark] at hmem
            cases hfront : text.takeWhile (· != QUESTION) with
            | nil =>
                rw [hfront] at hmem
                cases hmem
            | cons c front =>
                rw [hfront, List.filter_cons_of_pos (by simp), List.filter_nil,
                  List.zip_cons_cons, List.zip_nil_right, List.mem_singleton] at hmem
                obtain ⟨rfl, rfl⟩ := Prod.mk.inj hmem
                exact hhere _ hfront rfl
          · rw [pathOf_cons (hfirst.ne_nil hpiece hmark) hmark, List.zip_cons_cons,
              List.mem_cons] at hmem
            rcases hmem with hfirstMem | hmem
            · obtain ⟨rfl, rfl⟩ := Prod.mk.inj hfirstMem
              exact hhere _ (takeWhile_of_notMem hmark) rfl
            · exact ih htraced hmem

theorem meant_word {piece s : Str} {seg : Segment} (hsimple : Simple (seg :: pattern))
    (hread : Segment.read piece = some seg) (hstatic : seg.kind = .static → s = seg.part)
    (hparameter : seg.kind ≠ .static → value (COLON :: seg.part) = s) :
    (word piece).meant value = s := by
  obtain ⟨part, kind⟩ := seg
  rcases hsimple _ List.mem_cons_self with rfl | ⟨isOptional, defaultValue, rfl⟩
  · obtain ⟨hword, rfl⟩ := word_of_static hread
    rw [hword, hstatic rfl]
    rfl
  · obtain ⟨suffix, hword, -⟩ := exists_word_of_parameter hread
    rw [hword, ← hparameter nofun]
    rfl

theorem word_of_reads_nil (h : Reads pieces []) : ∀ w ∈ pieces.map word, w = .fixed [] := by
  generalize hnil : ([] : List Segment) = pattern at h
  induction h with
  | nil => exact nofun
  | empty h ih => exact List.forall_mem_cons.mpr ⟨rfl, ih hnil⟩
  | piece _ _ _ _ => cases hnil

/-- **If the path reaches the pattern with the right values, the url gives what is meant.** -/
theorem gives_of_reached (hreads : Reads pieces pattern)
    (htraced : List.Forall₂ Traced pieces texts) (hsimple : Simple pattern)
    (hreached : Reached regex false pattern (pathOf texts))
    (hstands : ∀ seg s, (seg, s) ∈ pattern.zip (pathOf texts) → seg.kind ≠ .static →
      (pathOf texts).length = pattern.length ∧ value (COLON :: seg.part) = s) :
    Gives value QUESTION (pieces.map word) texts ∧ (pathOf texts).length = pattern.length := by
  induction hreads generalizing texts with
  | nil =>
      cases htraced
      exact ⟨.nil, rfl⟩
  | empty hreads ih =>
      cases htraced with
      | @cons _ text _ texts hfirst htraced =>
          obtain rfl : text = [] := hfirst.empty rfl
          rw [pathOf_nil] at hreached hstands ⊢
          obtain ⟨hgives, hlength⟩ := ih htraced hsimple hreached hstands
          exact ⟨.cons List.not_mem_nil hgives, hlength⟩
  | @piece piece pieces seg pattern hpiece hread hreads ih =>
      cases htraced with
      | @cons _ text _ texts hfirst htraced =>
          by_cases hmark : QUESTION ∈ text
          · rw [pathOf_marked hmark] at hreached hstands ⊢
            cases hfront : text.takeWhile (· != QUESTION) with
            | nil =>
                -- a segment that is absent is a parameter, of which the colon is left
                rw [hfront] at hreached
                obtain ⟨-, hoptional⟩ := hreached
                obtain ⟨part, kind⟩ := seg
                rcases hsimple _ List.mem_cons_self with rfl | ⟨isOptional, defaultValue, rfl⟩
                · cases hoptional
                · obtain ⟨suffix, -, rfl, -⟩ := exists_word_of_parameter hread
                  refine absurd hfront (hfirst.front ?_)
                  rw [List.takeWhile_cons_of_pos (by decide)]
                  exact List.cons_ne_nil _ _
            | cons c front =>
                rw [hfront] at hreached hstands
                rw [List.filter_cons_of_pos (by simp), List.filter_nil] at hreached hstands ⊢
                have hquestion : QUESTION ∉ c :: front := by
                  rw [← hfront]
                  exact fun hmem => by simpa using List.mem_takeWhile_imp hmem
                have hkind : seg.kind ≠ .static := by
                  intro hkind
                  have hpart := eq_part_of_reached hreached hsimple List.mem_cons_self hkind
                  obtain ⟨part, kind⟩ := seg
                  obtain rfl : kind = .static := hkind
                  obtain ⟨-, rfl⟩ := word_of_static hread
                  exact hquestion (hpart ▸ hfirst.question.mp hmark)
                obtain ⟨hlength, hvalue⟩ := hstands seg _ List.mem_cons_self hkind
                obtain rfl : pattern = [] :=
                  List.eq_nil_of_length_eq_zero (Nat.succ.inj hlength).symm
                have hmeant : (word piece).meant value = c :: front :=
                  meant_word hsimple hread (fun hstatic => absurd hstatic hkind) fun _ => hvalue
                obtain ⟨extra, htext⟩ := exists_eq_takeWhile_append hmark
                refine ⟨?_, rfl⟩
                rw [htext, hfront, ← hmeant, List.map_cons]
                exact .marked (hmeant ▸ hquestion) (word_of_reads_nil hreads)
          · rw [pathOf_cons (hfirst.ne_nil hpiece hmark) hmark] at hreached hstands ⊢
            have hmeant : (word piece).meant value = text := by
              refine meant_word hsimple hread (fun hkind => ?_) fun hkind => ?_
              · exact eq_part_of_reached hreached hsimple List.mem_cons_self hkind
              · exact (hstands seg text List.mem_cons_self hkind).2
            obtain ⟨hgives, hlength⟩ := ih htraced (List.forall_mem_cons.mp hsimple).2
              (hsimple.reached_tail hreached) fun seg' s' hmem hkind =>
                (hstands seg' s' (List.mem_cons_of_mem _ hmem) hkind).imp_left Nat.succ.inj
            refine ⟨?_, congrArg Nat.succ hlength⟩
            rw [List.map_cons]
            subst hmeant
            exact .cons hmark hgives

end Given

/-! ## From the words to the match -/

section Filled

variable {pieces texts : List Str} {pattern : List Segment}

theorem eq_nil_of_words (h : Reads pieces pattern)
    (hwords : ∀ w ∈ pieces.map word, w = .fixed []) : pattern = [] := by
  induction h with
  | nil => rfl
  | empty h ih => exact ih (List.forall_mem_cons.mp hwords).2
  | @piece piece pieces seg pattern hne hread h ih =>
      have hraw := raw_word piece
      rw [hwords (word piece) List.mem_cons_self] at hraw
      exact absurd hraw.symm hne

/-- A path has the values in the places of their names, and the rest of the pattern as it is. -/
structure Placed (value : Str → Str) (pattern : List Segment) (path : List Str) : Prop where
  length : path.length = pattern.length
  stands : ∀ seg s, (seg, s) ∈ pattern.zip path →
    (seg.kind = .static → s = seg.part) ∧ (seg.kind ≠ .static → value (COLON :: seg.part) = s)

theorem Placed.nil (value : Str → Str) : Placed value [] [] := ⟨rfl, nofun⟩

theorem Placed.cons {value : Str → Str} {seg : Segment} {s : Str} {path : List Str}
    (hstatic : seg.kind = .static → s = seg.part)
    (hvalue : seg.kind ≠ .static → value (COLON :: seg.part) = s)
    (h : Placed value pattern path) : Placed value (seg :: pattern) (s :: path) := by
  refine ⟨congrArg Nat.succ h.length, fun seg' s' hmem => ?_⟩
  rw [List.zip_cons_cons] at hmem
  rcases List.mem_cons.mp hmem with hsame | hmem
  · obtain ⟨rfl, rfl⟩ := Prod.mk.inj hsame
    exact ⟨hstatic, hvalue⟩
  · exact h.stands seg' s' hmem

/-- **A url that is filled has the values in the places of their names.** -/
theorem pathOf_filled (value : Str → Str) (hreads : Reads pieces pattern) (hsimple : Simple pattern)
    (hbare : (pieces.map word).Pairwise fun w w' => w' ≠ .fixed [] → w.Bare)
    (hsuffix : ∀ t s, .hole t s ∈ pieces.map word → s = [] ∨ s = [QUESTION])
    (htext : ∀ text, .fixed text ∈ pieces.map word → QUESTION ∉ text)
    (hvalue : ∀ n ∈ names pattern, value (COLON :: n) ≠ [] ∧ QUESTION ∉ value (COLON :: n)) :
    Placed value pattern (pathOf ((pieces.map word).map (Word.filled value))) := by
  induction hreads with
  | nil => exact .nil value
  | @empty pieces pattern hreads ih =>
      have hpath : pathOf ((([] :: pieces).map word).map (Word.filled value)) =
          pathOf ((pieces.map word).map (Word.filled value)) := pathOf_nil _
      rw [hpath]
      exact ih hsimple (List.pairwise_cons.mp hbare).2
        (fun t s hmem => hsuffix t s (List.mem_cons_of_mem _ hmem))
        (fun text hmem => htext text (List.mem_cons_of_mem _ hmem)) hvalue
  | @piece piece pieces seg pattern hne hread hreads ih =>
      obtain ⟨hfirst, hbare⟩ := List.pairwise_cons.mp hbare
      have hnames : ∀ n ∈ names pattern, n ∈ names (seg :: pattern) := by
        intro n hn
        rw [← List.singleton_append, names_append]
        exact List.mem_append_right _ hn
      have hrest : Placed value pattern (pathOf ((pieces.map word).map (Word.filled value))) :=
        ih (List.forall_mem_cons.mp hsimple).2 hbare
          (fun t s hmem => hsuffix t s (List.mem_cons_of_mem _ hmem))
          (fun text hmem => htext text (List.mem_cons_of_mem _ hmem))
          fun n hn => hvalue n (hnames n hn)
      -- a text without a question mark is the first segment of the path
      have hcons : ∀ text, (word piece).filled value = text → text ≠ [] → QUESTION ∉ text →
          pathOf (((piece :: pieces).map word).map (Word.filled value)) =
            text :: pathOf ((pieces.map word).map (Word.filled value)) := by
        rintro text rfl htextNe hmark
        exact pathOf_cons htextNe hmark
      obtain ⟨part, kind⟩ := seg
      rcases hsimple _ List.mem_cons_self with rfl | ⟨isOptional, defaultValue, rfl⟩
      · obtain ⟨hword, rfl⟩ := word_of_static hread
        have hmem : .fixed part ∈ (part :: pieces).map word := hword ▸ List.mem_cons_self
        rw [hcons part (by rw [hword]; rfl) hne (htext _ hmem)]
        exact hrest.cons (fun _ => rfl) fun hkind => absurd rfl hkind
      · obtain ⟨suffix, hword, -⟩ := exists_word_of_parameter hread
        obtain ⟨hvalueNe, hmark⟩ := hvalue part (mem_names.mpr ⟨_, _, List.mem_cons_self⟩)
        have hparameter : Kind.parameter isOptional defaultValue ≠ .static := by
          intro h
          cases h
        have hmem : .hole (COLON :: part) suffix ∈ (piece :: pieces).map word :=
          hword ▸ List.mem_cons_self
        rcases hsuffix _ suffix hmem with rfl | rfl
        · have hfilled : (word piece).filled value = value (COLON :: part) := by
            rw [hword, Word.filled, List.append_nil]
          rw [hcons _ hfilled hvalueNe hmark]
          exact hrest.cons (fun hstatic => absurd hstatic hparameter) fun _ => rfl
        · -- nothing follows the question mark
          obtain rfl : pattern = [] := by
            refine eq_nil_of_words hreads fun w hw => ?_
            by_contra hnonempty
            have hbareHole := hfirst w hw hnonempty
            rw [hword] at hbareHole
            cases hbareHole
          have hfilled : (word piece).filled value = value (COLON :: part) ++ [QUESTION] := by
            rw [hword]
            rfl
          have hpath : pathOf (((piece :: pieces).map word).map (Word.filled value)) =
              [value (COLON :: part)] := by
            rw [List.map_cons, List.map_cons, hfilled, pathOf_marked (by simp),
              takeWhile_append_of_notMem hmark]
            simpa using hvalueNe
          rw [hpath]
          exact (Placed.nil value).cons (fun hstatic => absurd hstatic hparameter) fun _ => rfl

end Filled

end GinCpp.Routing
