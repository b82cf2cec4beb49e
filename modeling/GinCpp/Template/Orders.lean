import GinCpp.Template.Basic

/-!
# What all orders agree on

If all orders of the targets fill a template, its words are `Apart`: `pairwise_apart`.  A word
that is not can be kept from being filled.  What is behind it is filled first, from right to left;
in front of it the targets are replaced from left to right, where none gets beyond its own word,
except that the last word in front with its target is left until that target was replaced there.
-/

namespace GinCpp.Template

variable {α : Type*} [DecidableEq α] {value : List α → List α} {words : List (Word α)}
  {texts : List (List α)} {target : List α}

theorem replaceAll_append (texts order order' : List (List α)) :
    replaceAll value texts (order ++ order') =
      replaceAll value (replaceAll value texts order) order' :=
  List.foldl_append

theorem replaceAll_cons (texts order : List (List α)) (target : List α) :
    replaceAll value texts (target :: order) =
      replaceAll value (replaceIn target (value target) texts) order := rfl

/-! ## From left to right -/

/-- How much longer a text gets. -/
theorem length_flatten_replaceIn (value : List α) (h : ∃ text ∈ texts, target <:+: text) :
    (replaceIn target value texts).flatten.length + target.length =
      texts.flatten.length + value.length := by
  induction texts with
  | nil => simp at h
  | cons text texts ih =>
      rw [replaceIn]
      split_ifs with hfirst
      · obtain ⟨before, after, rfl, hreplace⟩ := replaceFirst_eq value hfirst
        rw [hreplace]
        simp only [List.flatten_cons, List.length_append]
        omega
      · have hrest : ∃ text ∈ texts, target <:+: text := by simpa [hfirst] using h
        have hlength := ih hrest
        simp only [List.flatten_cons, List.length_append]
        omega

/-- From left to right no target is replaced behind its own word. -/
theorem exists_replaceAll_targets (value : List α → List α) (front : List (Word α))
    (pre back : List (List α)) :
    ∃ pre', replaceAll value (pre ++ (front.map Word.raw ++ back)) (targets front) = pre' ++ back ∧
      pre'.length = pre.length + front.length ∧
      pre'.flatten.length =
        pre.flatten.length + (front.map (Word.filled value)).flatten.length := by
  induction front generalizing pre with
  | nil => exact ⟨pre, rfl, rfl, by simp⟩
  | cons w front ih =>
      cases w with
      | fixed text =>
          obtain ⟨pre', hrun, hlength, htotal⟩ := ih (pre ++ [text])
          rw [List.append_assoc] at hrun
          refine ⟨pre', hrun, ?_, ?_⟩
          · rw [hlength, List.length_append, List.length_cons, List.length_cons, List.length_nil]
            omega
          · rw [htotal]
            simp only [List.flatten_append, List.flatten_cons, List.flatten_nil, List.map_cons,
              List.length_append, List.length_nil, Word.filled]
            omega
      | hole target suffix =>
          have hown : ∃ text ∈ pre ++ [target ++ suffix], target <:+: text :=
            ⟨_, List.mem_append_right _ List.mem_cons_self,
              (List.prefix_append target suffix).isInfix⟩
          obtain ⟨pre', hrun, hlength, htotal⟩ :=
            ih (replaceIn target (value target) (pre ++ [target ++ suffix]))
          have hgrowth := length_flatten_replaceIn (value target) hown
          refine ⟨pre', ?_, ?_, ?_⟩
          · rw [← hrun, ← replaceIn_append_of_mem hown, List.append_assoc]
            rfl
          · rw [hlength, length_replaceIn, List.length_append, List.length_cons, List.length_cons,
              List.length_nil]
            omega
          · rw [htotal]
            simp only [List.flatten_append, List.flatten_cons, List.flatten_nil, List.map_cons,
              List.length_append, List.length_nil, Word.filled] at hgrowth ⊢
            omega

/-! ## From right to left -/

/-- From right to left a target is replaced in its own word, if it does not occur in front. -/
theorem replaceAll_reverse_targets {front after : List (Word α)}
    (hfront : ∀ w ∈ front, ∀ w' ∈ after, w.Apart value w')
    (hafter : after.Pairwise (Word.Apart value)) :
    replaceAll value (front.map Word.raw ++ after.map Word.raw) (targets after).reverse =
      front.map Word.raw ++ after.map (Word.filled value) := by
  induction after generalizing front with
  | nil => rfl
  | cons w after ih =>
      obtain ⟨hfirst, hafter⟩ := List.pairwise_cons.mp hafter
      have hbelow : ∀ p ∈ front ++ [w], ∀ w' ∈ after, p.Apart value w' := by
        intro p hp w' hw'
        rcases List.mem_append.mp hp with hp | hp
        · exact hfront p hp w' (List.mem_cons_of_mem _ hw')
        · rw [List.mem_singleton.mp hp]
          exact hfirst w' hw'
      have hrest := ih hbelow hafter
      rw [List.map_append, List.append_assoc, List.append_assoc, List.map_singleton,
        List.singleton_append, List.singleton_append] at hrest
      cases w with
      | fixed text => exact hrest
      | hole target suffix =>
          rw [targets_hole, List.reverse_cons, replaceAll_append, List.map_cons, hrest,
            replaceAll_cons, List.map_cons]
          by_cases hvalue : value target = target
          · rw [hvalue, replaceIn_self, Word.filled, hvalue]
            rfl
          · have hnone : ∀ text ∈ front.map Word.raw, ¬ target <:+: text := by
              intro text htext
              obtain ⟨p, hp, rfl⟩ := List.mem_map.mp htext
              exact ((hfront p hp _ List.mem_cons_self target rfl).resolve_left hvalue).1
            rw [replaceIn_append_of_notMem hnone, Word.raw, replaceIn_hole]
            rfl

/-! ## A word that is kept from being filled -/

/-- Nothing is behind the target. -/
def Word.Bare : Word α → Prop
  | fixed _ => True
  | hole _ suffix => suffix = []

omit [DecidableEq α] in
/-- The last element with a property. -/
theorem exists_last {β : Type*} {P : β → Prop} {l : List β} (h : ∃ b ∈ l, P b) :
    ∃ before b after, l = before ++ b :: after ∧ P b ∧ ∀ b' ∈ after, ¬ P b' := by
  induction l with
  | nil => simp at h
  | cons a l ih =>
      by_cases hrest : ∃ b ∈ l, P b
      · obtain ⟨before, b, after, rfl, hb, hafter⟩ := ih hrest
        exact ⟨a :: before, b, after, rfl, hb, hafter⟩
      · have ha : P a := by
          obtain ⟨b, hb, hP⟩ := h
          rcases List.mem_cons.mp hb with rfl | hb
          · exact hP
          · exact absurd ⟨b, hb, hP⟩ hrest
        exact ⟨[], a, l, rfl, ha, fun b hb hP => hrest ⟨b, hb, hP⟩⟩

section Kept

variable {before after : List (Word α)} {suffix : List α}

/-- Once a target is replaced in front of its word, at the last word in front that has it, the
targets from there on do not get to its word. -/
theorem exists_replaceAll_kept (value : List α → List α) {w : Word α} {between : List (Word α)}
    (hbare : w.Bare) (hw : target <:+: w.raw) (hbetween : ∀ p ∈ between, ¬ target <:+: p.raw)
    (hkept : ∀ t ∈ targets [w], ¬ t <:+: target ++ suffix) (pre rest : List (List α)) :
    ∃ pre' rest', replaceAll value
        (pre ++ (between.map Word.raw ++ (target ++ suffix) :: rest)) (targets (w :: between)) =
          pre' ++ (target ++ suffix) :: rest' ∧ pre'.length = pre.length + between.length := by
  have hrun : ∀ pre rest, ∃ pre', replaceAll value
      (pre ++ (between.map Word.raw ++ (target ++ suffix) :: rest)) (targets between) =
        pre' ++ (target ++ suffix) :: rest ∧ pre'.length = pre.length + between.length := by
    intro pre rest
    obtain ⟨pre', hrun, hlength, -⟩ :=
      exists_replaceAll_targets value between pre ((target ++ suffix) :: rest)
    exact ⟨pre', hrun, hlength⟩
  cases w with
  | fixed text =>
      obtain ⟨pre', hrun, hlength⟩ := hrun pre rest
      exact ⟨pre', rest, hrun, hlength⟩
  | hole t s =>
      obtain rfl : s = [] := hbare
      rw [Word.raw, List.append_nil] at hw
      rw [targets_hole, replaceAll_cons]
      by_cases hpre : ∃ text ∈ pre, t <:+: text
      · obtain ⟨pre', hrun, hlength⟩ := hrun (replaceIn t (value t) pre) rest
        rw [replaceIn_append_of_mem hpre]
        exact ⟨pre', rest, hrun, by rw [hlength, length_replaceIn]⟩
      · have hmiddle : ∀ text ∈ between.map Word.raw, ¬ t <:+: text := by
          intro text htext ht
          obtain ⟨p, hp, rfl⟩ := List.mem_map.mp htext
          exact hbetween p hp (hw.trans ht)
        have hhere : ∀ text ∈ [target ++ suffix], ¬ t <:+: text := by
          simpa using hkept t (by simp)
        rw [not_exists] at hpre
        have hnone : ∀ text ∈ pre, ¬ t <:+: text := fun text htext ht => hpre text ⟨htext, ht⟩
        rw [replaceIn_append_of_notMem hnone, replaceIn_append_of_notMem hmiddle,
          ← List.singleton_append, replaceIn_append_of_notMem hhere]
        obtain ⟨pre', hrun, hlength⟩ := hrun pre (replaceIn t (value t) rest)
        exact ⟨pre', _, hrun, hlength⟩

variable {rest : List (List α)}

omit [DecidableEq α] in
theorem ne_of_kept (hvalue : value target ≠ target) {pre rest' : List (List α)}
    (hlength : pre.length = before.length) :
    pre ++ (target ++ suffix) :: rest' ≠
      before.map (Word.filled value) ++ (value target ++ suffix) :: rest := by
  intro hsame
  have hheads := (List.append_inj hsame (by rw [hlength, List.length_map])).2
  exact hvalue (List.append_cancel_right (List.cons.inj hheads).1).symm

/-- The target of a word that all orders fill does not occur in front of it. -/
theorem not_isInfix_raw (hvalue : value target ≠ target) (hnew : target ∉ targets before)
    (hbare : ∀ w ∈ before, w.Bare)
    (hsuffix : ∀ t ∈ targets before, t <:+: target ++ suffix → t <:+: target)
    (hall : ∀ order, order.Perm (targets before ++ [target]) →
      replaceAll value (before.map Word.raw ++ (target ++ suffix) :: rest) order =
        before.map (Word.filled value) ++ (value target ++ suffix) :: rest) :
    ∀ w ∈ before, ¬ target <:+: w.raw := by
  by_contra hoccurs
  have hoccurs : ∃ w ∈ before, target <:+: w.raw := by simpa using hoccurs
  obtain ⟨front, w, between, rfl, hw, hbetween⟩ := exists_last hoccurs
  -- the target is replaced before the last word that has it
  have hperm : (targets front ++ target :: targets (w :: between)).Perm
      (targets (front ++ w :: between) ++ [target]) := by
    rw [targets_append, List.append_assoc]
    exact (List.perm_append_singleton _ _).symm.append_left _
  have hrun := hall _ hperm
  obtain ⟨pre, hpre, hlength, -⟩ := exists_replaceAll_targets value front []
    (w.raw :: (between.map Word.raw ++ (target ++ suffix) :: rest))
  rw [List.nil_append] at hpre
  have hhere : ∃ text ∈ pre ++ [w.raw], target <:+: text :=
    ⟨w.raw, List.mem_append_right _ List.mem_cons_self, hw⟩
  have hkept : ∀ t ∈ targets [w], ¬ t <:+: target ++ suffix := by
    intro t ht hinfix
    cases w with
    | fixed text => cases ht
    | hole t' s =>
        obtain rfl : t = t' := by simpa using ht
        obtain rfl : s = [] := hbare (.hole t s) (by simp)
        have hback : t <:+: target := hsuffix t (by simp) hinfix
        rw [Word.raw, List.append_nil] at hw
        have hsame : target = t := hw.eq_of_length (le_antisymm hw.length_le hback.length_le)
        exact hnew (by simp [hsame])
  obtain ⟨pre', rest', hrest, hlength'⟩ := exists_replaceAll_kept value
    (hbare w (by simp)) hw hbetween hkept (replaceIn target (value target) (pre ++ [w.raw])) rest
  rw [List.map_append, List.map_cons, List.append_assoc, List.cons_append, replaceAll_append,
    hpre, replaceAll_cons, List.append_cons, replaceIn_append_of_mem hhere, hrest] at hrun
  refine ne_of_kept hvalue ?_ hrun
  rw [hlength', length_replaceIn, List.length_append, hlength, List.length_append]
  simp
  omega

/-- Nor does it occur in a word in front of it that is filled. -/
theorem not_isInfix_filled (hvalue : value target ≠ target)
    (hall : ∀ order, order.Perm (targets before ++ [target]) →
      replaceAll value (before.map Word.raw ++ (target ++ suffix) :: rest) order =
        before.map (Word.filled value) ++ (value target ++ suffix) :: rest) :
    ∀ w ∈ before, ¬ target <:+: w.filled value := by
  have hrun := hall _ (.refl _)
  obtain ⟨pre, hpre, hlength, -⟩ :=
    exists_replaceAll_targets value before [] ((target ++ suffix) :: rest)
  rw [List.nil_append] at hpre
  rw [List.length_nil, Nat.zero_add] at hlength
  rw [replaceAll_append, hpre, replaceAll_cons] at hrun
  by_cases hoccurs : ∃ text ∈ pre, target <:+: text
  · rw [replaceIn_append_of_mem hoccurs] at hrun
    exact absurd hrun (ne_of_kept hvalue (by rw [length_replaceIn, hlength]))
  · have hnone : ∀ text ∈ pre, ¬ target <:+: text := by simpa using hoccurs
    rw [replaceIn_append_of_notMem hnone] at hrun
    have hfilled := (List.append_inj hrun (by rw [hlength, List.length_map])).1
    intro w hw
    exact hnone _ (hfilled ▸ List.mem_map_of_mem hw)

end Kept

/-- A word is apart from what is in front of it, if those behind it are. -/
theorem apart_of_behind {before after : List (Word α)} {w : Word α}
    (hnodup : (targets (before ++ w :: after)).Nodup)
    (hbare : (before ++ w :: after).Pairwise fun w w' => w'.target?.isSome → w.Bare)
    (hsuffix : ∀ t ∈ targets (before ++ w :: after), ∀ target suffix,
      .hole target suffix ∈ before ++ w :: after → t <:+: target ++ suffix → t <:+: target)
    (hfront : ∀ p ∈ before ++ [w], ∀ w' ∈ after, p.Apart value w')
    (hafter : after.Pairwise (Word.Apart value))
    (hfilled : ∀ order, order.Perm (targets (before ++ w :: after)) →
      replaceAll value ((before ++ w :: after).map Word.raw) order =
        (before ++ w :: after).map (Word.filled value)) :
    ∀ p ∈ before, p.Apart value w := by
  intro p hp target htarget
  by_cases hvalue : value target = target
  · exact Or.inl hvalue
  cases w with
  | fixed text => cases htarget
  | hole t suffix =>
      obtain rfl : t = target := Option.some_inj.mp htarget
      have hnew : t ∉ targets before := by
        rw [targets_append, targets_hole] at hnodup
        exact fun hmem => (List.nodup_append.mp hnodup).2.2 t hmem t List.mem_cons_self rfl
      have hall : ∀ order, order.Perm (targets before ++ [t]) →
          replaceAll value (before.map Word.raw ++ (t ++ suffix) :: after.map (Word.filled value))
            order = before.map (Word.filled value) ++ (value t ++ suffix) ::
              after.map (Word.filled value) := by
        intro order horder
        have hperm : ((targets after).reverse ++ order).Perm
            (targets (before ++ .hole t suffix :: after)) := by
          rw [targets_append, targets_hole, ← List.singleton_append, ← List.append_assoc]
          exact (((targets after).reverse_perm.append horder).trans List.perm_append_comm)
        have hrun := hfilled _ hperm
        have hreverse := replaceAll_reverse_targets hfront hafter
        rw [replaceAll_append, List.append_cons, List.map_append, hreverse] at hrun
        simpa [Word.raw, Word.filled] using hrun
      refine Or.inr
        ⟨not_isInfix_raw hvalue hnew ?_ ?_ hall p hp, not_isInfix_filled hvalue hall p hp⟩
      · intro w hw
        exact (List.pairwise_append.mp hbare).2.2 w hw _ List.mem_cons_self rfl
      · exact fun t' ht' => hsuffix t' (by simp [ht']) t suffix (by simp)

/-- **If all orders fill a template, its words are apart.** -/
theorem pairwise_apart {words : List (Word α)} (hnodup : (targets words).Nodup)
    (hbare : words.Pairwise fun w w' => w'.target?.isSome → w.Bare)
    (hsuffix : ∀ t ∈ targets words, ∀ target suffix, .hole target suffix ∈ words →
      t <:+: target ++ suffix → t <:+: target)
    (hfilled : ∀ order, order.Perm (targets words) →
      replaceAll value (words.map Word.raw) order = words.map (Word.filled value)) :
    words.Pairwise (Word.Apart value) := by
  -- from right to left: what is behind a hole is filled first
  have hbehind : ∀ before after, words = before ++ after →
      after.Pairwise (Word.Apart value) ∧ ∀ w ∈ before, ∀ w' ∈ after, w.Apart value w' := by
    intro before after
    induction after generalizing before with
    | nil => exact fun _ => ⟨List.Pairwise.nil, nofun⟩
    | cons w after ih =>
        intro hwords
        obtain ⟨hafter, hfront⟩ := ih (before ++ [w]) (by simp [hwords])
        have hhere : ∀ p ∈ before, p.Apart value w := by
          subst hwords
          exact apart_of_behind hnodup hbare hsuffix hfront hafter hfilled
        refine ⟨List.pairwise_cons.mpr ⟨hfront w (by simp), hafter⟩, ?_⟩
        intro p hp w' hw'
        rcases List.mem_cons.mp hw' with rfl | hw'
        · exact hhere p hp
        · exact hfront p (List.mem_append_left _ hp) w' hw'
  exact (hbehind [] words rfl).1

/-! ## What a template is meant to give -/

/-- The value of a word, without the suffix. -/
def Word.meant (value : List α → List α) : Word α → List α
  | fixed text => text
  | hole target _ => value target

omit [DecidableEq α] in
theorem Word.Bare.filled_eq {w : Word α} (h : w.Bare) (value : List α → List α) :
    w.filled value = w.meant value := by
  cases w with
  | fixed text => rfl
  | hole target suffix =>
      obtain rfl : suffix = [] := h
      exact List.append_nil _

omit [DecidableEq α] in
theorem length_flatten_meant_le (value : List α → List α) (words : List (Word α)) :
    (words.map (Word.meant value)).flatten.length ≤
      (words.map (Word.filled value)).flatten.length := by
  induction words with
  | nil => exact le_rfl
  | cons w words ih =>
      cases w <;>
        simp only [List.map_cons, List.flatten_cons, List.length_append, Word.meant,
          Word.filled] <;>
        omega

omit [DecidableEq α] in
/-- Without suffixes a filled template is no longer than it is meant to be. -/
theorem bare_of_length_flatten (value : List α → List α) {words : List (Word α)}
    (h : (words.map (Word.filled value)).flatten.length ≤
      (words.map (Word.meant value)).flatten.length) : ∀ w ∈ words, w.Bare := by
  induction words with
  | nil => exact nofun
  | cons w words ih =>
      have hle := length_flatten_meant_le value words
      rw [List.forall_mem_cons]
      cases w with
      | fixed text =>
          refine ⟨trivial, ih ?_⟩
          simp only [List.map_cons, List.flatten_cons, List.length_append, Word.meant,
            Word.filled] at h
          omega
      | hole target suffix =>
          simp only [List.map_cons, List.flatten_cons, List.length_append, Word.meant,
            Word.filled] at h
          refine ⟨List.eq_nil_of_length_eq_zero ?_, ih ?_⟩
          · omega
          · omega

omit [DecidableEq α] in
/-- What is in front of a mark is in front of the first one. -/
theorem length_le_of_append_eq {front front' back extra : List α} {mark : α}
    (hmark : mark ∉ front) (hextra : extra = [] ∨ extra.head? = some mark)
    (h : front ++ back = front' ++ extra) : front.length ≤ front'.length := by
  rcases List.append_eq_append_iff.mp h with ⟨more, rfl, -⟩ | ⟨more, rfl, rfl⟩
  · rw [List.length_append]
    omega
  · cases more with
    | nil => rw [List.append_nil]
    | cons a more =>
        have ha : a = mark := by simpa using hextra
        exact absurd (by simp [ha]) hmark

/-- **From left to right, a template gives what it is meant to give only without suffixes**, but
one that is a single mark behind the last word. -/
theorem filled_of_meant {front trail : List (Word α)} {w : Word α} {mark : α} {extra : List α}
    {tail : List (List α)} (htrail : ∀ w' ∈ trail, w' = .fixed [])
    (hmark : ∀ t ∈ targets [w], mark ∉ t)
    (hsuffix : ∀ t s, w = .hole t s → s.head? = some mark → s = [mark])
    (hextra : extra = [] ∨ extra.head? = some mark)
    (hrun : replaceAll value ((front ++ w :: trail).map Word.raw) (targets (front ++ w :: trail)) =
      front.map (Word.meant value) ++ (w.meant value ++ extra) :: tail) :
    (∀ p ∈ front, p.Bare) ∧ (w.Bare ∨ ∃ t, w = .hole t [mark]) ∧
      front.map (Word.meant value) ++ (w.meant value ++ extra) :: tail =
        (front ++ w :: trail).map (Word.filled value) := by
  have htargets : targets trail = [] := by
    rw [targets, List.filterMap_eq_nil_iff]
    intro w' hw'
    rw [htrail w' hw']
    rfl
  have hfilled : trail.map (Word.filled value) = trail.map Word.raw := by
    apply List.map_congr_left
    intro w' hw'
    rw [htrail w' hw']
    rfl
  obtain ⟨pre, hpre, hlength, htotal⟩ :=
    exists_replaceAll_targets value front [] (w.raw :: trail.map Word.raw)
  rw [List.nil_append] at hpre
  rw [List.length_nil, Nat.zero_add] at hlength
  rw [List.flatten_nil, List.length_nil, Nat.zero_add] at htotal
  rw [List.map_append, List.map_cons, targets_append, replaceAll_append, hpre] at hrun
  have hlengths : ∀ texts : List (List α), texts.length = pre.length →
      texts.length = (front.map (Word.meant value)).length := by
    intro texts htexts
    rw [htexts, hlength, List.length_map]
  -- it is enough that what follows the last word is its suffix
  have hassemble : (∀ p ∈ front, p.Bare) → w.filled value = w.meant value ++ extra →
      tail = trail.map Word.raw → front.map (Word.meant value) ++ (w.meant value ++ extra) :: tail =
        (front ++ w :: trail).map (Word.filled value) := by
    intro hbare hw htail
    rw [List.map_append, List.map_cons, hw, htail, hfilled]
    congr 1
    exact List.map_congr_left fun p hp => ((hbare p hp).filled_eq value).symm
  -- the words in front are bare if the target of `w` occurs in nothing they have become
  have huntouched : ∀ {text : List α}, pre ++ text :: trail.map Word.raw =
      front.map (Word.meant value) ++ (w.meant value ++ extra) :: tail →
      (∀ p ∈ front, p.Bare) ∧ text = w.meant value ++ extra ∧ tail = trail.map Word.raw := by
    intro text hsame
    obtain ⟨hfront, hback⟩ := List.append_inj hsame (hlengths pre rfl)
    obtain ⟨htext, htail⟩ := List.cons.inj hback
    exact ⟨bare_of_length_flatten value (by rw [← htotal, hfront]), htext, htail.symm⟩
  cases w with
  | fixed text =>
      rw [targets_fixed, htargets] at hrun
      obtain ⟨hbare, htext, htail⟩ := huntouched hrun
      exact ⟨hbare, Or.inl trivial, hassemble hbare htext htail⟩
  | hole t s =>
      have hlast : s = extra →
          (Word.hole t s).Bare ∨ ∃ t', Word.hole t s = .hole t' [mark] := by
        rintro rfl
        rcases hextra with hnil | hhead
        · exact Or.inl hnil
        · exact Or.inr ⟨t, by rw [hsuffix t s rfl hhead]⟩
      rw [targets_hole, htargets, replaceAll_cons] at hrun
      by_cases hoccurs : ∃ text ∈ pre, t <:+: text
      · rw [replaceIn_append_of_mem hoccurs] at hrun
        obtain ⟨hfront, hback⟩ := List.append_inj hrun
          (hlengths (replaceIn t (value t) pre) (length_replaceIn t (value t) pre))
        obtain ⟨htext, htail⟩ := List.cons.inj hback
        have hgrowth := length_flatten_replaceIn (value t) hoccurs
        have hle := length_flatten_meant_le value front
        rw [hfront, htotal] at hgrowth
        have hlong : t.length ≤ (value t).length :=
          length_le_of_append_eq (hmark t (by simp)) hextra htext
        -- the target stands for itself, and the words in front are not shorter than filled
        have hbare : ∀ p ∈ front, p.Bare := bare_of_length_flatten value (by omega)
        obtain ⟨hself, hs⟩ := List.append_inj (show t ++ s = value t ++ extra from htext) (by omega)
        have hw : value t ++ s = value t ++ extra := by rw [hs]
        exact ⟨hbare, hlast hs, hassemble hbare hw htail.symm⟩
      · have hnone : ∀ text ∈ pre, ¬ t <:+: text := by simpa using hoccurs
        rw [replaceIn_append_of_notMem hnone, Word.raw, replaceIn_hole] at hrun
        obtain ⟨hbare, htext, htail⟩ := huntouched hrun
        exact ⟨hbare, hlast (List.append_cancel_left htext), hassemble hbare htext htail⟩

end GinCpp.Template
