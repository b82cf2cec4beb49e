import GinCpp.Routing.Naming
import GinCpp.Template.Basic
import Mathlib.Data.List.TakeWhile

/-!
# Reverse routing

`Router::url_for` looks for `:` and a key in the text of the path that was registered, one key of
the map after another.  The pieces of that path are the words of a template whose targets are the
names of the parameters, each with its colon (`substitute_joinPath`, `targets_words`).
-/

namespace GinCpp.Routing

open Template

variable {H M : Type}

abbrev QUESTION : UInt8 := 63
abbrev EQUALS : UInt8 := 61

/-! ## The code -/

/-- The loop of `url_for`. -/
def substitute (path : Str) : List (Str × Str) → Str
  | [] => path
  | (key, value) :: params => substitute (replaceFirst (COLON :: key) value path) params

/-- `Router::url_for`, the parameters in the order in which the map is iterated. -/
def Router.urlFor (router : Router H M) (name : Str) (params : List (Str × Str)) : Str :=
  match router.namedRoutes.find? (·.1 = name) with
  | none => []
  | some (_, path) => substitute path params

/-! ## The words of a path -/

/-- What `url_for` can make of a piece of a path. -/
def word (piece : Str) : Word UInt8 :=
  match Segment.read piece with
  | some ⟨name, .parameter _ _⟩ => .hole (COLON :: name) (piece.drop (name.length + 1))
  | _ => .fixed piece

def Route.words (r : Route H M) : List (Word UInt8) := (r.path.splitOn SLASH).map word

/-- The parameters of a map. -/
def valueOf (params : List (Str × Str)) : Params := fun n =>
  (params.find? (·.1 = n)).map Prod.snd

/-- The value for a target, a colon and a name. -/
def substitution (params : List (Str × Str)) (target : Str) : Str :=
  (valueOf params target.tail).getD []

namespace Segment

theorem exists_suffix_readParameter (part : Str) (isOptional : Bool) :
    ∃ suffix, part = (readParameter part isOptional).part ++ suffix ∧
      EQUALS ∉ (readParameter part isOptional).part ∧
      ((suffix = [] ∧ (readParameter part isOptional).kind = .parameter isOptional []) ∨
        suffix.head? = some EQUALS) := by
  have hequals : '='.toUInt8 = EQUALS := rfl
  unfold readParameter
  rw [hequals]
  cases hdefault : part.dropWhile (· != EQUALS) with
  | nil =>
      refine ⟨[], (List.append_nil part).symm, fun hmem => ?_, Or.inl ⟨rfl, rfl⟩⟩
      simpa using List.dropWhile_eq_nil_iff.mp hdefault EQUALS hmem
  | cons c defaultValue =>
      have hc : c = EQUALS := by
        have hhead := List.head?_dropWhile_not (· != EQUALS) part
        rw [hdefault] at hhead
        simpa using hhead
      refine ⟨c :: defaultValue, ?_, fun hmem => ?_, Or.inr (by rw [hc]; rfl)⟩
      · dsimp only
        rw [← hdefault]
        exact List.takeWhile_append_dropWhile.symm
      · simpa using List.mem_takeWhile_imp hmem

/-- **The text of a parameter**: the name, and a suffix that is empty, a question mark or a
default. -/
theorem eq_of_read_parameter {piece n defaultValue : Str} {isOptional : Bool}
    (h : read piece = some ⟨n, .parameter isOptional defaultValue⟩) :
    ∃ suffix, piece = COLON :: (n ++ suffix) ∧ EQUALS ∉ n ∧
      ((suffix = [] ∧ defaultValue = []) ∨ (suffix = [QUESTION] ∧ defaultValue = []) ∨
        suffix.head? = some EQUALS) := by
  simp only [read] at h
  split_ifs at h with hcolon hempty hoptional hstar hregex
  · obtain ⟨suffix, hpart, hname, hsuffix⟩ := exists_suffix_readParameter piece.tail.dropLast true
    rw [Option.some_inj.mp h] at hpart hname hsuffix
    have hmark : piece.tail = piece.tail.dropLast ++ [QUESTION] :=
      (List.dropLast_append_getLast? _ hoptional).symm
    refine ⟨suffix ++ [QUESTION], ?_, hname, ?_⟩
    · rw [← List.append_assoc, ← hpart, ← hmark]
      exact (List.cons_head?_tail hcolon).symm
    · rcases hsuffix with ⟨rfl, hkind⟩ | hhead
      · exact Or.inr (Or.inl ⟨rfl, (Kind.parameter.inj hkind).2⟩)
      · refine Or.inr (Or.inr ?_)
        rw [List.head?_append, hhead]
        rfl
  · obtain ⟨suffix, hpart, hname, hsuffix⟩ := exists_suffix_readParameter piece.tail false
    rw [Option.some_inj.mp h] at hpart hname hsuffix
    refine ⟨suffix, ?_, hname, ?_⟩
    · rw [← hpart]
      exact (List.cons_head?_tail hcolon).symm
    · rcases hsuffix with ⟨hnil, hkind⟩ | hhead
      · exact Or.inl ⟨hnil, (Kind.parameter.inj hkind).2⟩
      · exact Or.inr (Or.inr hhead)
  · cases (Segment.mk.inj (Option.some_inj.mp h)).2
  · have hkind := congrArg Segment.kind (Option.some_inj.mp h)
    unfold readRegex at hkind
    split at hkind <;> cases hkind
  · cases (Segment.mk.inj (Option.some_inj.mp h)).2

end Segment

theorem raw_word (piece : Str) : (word piece).raw = piece := by
  unfold word
  split
  · next name isOptional defaultValue hread =>
      obtain ⟨suffix, rfl, -, -⟩ := Segment.eq_of_read_parameter hread
      rw [Word.raw, List.cons_append, List.drop_succ_cons, List.drop_left]
  · rfl

theorem exists_word_of_parameter {piece n defaultValue : Str} {isOptional : Bool}
    (h : Segment.read piece = some ⟨n, .parameter isOptional defaultValue⟩) :
    ∃ suffix, word piece = .hole (COLON :: n) suffix ∧ piece = COLON :: (n ++ suffix) ∧
      EQUALS ∉ n ∧ ((suffix = [] ∧ defaultValue = []) ∨
        (suffix = [QUESTION] ∧ defaultValue = []) ∨ suffix.head? = some EQUALS) := by
  obtain ⟨suffix, rfl, hname, hsuffix⟩ := Segment.eq_of_read_parameter h
  refine ⟨suffix, ?_, rfl, hname, hsuffix⟩
  rw [word, h]
  dsimp only
  rw [List.drop_succ_cons, List.drop_left]

theorem word_of_static {piece part : Str} (h : Segment.read piece = some ⟨part, .static⟩) :
    word piece = .fixed piece ∧ part = piece := by
  refine ⟨by rw [word, h], ?_⟩
  simp only [Segment.read] at h
  split_ifs at h with hcolon hempty hoptional hstar hregex
  · have hkind := congrArg Segment.kind (Option.some_inj.mp h)
    unfold Segment.readParameter at hkind
    split at hkind <;> cases hkind
  · have hkind := congrArg Segment.kind (Option.some_inj.mp h)
    unfold Segment.readParameter at hkind
    split at hkind <;> cases hkind
  · cases (Segment.mk.inj (Option.some_inj.mp h)).2
  · have hkind := congrArg Segment.kind (Option.some_inj.mp h)
    unfold Segment.readRegex at hkind
    split at hkind <;> cases hkind
  · exact (Segment.mk.inj (Option.some_inj.mp h)).1.symm

theorem suffix_of_word {piece t s : Str} (h : word piece = .hole t s) :
    s = [] ∨ s = [QUESTION] ∨ s.head? = some EQUALS := by
  unfold word at h
  split at h
  · next n isOptional defaultValue hread =>
      obtain ⟨suffix, hword, -, -, hsuffix⟩ := exists_word_of_parameter hread
      rw [word, hread] at hword
      obtain rfl := (Word.hole.inj (h.symm.trans hword)).2
      exact hsuffix.imp And.left (Or.imp_left And.left)
  · cases h

/-! ## The pieces and the segments -/

/-- The pieces of a path, and the segments that are read from those that are not empty. -/
inductive Reads : List Str → List Segment → Prop
  | nil : Reads [] []
  | empty {pieces pattern} : Reads pieces pattern → Reads ([] :: pieces) pattern
  | piece {piece pieces seg pattern} : piece ≠ [] → Segment.read piece = some seg →
      Reads pieces pattern → Reads (piece :: pieces) (seg :: pattern)

theorem reads_of_mapM {pieces : List Str} {pattern : List Segment}
    (h : (pieces.filter (!·.isEmpty)).mapM Segment.read = some pattern) : Reads pieces pattern := by
  induction pieces generalizing pattern with
  | nil =>
      obtain rfl : [] = pattern := by simpa using h
      exact .nil
  | cons piece pieces ih =>
      cases piece with
      | nil => exact .empty (ih h)
      | cons c piece =>
          rw [List.filter_cons_of_pos (by simp), List.mapM_cons] at h
          obtain ⟨seg, hseg, h⟩ := Option.bind_eq_some_iff.mp h
          obtain ⟨rest, hrest, h⟩ := Option.bind_eq_some_iff.mp h
          obtain rfl : seg :: rest = pattern := by simpa using h
          exact .piece (List.cons_ne_nil c piece) hseg (ih hrest)

/-- The names of the parameters. -/
def names (pattern : List Segment) : List Str :=
  pattern.filterMap fun seg =>
    match seg.kind with
    | .parameter _ _ => some seg.part
    | _ => none

theorem mem_names {pattern : List Segment} {n : Str} :
    n ∈ names pattern ↔ ∃ isOptional defaultValue,
      ⟨n, .parameter isOptional defaultValue⟩ ∈ pattern := by
  rw [names, List.mem_filterMap]
  constructor
  · rintro ⟨⟨part, kind⟩, hseg, hn⟩
    cases kind with
    | parameter isOptional defaultValue =>
        obtain rfl := Option.some_inj.mp hn
        exact ⟨isOptional, defaultValue, hseg⟩
    | static | wildcard | regex _ => cases hn
  · rintro ⟨isOptional, defaultValue, hseg⟩
    exact ⟨_, hseg, rfl⟩

/-- **The targets are the names of the parameters**, each with its colon. -/
theorem targets_map_word {pieces : List Str} {pattern : List Segment}
    (h : Reads pieces pattern) : targets (pieces.map word) = (names pattern).map (COLON :: ·) := by
  induction h with
  | nil => rfl
  | empty h ih => exact ih
  | @piece piece pieces seg pattern hne hread h ih =>
      obtain ⟨part, kind⟩ := seg
      rw [List.map_cons]
      cases kind with
      | parameter isOptional defaultValue =>
          obtain ⟨suffix, hword, -⟩ := exists_word_of_parameter hread
          rw [hword, targets_hole, ih]
          rfl
      | static | wildcard | regex _ =>
          have hword : word piece = .fixed piece := by rw [word, hread]
          rw [hword, targets_fixed, ih]
          rfl

/-- A name has no `=` in it. -/
theorem equals_notMem_names {pieces : List Str} {pattern : List Segment}
    (h : Reads pieces pattern) : ∀ n ∈ names pattern, EQUALS ∉ n := by
  induction h with
  | nil => exact nofun
  | empty h ih => exact ih
  | @piece piece pieces seg pattern hne hread h ih =>
      obtain ⟨part, kind⟩ := seg
      cases kind with
      | parameter isOptional defaultValue =>
          obtain ⟨-, -, -, hequals, -⟩ := exists_word_of_parameter hread
          exact List.forall_mem_cons.mpr ⟨hequals, ih⟩
      | static | wildcard | regex _ => exact ih

/-! ## The url -/

/-- The keys are looked for piece by piece. -/
theorem substitute_joinPath {value : Str → Str} (texts : List Str) {params : List (Str × Str)}
    (h : ∀ kv ∈ params, SLASH ∉ kv.1 ∧ value (COLON :: kv.1) = kv.2) :
    substitute (joinPath texts) params =
      joinPath (replaceAll value texts (params.map fun kv => COLON :: kv.1)) := by
  induction params generalizing texts with
  | nil => rfl
  | cons kv params ih =>
      obtain ⟨⟨hslash, hvalue⟩, hparams⟩ := List.forall_mem_cons.mp h
      obtain ⟨key, v⟩ := kv
      have htarget : SLASH ∉ COLON :: key :=
        List.not_mem_cons_of_ne_of_not_mem (by decide) hslash
      rw [substitute, joinPath, replaceFirst_intercalate htarget (List.cons_ne_nil _ _),
        ← joinPath, ih _ hparams, List.map_cons]
      dsimp only at hvalue
      rw [← hvalue]
      rfl

theorem valueOf_eq_some {params : List (Str × Str)} (hnodup : (params.map Prod.fst).Nodup)
    {kv : Str × Str} (hkv : kv ∈ params) : valueOf params kv.1 = some kv.2 := by
  have hsome : (params.find? (·.1 = kv.1)).isSome := by
    rw [List.find?_isSome]
    exact ⟨kv, hkv, by simp⟩
  obtain ⟨found, hfound⟩ := Option.isSome_iff_exists.mp hsome
  have hkey : found.1 = kv.1 := by simpa using List.find?_some hfound
  have hsame : found = kv :=
    List.inj_on_of_nodup_map hnodup (List.mem_of_find?_eq_some hfound) hkv hkey
  rw [valueOf, hfound, hsame]
  rfl

theorem isSome_valueOf_iff {params : List (Str × Str)} {n : Str} :
    (valueOf params n).isSome ↔ n ∈ params.map Prod.fst := by
  rw [valueOf, Option.isSome_map, List.find?_isSome, List.mem_map]
  simp

/-- A named route is found by its name. -/
theorem Built.urlFor_eq {placement : KeyedTree.Placement Str (Node H M)} {errorHandler : M}
    {regs : List (Registration H M)} {router : Router H M} {r : Route H M}
    (hbuilt : Built placement errorHandler regs router) (hr : .route r ∈ regs)
    (hname : r.name ≠ []) (params : List (Str × Str)) :
    router.urlFor r.name params = substitute r.path params := by
  have hnodup := ((exists_built_iff placement errorHandler).mp ⟨router, hbuilt⟩).1
  have hmem : (r.name, r.path) ∈ namings regs :=
    List.mem_filterMap.mpr ⟨.route r, hr, if_pos hname⟩
  have hfound : (router.namedRoutes.find? (·.1 = r.name)).map Prod.snd = some r.path := by
    rw [hbuilt.namedRoutes_eq]
    exact valueOf_eq_some hnodup hmem
  obtain ⟨⟨name, path⟩, hfind, rfl⟩ := Option.map_eq_some_iff.mp hfound
  rw [Router.urlFor, hfind]

end GinCpp.Routing
