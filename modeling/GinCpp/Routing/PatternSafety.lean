import GinCpp.Checked.Basic
import GinCpp.Separator.Basic
import GinCpp.Routing.Router

/-!
# Reading a pattern safely

The loop of `Router::add_route` again, with every operation on a string checked.  It comes to the
segments of `Segment.read`, and where that has no reading it calls `back()` on an empty string: at
a lone colon (`interpret_eq`).
-/

namespace GinCpp.Routing

open Checked Separator

variable {H M : Type}

namespace Segment

/-- A parameter from its equals sign on. -/
def interpretDefault (part : Str) (isOptional : Bool) : Except Misuse Segment :=
  match find part '='.toUInt8 with
  | some equalsPos => do
      let defaultValue ← substrFrom part (equalsPos + 1)
      let part ← substr part 0 equalsPos
      pure ⟨part, .parameter true defaultValue⟩
  | none => pure ⟨part, .parameter isOptional []⟩

/-- The branch for a colon. -/
def interpretParameter (seg : Str) : Except Misuse Segment := do
  let part ← substrFrom seg 1
  if (← back part) = '?'.toUInt8 then interpretDefault (← popBack part) true
  else interpretDefault part false

/-- The branch for angle brackets. -/
def interpretRegexPart (seg : Str) : Except Misuse Str := do
  let content ← substr seg 1 (seg.length - 2)
  match find content COLON with
  | some colonPos => substr content 0 colonPos
  | none => pure content

/-- The pattern, which is read once the child is there. -/
def interpretRegexPattern (seg : Str) : Except Misuse Str := do
  let content ← substr seg 1 (seg.length - 2)
  match find content COLON with
  | some colonPos => substrFrom content (colonPos + 1)
  | none => pure (ascii ".*")

/-- What the loop of `add_route` makes of one segment. -/
def interpret (seg : Str) : Except Misuse Segment := do
  if (← front seg) = COLON then interpretParameter seg
  else if (← front seg) = '*'.toUInt8 then
    pure ⟨← substrFrom seg 1, .wildcard⟩
  else if (← front seg) = '<'.toUInt8 then
    if (← back seg) = '>'.toUInt8 then
      pure ⟨← interpretRegexPart seg, .regex (← interpretRegexPattern seg)⟩
    else pure ⟨seg, .static⟩
  else pure ⟨seg, .static⟩

/-! ## What is read -/

theorem interpretDefault_eq (part : Str) (isOptional : Bool) :
    interpretDefault part isOptional = .ok (readParameter part isOptional) := by
  by_cases hequals : '='.toUInt8 ∈ part
  · obtain ⟨name, defaultValue, rfl, hname⟩ := List.eq_append_cons_of_mem hequals
    obtain ⟨htake, hdrop⟩ := takeWhile_append_cons hname defaultValue
    obtain ⟨hbefore, hafter⟩ := substr_append_cons name defaultValue '='.toUInt8
    rw [interpretDefault, find_append_cons hname, readParameter, hdrop, htake]
    dsimp only
    rw [hafter, hbefore]
    rfl
  · rw [interpretDefault, find_of_notMem hequals, readParameter, dropWhile_of_notMem hequals]
    rfl

/-- The text between the brackets. -/
theorem substr_brackets {seg : Str} (h : 2 ≤ seg.length) :
    substr seg 1 (seg.length - 2) = .ok seg.tail.dropLast := by
  rw [substr_of_le (by omega), List.drop_one, List.dropLast_eq_take, List.length_tail,
    Nat.sub_sub]

theorem interpretRegex_eq {seg : Str} (h : 2 ≤ seg.length) :
    ∃ part pattern, interpretRegexPart seg = .ok part ∧
      interpretRegexPattern seg = .ok pattern ∧
      readRegex seg.tail.dropLast = ⟨part, .regex pattern⟩ := by
  have hbrackets := substr_brackets h
  generalize seg.tail.dropLast = content at hbrackets ⊢
  rw [interpretRegexPart, interpretRegexPattern, hbrackets]
  by_cases hcolon : COLON ∈ content
  · obtain ⟨part, pattern, rfl, hpart⟩ := List.eq_append_cons_of_mem hcolon
    obtain ⟨htake, hdrop⟩ := takeWhile_append_cons hpart pattern
    obtain ⟨hbefore, hafter⟩ := substr_append_cons part pattern COLON
    refine ⟨part, pattern, ?_, ?_, ?_⟩
    · change (match find (part ++ COLON :: pattern) COLON with | some _ => _ | none => _) = _
      rw [find_append_cons hpart]
      exact hbefore
    · change (match find (part ++ COLON :: pattern) COLON with | some _ => _ | none => _) = _
      rw [find_append_cons hpart]
      exact hafter
    · rw [readRegex, hdrop, htake]
  · refine ⟨content, ascii ".*", ?_, ?_, ?_⟩
    · change (match find content COLON with | some _ => _ | none => _) = _
      rw [find_of_notMem hcolon]
      rfl
    · change (match find content COLON with | some _ => _ | none => _) = _
      rw [find_of_notMem hcolon]
      rfl
    · rw [readRegex, dropWhile_of_notMem hcolon]

/-- The text after the colon. -/
theorem interpretParameter_cons (part : Str) : interpretParameter (COLON :: part) =
    match part.getLast? with
    | none => .error .back
    | some c => .ok (if c = '?'.toUInt8 then readParameter part.dropLast true
        else readParameter part false) := by
  have hpart : substrFrom (COLON :: part) 1 = .ok part := substrFrom_of_le (by simp)
  rw [interpretParameter, hpart]
  cases hlast : part.getLast? with
  | none =>
      rw [List.getLast?_eq_none_iff] at hlast
      rw [hlast]
      rfl
  | some c =>
      have hne : part ≠ [] := by
        rintro rfl
        cases hlast
      change (back part >>= fun d => if d = '?'.toUInt8 then
        popBack part >>= fun part => interpretDefault part true
        else interpretDefault part false) = _
      rw [back_of_getLast? hlast, popBack_of_ne_nil hne]
      change (if c = '?'.toUInt8 then interpretDefault part.dropLast true
        else interpretDefault part false) = _
      rw [interpretDefault_eq, interpretDefault_eq]
      dsimp only
      split_ifs
      · rfl
      · rfl

/-- The text before the last character, if the two at the ends are the brackets. -/
theorem interpretBrackets_cons {c : UInt8} (part : Str) (hc : c = '<'.toUInt8) :
    (back (c :: part) >>= fun d => if d = '>'.toUInt8 then
      interpretRegexPart (c :: part) >>= fun name => interpretRegexPattern (c :: part) >>=
        fun pattern => pure ⟨name, .regex pattern⟩ else pure ⟨c :: part, .static⟩) =
      Except.ok (if (c :: part).getLast? = some '>'.toUInt8 then readRegex part.dropLast
        else ⟨c :: part, .static⟩) := by
  obtain ⟨d, hd⟩ : ∃ d, (c :: part).getLast? = some d :=
    Option.isSome_iff_exists.mp (by simp)
  rw [back_of_getLast? hd, hd]
  change (if d = '>'.toUInt8 then _ else _) = _
  by_cases hbracket : d = '>'.toUInt8
  · have hlength : 2 ≤ (c :: part).length := by
      cases part with
      | nil =>
          -- one character is not both brackets
          have heq : c = d := by simpa using hd
          rw [← heq, hc] at hbracket
          exact absurd hbracket (by decide)
      | cons c' part => simp
    obtain ⟨name, pattern, hname, hpattern, hread⟩ := interpretRegex_eq hlength
    rw [if_pos hbracket, if_pos (congrArg some hbracket), hname, hpattern]
    exact congrArg Except.ok hread.symm
  · rw [if_neg hbracket, if_neg fun heq => hbracket (Option.some_inj.mp heq)]
    rfl

/-- **One segment**: the reading, or a call of `back()` on an empty string where there is none. -/
theorem interpret_eq {seg : Str} (h : seg ≠ []) :
    interpret seg = match read seg with
      | some segment => .ok segment
      | none => .error .back := by
  obtain ⟨c, part, rfl⟩ := List.exists_cons_of_ne_nil h
  have hhead : ∀ d, (c :: part).head? = some d ↔ c = d := fun d => by simp
  have hinterpret : interpret (c :: part) =
      if c = COLON then interpretParameter (c :: part)
      else if c = '*'.toUInt8 then
        substrFrom (c :: part) 1 >>= fun name => pure ⟨name, .wildcard⟩
      else if c = '<'.toUInt8 then
        back (c :: part) >>= fun d => if d = '>'.toUInt8 then
          interpretRegexPart (c :: part) >>= fun name => interpretRegexPattern (c :: part) >>=
            fun pattern => pure ⟨name, .regex pattern⟩ else pure ⟨c :: part, .static⟩
      else pure ⟨c :: part, .static⟩ := rfl
  rw [hinterpret, read]
  by_cases hcolon : c = COLON
  · rw [if_pos hcolon, if_pos ((hhead _).mpr hcolon), hcolon, interpretParameter_cons,
      List.tail_cons]
    cases hlast : part.getLast? with
    | none =>
        dsimp only
        rw [if_pos (List.getLast?_eq_none_iff.mp hlast)]
    | some d =>
        have hne : part ≠ [] := by
          rintro rfl
          cases hlast
        dsimp only
        rw [if_neg hne]
        by_cases hmark : d = '?'.toUInt8
        · rw [if_pos hmark, if_pos (hlast.trans (congrArg some hmark))]
        · rw [if_neg hmark, if_neg fun heq => hmark (Option.some_inj.mp (hlast.symm.trans heq))]
  rw [if_neg hcolon, if_neg fun heq => hcolon ((hhead _).mp heq)]
  by_cases hstar : c = '*'.toUInt8
  · rw [if_pos hstar, if_pos ((hhead _).mpr hstar), substrFrom_of_le (by simp)]
    rfl
  rw [if_neg hstar, if_neg fun heq => hstar ((hhead _).mp heq)]
  by_cases hopen : c = '<'.toUInt8
  · rw [if_pos hopen, interpretBrackets_cons part hopen]
    by_cases hclose : (c :: part).getLast? = some '>'.toUInt8
    · rw [if_pos hclose, if_pos ⟨(hhead _).mpr hopen, hclose⟩]
      rfl
    · rw [if_neg hclose, if_neg fun hboth => hclose hboth.2]
  · rw [if_neg hopen, if_neg fun hboth => hopen ((hhead _).mp hboth.1)]
    rfl

theorem read_eq_none_iff {seg : Str} : read seg = none ↔ seg = [COLON] := by
  constructor
  · intro hnone
    simp only [read] at hnone
    split_ifs at hnone with hcolon hempty
    obtain ⟨part, rfl⟩ : ∃ part, seg = COLON :: part := by
      cases seg with
      | nil => cases hcolon
      | cons c part => exact ⟨part, congrArg (· :: part) (Option.some_inj.mp hcolon)⟩
    exact congrArg (COLON :: ·) hempty
  · rintro rfl
    rfl

end Segment

/-- The segments of a path, each with its string operations checked. -/
def interpretPath (path : Str) : Except Misuse (List Segment) :=
  (splitPath path).mapM Segment.interpret

theorem ne_nil_of_mem_splitPath {path s : Str} (h : s ∈ splitPath path) : s ≠ [] := by
  simpa using (List.mem_filter.mp h).2

/-- **A path**: the reading, or a call of `back()` on an empty string at the first lone colon. -/
theorem interpretPath_eq (path : Str) :
    interpretPath path = match readPath path with
      | some segments => .ok segments
      | none => .error .back := by
  have hne : ∀ s ∈ splitPath path, s ≠ [] := fun s => ne_nil_of_mem_splitPath
  rw [interpretPath, readPath]
  generalize splitPath path = pieces at hne
  induction pieces with
  | nil => rfl
  | cons s pieces ih =>
      obtain ⟨hs, hpieces⟩ := List.forall_mem_cons.mp hne
      rw [List.mapM_cons, List.mapM_cons, Segment.interpret_eq hs, ih hpieces]
      cases Segment.read s with
      | none => rfl
      | some segment =>
          cases pieces.mapM Segment.read with
          | none => rfl
          | some segments => rfl

theorem readPath_eq_none_iff {path : Str} : readPath path = none ↔ [COLON] ∈ splitPath path := by
  rw [readPath]
  generalize splitPath path = pieces
  induction pieces with
  | nil => simp
  | cons s pieces ih =>
      have hcolon : [COLON] = s ↔ Segment.read s = none :=
        eq_comm.trans Segment.read_eq_none_iff.symm
      rw [List.mapM_cons, List.mem_cons, ← ih, hcolon]
      cases Segment.read s with
      | none => exact iff_of_true rfl (Or.inl rfl)
      | some segment =>
          cases pieces.mapM Segment.read with
          | none => exact iff_of_true rfl (Or.inr rfl)
          | some segments => exact iff_of_false nofun (by simp)

/-! ## Registering a route -/

/-- How a call of `add_route` ends. -/
inductive Registering (H M : Type)
  | registered (router : Router H M)
  | thrown
  | outside (operation : Misuse)

/-- `Router::add_route`, with the operations on strings checked. -/
def Router.addRouteChecked (placement : KeyedTree.Placement Str (Node H M)) (router : Router H M)
    (r : Route H M) : Registering H M :=
  if r.name ≠ [] ∧ (router.namedRoutes.find? (·.1 = r.name)).isSome then .thrown
  else
    let router := router.nameRoute r
    let tree := router.treeFor r.method
    if r.path = ascii "/" then
      .registered (router.setTree r.method
        { tree with value := tree.value.catchAll r.handler r.middlewares })
    else
      match interpretPath r.path with
      | .error operation => .outside operation
      | .ok segments =>
          .registered (router.setTree r.method
            (tree.addRoute placement segments r.handler r.middlewares r.priority))

variable {placement : KeyedTree.Placement Str (Node H M)} {router : Router H M} {r : Route H M}

/-- The checked call ends as the other does. -/
theorem Router.addRouteChecked_eq (placement : KeyedTree.Placement Str (Node H M))
    (router : Router H M) (r : Route H M) : router.addRouteChecked placement r =
      match router.addRoute placement r with
      | .ok router' => .registered router'
      | .error .nameTaken => .thrown
      | .error .emptyPart => .outside .back := by
  unfold addRouteChecked addRoute
  split_ifs
  · rfl
  · rfl
  · dsimp only
    rw [interpretPath_eq]
    cases readPath r.path with
    | none => rfl
    | some segments => rfl

/-- No operation on a string is called outside of its precondition. -/
def Safe (registering : Registering H M) : Prop :=
  ∀ operation, registering ≠ .outside operation

/-- **Registration is safe** if and only if no segment of the path is a lone colon. -/
theorem Router.safe_addRouteChecked_iff (placement : KeyedTree.Placement Str (Node H M))
    (router : Router H M) (r : Route H M)
    (hname : r.name = [] ∨ ∀ kv ∈ router.namedRoutes, kv.1 ≠ r.name) :
    Safe (router.addRouteChecked placement r) ↔ [COLON] ∉ splitPath r.path := by
  have hunused : ¬ (r.name ≠ [] ∧ (router.namedRoutes.find? (·.1 = r.name)).isSome) := by
    rintro ⟨hne, hused⟩
    rw [List.find?_isSome] at hused
    obtain ⟨kv, hkv, heq⟩ := hused
    exact hname.resolve_left hne kv hkv (by simpa using heq)
  unfold addRouteChecked
  rw [if_neg hunused]
  dsimp only
  split_ifs with hroot
  · -- the path `/` has no segments
    refine iff_of_true (fun operation => nofun) ?_
    rw [hroot]
    decide
  · rw [interpretPath_eq, ← readPath_eq_none_iff]
    cases readPath r.path with
    | none => exact iff_of_false (fun hsafe => hsafe .back rfl) (fun hsome => hsome rfl)
    | some segments => exact iff_of_true (fun operation => nofun) nofun

theorem safe_user_iff :
    Safe ((Router.construct () : Router ℕ Unit).addRouteChecked .last
        ⟨ascii "GET", ascii "/users/:id?", some 0, [], [], 0⟩) ↔
      [COLON] ∉ splitPath (ascii "/users/:id?") :=
  Router.safe_addRouteChecked_iff .last _ _ (.inl rfl)

/-- A parameter without a name. -/
theorem not_safe_colon : ¬ Safe ((Router.construct () : Router ℕ Unit).addRouteChecked .last
    ⟨ascii "GET", ascii "/users/:", some 0, [], [], 0⟩) :=
  fun hsafe => hsafe .back rfl

end GinCpp.Routing
