import GinCpp.Text
import Mathlib.Data.List.Forall2
import Mathlib.Logic.Function.Basic

/-!
# Route patterns

How `Router::add_route` reads the segments of a path, and what a pattern means: which request
paths it matches (`Matches`) and what its parameters are bound to (`bindings`).  The meaning is
the router's own documentation put in one place; the code has no function for it.  It searches
the trie instead.
-/

namespace GinCpp.Routing

/-- `NodeType`. -/
inductive NodeType
  | static | parameter | wildcard | regex
  deriving DecidableEq, Repr

/-- The kinds of segments, each with the fields of a node that it sets. -/
inductive Kind
  | static
  | parameter (isOptional : Bool) (defaultValue : Str)
  | wildcard
  | regex (pattern : Str)
  deriving DecidableEq, Repr

/-- The type of the node that a segment creates. -/
def Kind.type : Kind → NodeType
  | static => .static
  | parameter _ _ => .parameter
  | wildcard => .wildcard
  | regex _ => .regex

def Kind.isOptional : Kind → Bool
  | parameter isOptional _ => isOptional
  | _ => false

/-- What `add_route` makes of one segment. -/
structure Segment where
  part : Str
  kind : Kind
  deriving DecidableEq, Repr

/-- The non-empty pieces between slashes. -/
def splitPath (path : Str) : List Str := (path.splitOn SLASH).filter (!·.isEmpty)

/-- `segments[i] + "/" + … `, the remaining path of a wildcard. -/
def joinPath (segments : List Str) : Str := [SLASH].intercalate segments

namespace Segment

/-- A segment after its colon, a final question mark already taken off. -/
def readParameter (part : Str) (isOptional : Bool) : Segment :=
  match part.dropWhile (· != '='.toUInt8) with
  | [] => ⟨part, .parameter isOptional []⟩
  | _ :: defaultValue => ⟨part.takeWhile (· != '='.toUInt8), .parameter true defaultValue⟩

/-- The text between the angle brackets. -/
def readRegex (content : Str) : Segment :=
  match content.dropWhile (· != COLON) with
  | [] => ⟨content, .regex (ascii ".*")⟩
  | _ :: pattern => ⟨content.takeWhile (· != COLON), .regex pattern⟩

/-- The reading of a non-empty segment.  There is none for a lone colon, where `part.back()` is
called on an empty string. -/
def read (seg : Str) : Option Segment :=
  if seg.head? = some COLON then
    let part := seg.tail
    if part = [] then none
    else if part.getLast? = some '?'.toUInt8 then some (readParameter part.dropLast true)
    else some (readParameter part false)
  else if seg.head? = some '*'.toUInt8 then some ⟨seg.tail, .wildcard⟩
  else if seg.head? = some '<'.toUInt8 ∧ seg.getLast? = some '>'.toUInt8 then
    some (readRegex seg.tail.dropLast)
  else some ⟨seg, .static⟩

end Segment

example : Segment.read (ascii ":locale=en") =
    some ⟨ascii "locale", .parameter true (ascii "en")⟩ := by decide

/-- A segment without marks. -/
def Literal (s : Str) : Prop :=
  s.head? ≠ some COLON ∧ s.head? ≠ some '*'.toUInt8 ∧
    ¬ (s.head? = some '<'.toUInt8 ∧ s.getLast? = some '>'.toUInt8)

instance (s : Str) : Decidable (Literal s) := inferInstanceAs (Decidable (_ ∧ _ ∧ _))

/-- The reading of a path. -/
def readPath (path : Str) : Option (List Segment) := (splitPath path).mapM Segment.read

/-! ## Slashes -/

theorem not_of_mem_splitOnPPrepend {p : UInt8 → Bool} {text acc piece : Str}
    (h : piece ∈ text.splitOnPPrepend p acc) (hacc : ∀ c ∈ acc, p c = false) :
    ∀ c ∈ piece, p c = false := by
  induction text generalizing acc with
  | nil =>
      rw [List.splitOnPPrepend_nil, List.mem_singleton] at h
      simpa [h] using hacc
  | cons c text ih =>
      cases hc : p c with
      | false =>
          rw [List.splitOnPPrepend_cons_neg hc] at h
          exact ih h (List.forall_mem_cons.mpr ⟨hc, hacc⟩)
      | true =>
          rw [List.splitOnPPrepend_cons_pos hc, List.mem_cons] at h
          rcases h with rfl | h
          · simpa using hacc
          · exact ih h nofun

theorem slash_not_mem_of_mem_splitPath {path s : Str} (h : s ∈ splitPath path) : SLASH ∉ s := by
  intro hslash
  have hpiece := not_of_mem_splitOnPPrepend (List.mem_filter.mp h).1 nofun SLASH hslash
  simp at hpiece

namespace Segment

theorem part_readParameter_sublist (part : Str) (isOptional : Bool) :
    (readParameter part isOptional).part.Sublist part := by
  unfold readParameter
  split
  · exact List.Sublist.refl _
  · exact List.takeWhile_sublist _

theorem part_readRegex_sublist (content : Str) : (readRegex content).part.Sublist content := by
  unfold readRegex
  split
  · exact List.Sublist.refl _
  · exact List.takeWhile_sublist _

theorem read_of_literal {s : Str} (h : Literal s) : read s = some ⟨s, .static⟩ := by
  obtain ⟨hcolon, hstar, hregex⟩ := h
  rw [read, if_neg hcolon, if_neg hstar, if_neg hregex]

/-- The marks that are taken off begin with the first byte, if there are any. -/
theorem part_cases {s : Str} {seg : Segment} (h : read s = some seg) :
    seg.part.Sublist s.tail ∨ (Literal s ∧ seg = ⟨s, .static⟩) := by
  simp only [read] at h
  split_ifs at h with hcolon hempty hoptional hstar hregex
  · obtain rfl := Option.some_inj.mp h
    exact Or.inl ((part_readParameter_sublist _ _).trans (List.dropLast_sublist _))
  · obtain rfl := Option.some_inj.mp h
    exact Or.inl (part_readParameter_sublist _ _)
  · obtain rfl := Option.some_inj.mp h
    exact Or.inl (List.Sublist.refl _)
  · obtain rfl := Option.some_inj.mp h
    exact Or.inl ((part_readRegex_sublist _).trans (List.dropLast_sublist _))
  · exact Or.inr ⟨⟨hcolon, hstar, hregex⟩, (Option.some_inj.mp h).symm⟩

theorem part_subset_of_read {s : Str} {seg : Segment} (h : read s = some seg) : seg.part ⊆ s := by
  rcases part_cases h with hshort | ⟨-, rfl⟩
  · exact (hshort.trans (List.tail_sublist s)).subset
  · exact List.Subset.refl _

end Segment

/-- The segments are read one by one. -/
theorem forall₂_of_mapM {pieces : List Str} {segments : List Segment}
    (h : pieces.mapM Segment.read = some segments) :
    List.Forall₂ (fun s seg => Segment.read s = some seg) pieces segments := by
  induction pieces generalizing segments with
  | nil =>
      obtain rfl : [] = segments := by simpa using h
      exact .nil
  | cons s pieces ih =>
      rw [List.mapM_cons] at h
      obtain ⟨first, hfirst, h⟩ := Option.bind_eq_some_iff.mp h
      obtain ⟨rest, hrest, h⟩ := Option.bind_eq_some_iff.mp h
      obtain rfl : first :: rest = segments := by simpa using h
      exact .cons hfirst (ih hrest)

theorem exists_read_of_mem_mapM {pieces : List Str} {segments : List Segment} {seg : Segment}
    (h : pieces.mapM Segment.read = some segments) (hseg : seg ∈ segments) :
    ∃ s ∈ pieces, Segment.read s = some seg := by
  have hall := forall₂_of_mapM h
  clear h
  induction hall with
  | nil => cases hseg
  | @cons s first pieces rest hfirst _ ih =>
      rcases List.mem_cons.mp hseg with rfl | hseg
      · exact ⟨s, List.mem_cons_self, hfirst⟩
      · obtain ⟨s', hs', hread⟩ := ih hseg
        exact ⟨s', List.mem_cons_of_mem s hs', hread⟩

/-- No name has a slash in it. -/
theorem slash_not_mem_part {path : Str} {segments : List Segment} {seg : Segment}
    (h : readPath path = some segments) (hseg : seg ∈ segments) : SLASH ∉ seg.part := by
  obtain ⟨s, hs, hread⟩ := exists_read_of_mem_mapM h hseg
  exact fun hslash => slash_not_mem_of_mem_splitPath hs (Segment.part_subset_of_read hread hslash)

/-! ## The meaning of a pattern -/

/-- `std::regex_match` of a pattern on a text, `none` if an exception is thrown. -/
abbrev Regex := Str → Str → Option Bool

/-- `std::unordered_map<std::string, std::string>`. -/
abbrev Params := Str → Option Str

/-- Whether a segment takes a path segment.  A wildcard takes more than one, see `Matches`. -/
def Segment.Takes (regex : Regex) (seg : Segment) (s : Str) : Prop :=
  match seg.kind with
  | .static => s = seg.part
  | .parameter _ _ => True
  | .regex pattern => regex pattern s = some true
  | .wildcard => False

/-- **A pattern matches a path** segment by segment; a wildcard takes all that remains, and a
trailing optional segment may be absent. -/
def Matches (regex : Regex) : List Segment → List Str → Prop
  | [], segments => segments = []
  | seg :: pattern, [] => pattern = [] ∧ seg.kind.isOptional = true
  | seg :: pattern, s :: segments =>
      (seg.kind = .wildcard ∧ Matches regex pattern []) ∨
        (seg.Takes regex s ∧ Matches regex pattern segments)

instance (regex : Regex) (seg : Segment) (s : Str) : Decidable (seg.Takes regex s) := by
  unfold Segment.Takes
  cases seg.kind <;> infer_instance

instance decidableMatches (regex : Regex) : (pattern : List Segment) → (segments : List Str) →
    Decidable (Matches regex pattern segments)
  | [], segments => inferInstanceAs (Decidable (segments = []))
  | seg :: pattern, [] => inferInstanceAs (Decidable (pattern = [] ∧ seg.kind.isOptional = true))
  | seg :: pattern, s :: segments =>
      have := decidableMatches regex pattern []
      have := decidableMatches regex pattern segments
      inferInstanceAs (Decidable ((seg.kind = .wildcard ∧ Matches regex pattern []) ∨
        (seg.Takes regex s ∧ Matches regex pattern segments)))

/-- What the parameters of a pattern are bound to, the first position of a name deciding. -/
def bindings : List Segment → List Str → Params
  | seg :: pattern, s :: segments =>
      match seg.kind with
      | .static => bindings pattern segments
      | .parameter _ _ | .regex _ =>
          Function.update (bindings pattern segments) seg.part (some s)
      | .wildcard =>
          Function.update (bindings pattern []) seg.part (some (joinPath (s :: segments)))
  | _, _ => fun _ => none

end GinCpp.Routing
