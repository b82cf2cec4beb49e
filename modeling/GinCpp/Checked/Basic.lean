import Mathlib.Data.List.Basic
import Mathlib.Data.List.TakeWhile

/-!
# Checked sequences

The operations of a `std::string` that have a precondition.  Where it does not hold the operation
is an error, whatever a call of it would do.
-/

namespace GinCpp.Checked

/-- An operation that was called outside of its precondition. -/
inductive Misuse
  | front | back | popBack | substr
  deriving DecidableEq, Repr

variable {α : Type*}

/-- `s.front()`. -/
def front : List α → Except Misuse α
  | [] => .error .front
  | a :: _ => .ok a

/-- `s.back()`. -/
def back (s : List α) : Except Misuse α :=
  match s.getLast? with
  | none => .error .back
  | some a => .ok a

/-- `s.pop_back()`. -/
def popBack (s : List α) : Except Misuse (List α) :=
  if s.isEmpty then .error .popBack else .ok s.dropLast

/-- `s.substr(pos, count)`. -/
def substr (s : List α) (pos count : ℕ) : Except Misuse (List α) :=
  if pos ≤ s.length then .ok ((s.drop pos).take count) else .error .substr

/-- `s.substr(pos)`. -/
def substrFrom (s : List α) (pos : ℕ) : Except Misuse (List α) := substr s pos s.length

/-- `s.find(c)`, `none` for `npos`. -/
def find [DecidableEq α] (s : List α) (c : α) : Option ℕ := s.findIdx? (· = c)

/-! ## Where the precondition holds -/

variable {s : List α} {a : α}

@[simp] theorem front_cons (a : α) (s : List α) : front (a :: s) = .ok a := rfl

@[simp] theorem back_nil : back ([] : List α) = .error .back := rfl

theorem back_of_getLast? (h : s.getLast? = some a) : back s = .ok a := by
  rw [back, h]

theorem popBack_of_ne_nil (h : s ≠ []) : popBack s = .ok s.dropLast :=
  if_neg (by simpa using h)

theorem substr_of_le {pos : ℕ} (h : pos ≤ s.length) (count : ℕ) :
    substr s pos count = .ok ((s.drop pos).take count) := if_pos h

theorem substrFrom_of_le {pos : ℕ} (h : pos ≤ s.length) : substrFrom s pos = .ok (s.drop pos) := by
  have hall : (s.drop pos).length ≤ s.length := by
    rw [List.length_drop]
    exact Nat.sub_le _ _
  rw [substrFrom, substr_of_le h, List.take_of_length_le hall]

/-! ## Splitting at a character -/

/-- The two parts that `find` and `substr` cut out of a sequence. -/
theorem substr_append_cons (before after : List α) (c : α) :
    substr (before ++ c :: after) 0 before.length = .ok before ∧
      substrFrom (before ++ c :: after) (before.length + 1) = .ok after := by
  constructor
  · rw [substr_of_le (Nat.zero_le _), List.drop_zero, List.take_left]
  · rw [substrFrom_of_le (by simp), List.append_cons]
    simp

variable [DecidableEq α]

theorem find_of_notMem {c : α} (h : c ∉ s) : find s c = none := by
  rw [find, List.findIdx?_eq_none_iff]
  intro a ha
  exact decide_eq_false fun hac => h (hac ▸ ha)

theorem find_append_cons {before after : List α} {c : α} (h : c ∉ before) :
    find (before ++ c :: after) c = some before.length := by
  have hbefore := find_of_notMem h
  rw [find] at hbefore
  rw [find, List.findIdx?_append, hbefore, List.findIdx?_cons]
  simp

end GinCpp.Checked
