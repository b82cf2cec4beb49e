import GinCpp.Text
import Mathlib.Logic.Function.Basic

/-!
# The storage of a context

`Context::set` and `Context::get` of `context/context.h`.  The values are kept as pointers to
`void`: `set` forgets the type of a value, and `get` returns a pointer of whatever type it is asked
for.

The types that are stored and asked for are any family `Value`.  `typeFaithful_iff` says when a
sequence of calls never sees a value as one of another type.
-/

namespace GinCpp

section

variable {Ty : Type*} {Value : Ty → Type*}

/-- A value, with the type that it was stored with. -/
abbrev Stored (Value : Ty → Type*) := Σ t, Value t

/-- A `T*`: the object it points to need not be a `T`. -/
structure Pointer (Value : Ty → Type*) (t : Ty) where
  target : Stored Value

/-- `Context`, without its references to the request and the response. -/
structure Context (Value : Ty → Type*) where
  /-- `data_`; the types are not there for the code to see. -/
  data : Str → Option (Stored Value) := fun _ => none

/-- A call of `set<T>` or of `get<T>`. -/
inductive ContextCall (Value : Ty → Type*)
  | set (t : Ty) (key : Str) (value : Value t)
  | get (t : Ty) (key : Str)

namespace Context

/-- `set<T>`. -/
def set (ctx : Context Value) (t : Ty) (key : Str) (value : Value t) : Context Value :=
  { data := Function.update ctx.data key (some ⟨t, value⟩) }

/-- `get<T>`: `static_pointer_cast` does not look at the object. -/
def get (ctx : Context Value) (t : Ty) (key : Str) : Option (Pointer Value t) :=
  (ctx.data key).map Pointer.mk

/-- What a call leaves. -/
def call (ctx : Context Value) : ContextCall Value → Context Value
  | .set t key value => ctx.set t key value
  | .get _ _ => ctx

/-- A new context after some calls. -/
def after (calls : List (ContextCall Value)) : Context Value := calls.foldl call {}

end Context

/-! ## What is to be returned -/

namespace ContextCall

/-- What a call stores under a key. -/
def storedAt (key : Str) : ContextCall Value → Option (Stored Value)
  | .set t key' value => if key' = key then some ⟨t, value⟩ else none
  | .get _ _ => none

/-- The value of the last `set` on a key. -/
def lastStored (key : Str) (calls : List (ContextCall Value)) : Option (Stored Value) :=
  (calls.filterMap (storedAt key)).getLast?

/-- What a call of `get` is to return: the last value, if it was stored as what is asked for. -/
def expected [DecidableEq Ty] (t : Ty) (key : Str) (calls : List (ContextCall Value)) :
    Option (Pointer Value t) :=
  match lastStored key calls with
  | some stored => if stored.1 = t then some ⟨stored⟩ else none
  | none => none

/-- **The storage is type-faithful** for some calls: each `get` returns what it is to return. -/
def TypeFaithful [DecidableEq Ty] (calls : List (ContextCall Value)) : Prop :=
  ∀ before t key rest, calls = before ++ .get t key :: rest →
    (Context.after before).get t key = expected t key before

/-- Every key is read as what it was last stored as. -/
def Consistent (calls : List (ContextCall Value)) : Prop :=
  ∀ before t key rest, calls = before ++ .get t key :: rest →
    ∀ stored, lastStored key before = some stored → stored.1 = t

end ContextCall

open ContextCall

/-- **The storage has the value of the last `set`.** -/
theorem Context.data_after (calls : List (ContextCall Value)) (key : Str) :
    (Context.after calls).data key = lastStored key calls := by
  induction calls using List.reverseRecOn with
  | nil => rfl
  | append_singleton calls c ih =>
      have hafter : Context.after (calls ++ [c]) = (Context.after calls).call c :=
        List.foldl_concat ..
      rw [hafter, lastStored, List.filterMap_append]
      cases c with
      | get t key' =>
          have hnone : [(.get t key' : ContextCall Value)].filterMap (storedAt key) = [] := rfl
          rw [hnone, List.append_nil]
          exact ih
      | set t key' value =>
          show Function.update (Context.after calls).data key' (some ⟨t, value⟩) key = _
          by_cases hkey : key' = key
          · subst hkey
            have hsome : [ContextCall.set t key' value].filterMap (storedAt key') =
                [⟨t, value⟩] := by simp [storedAt]
            rw [Function.update_self, hsome, List.getLast?_concat]
          · have hnone : [ContextCall.set t key' value].filterMap (storedAt key) = [] := by
              simp [storedAt, hkey]
            rw [Function.update_of_ne (Ne.symm hkey), hnone, List.append_nil]
            exact ih

theorem Context.get_after (calls : List (ContextCall Value)) (t : Ty) (key : Str) :
    (Context.after calls).get t key = (lastStored key calls).map Pointer.mk := by
  rw [Context.get, Context.data_after]

/-- A `get` returns what it is to return, if and only if it asks for the right type. -/
theorem get_after_eq_expected_iff [DecidableEq Ty] (calls : List (ContextCall Value)) (t : Ty)
    (key : Str) :
    (Context.after calls).get t key = expected t key calls ↔
      ∀ stored, lastStored key calls = some stored → stored.1 = t := by
  rw [Context.get_after, expected]
  cases lastStored key calls with
  | none => simp
  | some stored =>
      by_cases htype : stored.1 = t
      · simp [htype]
      · simp [htype]

/-- **When the storage is type-faithful**: if and only if nobody asks for another type than the last
one that was stored under the key. -/
theorem typeFaithful_iff [DecidableEq Ty] (calls : List (ContextCall Value)) :
    TypeFaithful calls ↔ Consistent calls := by
  constructor
  · intro hfaithful before t key rest hcalls
    exact (get_after_eq_expected_iff before t key).mp (hfaithful before t key rest hcalls)
  · intro hconsistent before t key rest hcalls
    exact (get_after_eq_expected_iff before t key).mpr (hconsistent before t key rest hcalls)

end

/-- A string and an integer type. -/
inductive UserType
  | string | int
  deriving DecidableEq, Repr

def UserType.Value : UserType → Type
  | string => Str
  | int => ℤ

/-- The user is stored as a string, and asked for as an integer. -/
def storedName : List (ContextCall UserType.Value) :=
  [.set .string (ascii "user") (ascii "alice"), .get .int (ascii "user")]

/-- The pointer to an integer points to the string. -/
theorem not_typeFaithful_storedName :
    ¬ ContextCall.TypeFaithful storedName ∧
      (Context.after storedName).get .int (ascii "user") = some ⟨⟨.string, ascii "alice"⟩⟩ := by
  refine ⟨fun hfaithful => ?_, rfl⟩
  have hget := hfaithful [.set .string (ascii "user") (ascii "alice")] .int (ascii "user") [] rfl
  cases hget

end GinCpp
