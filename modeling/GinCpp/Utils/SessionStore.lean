import GinCpp.Text
import Mathlib.Logic.Function.Basic

/-!
# The session store

`utils/session_store.cpp`.  Each member holds the mutex from its first line to its last, so it is
one step.  What a handler does with the store is a `Visit`, taken call by call, so that the calls
of other handlers may come between.
-/

namespace GinCpp.Utils

/-! ## The store -/

/-- `InMemorySessionStore`, less its mutex. -/
structure InMemorySessionStore where
  data : Str → Option Str := fun _ => none

namespace InMemorySessionStore

def set (store : InMemorySessionStore) (sessionId data : Str) : InMemorySessionStore :=
  ⟨Function.update store.data sessionId (some data)⟩

/-- Without data it is the empty string. -/
def get (store : InMemorySessionStore) (sessionId : Str) : Str :=
  match store.data sessionId with
  | some data => data
  | none => []

def remove (store : InMemorySessionStore) (sessionId : Str) : InMemorySessionStore :=
  ⟨Function.update store.data sessionId none⟩

variable (store : InMemorySessionStore) (sessionId data other : Str)

@[simp] theorem data_set : (store.set sessionId data).data other =
    if other = sessionId then some data else store.data other := Function.update_apply ..

@[simp] theorem data_remove : (store.remove sessionId).data other =
    if other = sessionId then none else store.data other := Function.update_apply ..

end InMemorySessionStore

/-! ## Visits -/

/-- What is done with the store until an answer is found. -/
inductive Visit (α : Type)
  | ret (answer : α)
  | get (sessionId : Str) (k : Str → Visit α)
  | set (sessionId data : Str) (k : Visit α)
  | remove (sessionId : Str) (k : Visit α)

namespace Visit

variable {α : Type}

/-- The next call: what is left to do and the store after it. -/
def call : Visit α → InMemorySessionStore → Visit α × InMemorySessionStore
  | .ret answer, store => (.ret answer, store)
  | .get sessionId k, store => (k (store.get sessionId), store)
  | .set sessionId data k, store => (k, store.set sessionId data)
  | .remove sessionId k, store => (k, store.remove sessionId)

/-- All of the calls, with nothing between them. -/
def run : Visit α → InMemorySessionStore → α × InMemorySessionStore
  | .ret answer, store => (answer, store)
  | .get sessionId k, store => (k (store.get sessionId)).run store
  | .set sessionId data k, store => k.run (store.set sessionId data)
  | .remove sessionId k, store => k.run (store.remove sessionId)

/-- Every call is about one session, and every answer is of a kind. -/
def Within (sessionId : Str) (P : α → Prop) : Visit α → Prop
  | .ret answer => P answer
  | .get id k => id = sessionId ∧ ∀ data, (k data).Within sessionId P
  | .set id _ k => id = sessionId ∧ k.Within sessionId P
  | .remove id k => id = sessionId ∧ k.Within sessionId P

variable {visit : Visit α} {store store' : InMemorySessionStore} {sessionId : Str}
  {P P' : α → Prop}

/-- Call by call, a visit comes to the end of its run. -/
theorem exists_calls_eq_ret (visit : Visit α) (store : InMemorySessionStore) :
    ∃ n, (fun v : Visit α × InMemorySessionStore => v.1.call v.2)^[n] (visit, store) =
      (.ret (visit.run store).1, (visit.run store).2) := by
  induction visit generalizing store with
  | ret answer => exact ⟨0, rfl⟩
  | get id k ih =>
      obtain ⟨n, hn⟩ := ih (store.get id) store
      exact ⟨n + 1, hn⟩
  | set id data k ih =>
      obtain ⟨n, hn⟩ := ih (store.set id data)
      exact ⟨n + 1, hn⟩
  | remove id k ih =>
      obtain ⟨n, hn⟩ := ih (store.remove id)
      exact ⟨n + 1, hn⟩

theorem Within.imp (h : visit.Within sessionId P) (himp : ∀ answer, P answer → P' answer) :
    visit.Within sessionId P' := by
  induction visit with
  | ret answer => exact himp answer h
  | get id k ih => exact ⟨h.1, fun data => ih data (h.2 data)⟩
  | set id data k ih => exact ⟨h.1, ih h.2⟩
  | remove id k ih => exact ⟨h.1, ih h.2⟩

theorem Within.call (h : visit.Within sessionId P) (store : InMemorySessionStore) :
    (visit.call store).1.Within sessionId P := by
  cases visit with
  | ret answer => exact h
  | get id k => exact h.2 (store.get id)
  | set id data k => exact h.2
  | remove id k => exact h.2

/-- **The frame of a call**: the data of other sessions. -/
theorem Within.data_call_of_ne (h : visit.Within sessionId P) {other : Str}
    (hother : other ≠ sessionId) : (visit.call store).2.data other = store.data other := by
  cases visit with
  | ret answer => rfl
  | get id k => rfl
  | set id data k =>
      have hne : other ≠ id := fun heq => hother (heq.trans h.1)
      simp [Visit.call, hne]
  | remove id k =>
      have hne : other ≠ id := fun heq => hother (heq.trans h.1)
      simp [Visit.call, hne]

/-- A call finds out nothing but the data of its session. -/
theorem Within.call_congr (h : visit.Within sessionId P)
    (hdata : store.data sessionId = store'.data sessionId) :
    (visit.call store).1 = (visit.call store').1 ∧
      (visit.call store).2.data sessionId = (visit.call store').2.data sessionId := by
  cases visit with
  | ret answer => exact ⟨rfl, hdata⟩
  | get id k =>
      obtain ⟨rfl, -⟩ := h
      have hget : store.get id = store'.get id := by
        rw [InMemorySessionStore.get, InMemorySessionStore.get, hdata]
      exact ⟨congrArg k hget, hdata⟩
  | set id data k => exact ⟨rfl, by simp [Visit.call, hdata]⟩
  | remove id k => exact ⟨rfl, by simp [Visit.call, hdata]⟩

end Visit

end GinCpp.Utils
