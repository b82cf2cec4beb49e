import Mathlib.Data.List.Basic

/-!
# Transition systems

A system takes steps, each of which its state may permit or not.  A property holds `Always` in a
run if it holds in every state of it, and `Throughout` if it holds of every step where the step is
taken.  The rule is `always_of_invariant`: what holds at the start and is preserved by the steps
holds always.

A system may be seen as another one, with states of its own, that takes no step where nothing is
seen (`Seen`).  Then a run of the one is seen as a run of the other.
-/

namespace GinCpp.Transition

universe u v

/-- A deterministic system: the nondeterminism is in the steps that are taken. -/
structure System (σ : Type u) (α : Type v) where
  Permits : σ → α → Prop
  step : σ → α → σ

namespace System

variable {σ : Type u} {α : Type v} (S : System σ α)

/-- The state after some steps. -/
def run (s : σ) (as : List α) : σ := as.foldl S.step s

/-- Every step has a property in the state in which it is taken. -/
def Throughout (Q : σ → α → Prop) : σ → List α → Prop
  | _, [] => True
  | s, a :: as => Q s a ∧ Throughout Q (S.step s a) as

/-- The steps are permitted. -/
def Run : σ → List α → Prop := S.Throughout S.Permits

/-- A property holds in every state that is passed, the first and the last included. -/
def Always (P : σ → Prop) : σ → List α → Prop
  | s, [] => P s
  | s, a :: as => P s ∧ Always P (S.step s a) as

variable {S} {P P' I : σ → Prop} {Q Q' : σ → α → Prop} {s : σ} {as bs : List α}

@[simp] theorem run_nil : S.run s [] = s := rfl

@[simp] theorem run_cons (a : α) : S.run s (a :: as) = S.run (S.step s a) as := rfl

theorem run_append : S.run s (as ++ bs) = S.run (S.run s as) bs := List.foldl_append

theorem throughout_append :
    S.Throughout Q s (as ++ bs) ↔ S.Throughout Q s as ∧ S.Throughout Q (S.run s as) bs := by
  induction as generalizing s with
  | nil => simp [Throughout]
  | cons a as ih =>
      rw [List.cons_append, Throughout, Throughout, ih, and_assoc]
      rfl

theorem throughout_congr (h : ∀ s a, Q s a ↔ Q' s a) :
    S.Throughout Q s as ↔ S.Throughout Q' s as := by
  induction as generalizing s with
  | nil => exact Iff.rfl
  | cons a as ih => exact and_congr (h s a) ih

theorem Throughout.imp (himp : ∀ s a, Q s a → Q' s a) (h : S.Throughout Q s as) :
    S.Throughout Q' s as := by
  induction as generalizing s with
  | nil => trivial
  | cons a as ih => exact ⟨himp s a h.1, ih h.2⟩

/-- Steps that have a property in every state. -/
theorem throughout_of_forall (h : ∀ a ∈ as, ∀ s, Q s a) : S.Throughout Q s as := by
  induction as generalizing s with
  | nil => trivial
  | cons a as ih =>
      obtain ⟨ha, has⟩ := List.forall_mem_cons.mp h
      exact ⟨ha s, ih has⟩

/-- The first step that lacks the property. -/
theorem exists_of_not_throughout (h : ¬ S.Throughout Q s as) :
    ∃ before a after, as = before ++ a :: after ∧ ¬ Q (S.run s before) a := by
  induction as generalizing s with
  | nil => exact absurd trivial h
  | cons a as ih =>
      by_cases ha : Q s a
      · obtain ⟨before, b, after, rfl, hb⟩ := ih fun hrest => h ⟨ha, hrest⟩
        exact ⟨a :: before, b, after, rfl, hb⟩
      · exact ⟨[], a, as, rfl, ha⟩

theorem throughout_and :
    S.Throughout (fun s a => Q s a ∧ Q' s a) s as ↔ S.Throughout Q s as ∧ S.Throughout Q' s as := by
  induction as generalizing s with
  | nil => simp [Throughout]
  | cons a as ih =>
      rw [Throughout, Throughout, Throughout, ih, and_and_and_comm]

theorem Always.first (h : S.Always P s as) : P s := by
  cases as with
  | nil => exact h
  | cons a as => exact h.1

theorem Always.last (h : S.Always P s as) : P (S.run s as) := by
  induction as generalizing s with
  | nil => exact h
  | cons a as ih => exact ih h.2

theorem Always.imp (himp : ∀ s, P s → P' s) (h : S.Always P s as) : S.Always P' s as := by
  induction as generalizing s with
  | nil => exact himp s h
  | cons a as ih => exact ⟨himp s h.1, ih h.2⟩

/-- **The invariant rule.** -/
theorem always_of_invariant (hstep : ∀ s a, I s → S.Permits s a → Q s a → I (S.step s a))
    (hstart : I s) (hrun : S.Run s as) (h : S.Throughout Q s as) : S.Always I s as := by
  induction as generalizing s with
  | nil => exact hstart
  | cons a as ih => exact ⟨hstart, ih (hstep s a hstart hrun.1 h.1) hrun.2 h.2⟩

/-- What every permitted step from a state of the invariant satisfies. -/
theorem throughout_of_always (hstep : ∀ s a, I s → S.Permits s a → Q s a → Q' s a)
    (h : S.Always I s as) (hrun : S.Run s as) (hQ : S.Throughout Q s as) :
    S.Throughout Q' s as := by
  induction as generalizing s with
  | nil => trivial
  | cons a as ih => exact ⟨hstep s a h.1 hrun.1 hQ.1, ih h.2 hrun.2 hQ.2⟩

/-- What every permitted step satisfies that leads to a state with a property. -/
theorem throughout_of_always_step (hstep : ∀ s a, S.Permits s a → P (S.step s a) → Q s a)
    (h : S.Always P s as) (hrun : S.Run s as) : S.Throughout Q s as := by
  induction as generalizing s with
  | nil => trivial
  | cons a as ih => exact ⟨hstep s a hrun.1 h.2.first, ih h.2 hrun.2⟩

/-! ## A system seen as another -/

section Seen

variable {τ : Type*} {β : Type*} {T : System τ β} {f : σ → τ} {g : α → Option β}

/-- What is seen of a step is a step of the other system, or nothing. -/
def Seen (S : System σ α) (T : System τ β) (f : σ → τ) (g : α → Option β) (s : σ) (a : α) : Prop :=
  f (S.step s a) = (g a).elim (f s) (T.step (f s))

theorem Seen.run (h : S.Throughout (S.Seen T f g) s as) :
    f (S.run s as) = T.run (f s) (as.filterMap g) := by
  induction as generalizing s with
  | nil => rfl
  | cons a as ih =>
      have hstep : f (S.step s a) = (g a).elim (f s) (T.step (f s)) := h.1
      rw [run_cons, ih h.2, hstep, List.filterMap_cons]
      cases g a <;> rfl

theorem Seen.throughout {Q' : τ → β → Prop} (h : S.Throughout (S.Seen T f g) s as)
    (hQ : S.Throughout (fun s a => ∀ b ∈ g a, Q' (f s) b) s as) :
    T.Throughout Q' (f s) (as.filterMap g) := by
  induction as generalizing s with
  | nil => trivial
  | cons a as ih =>
      have hstep : f (S.step s a) = (g a).elim (f s) (T.step (f s)) := h.1
      have hrest := ih h.2 hQ.2
      rw [hstep] at hrest
      rw [List.filterMap_cons]
      cases hseen : g a with
      | none =>
          rw [hseen] at hrest
          exact hrest
      | some b =>
          rw [hseen] at hrest
          exact ⟨hQ.1 b hseen, hrest⟩

end Seen

/-- A run of a system each of whose steps is a step of another one, where an invariant of that
one holds. -/
theorem exists_run_of_simulates {τ : Type*} {β : Type*} {T : System τ β} {f : σ → τ} {I : τ → Prop}
    (hstep : ∀ t b, I t → T.Permits t b → I (T.step t b))
    (h : ∀ s a, I (f s) → S.Permits s a →
      ∃ b, T.Permits (f s) b ∧ f (S.step s a) = T.step (f s) b)
    (hstart : I (f s)) (hrun : S.Run s as) :
    ∃ bs, bs.length = as.length ∧ T.Run (f s) bs ∧ T.run (f s) bs = f (S.run s as) := by
  induction as generalizing s with
  | nil => exact ⟨[], rfl, trivial, rfl⟩
  | cons a as ih =>
      obtain ⟨b, hpermits, hb⟩ := h s a hstart hrun.1
      obtain ⟨bs, hlength, hbs, hlast⟩ := ih (hb ▸ hstep (f s) b hstart hpermits) hrun.2
      rw [hb] at hbs hlast
      exact ⟨b :: bs, congrArg Nat.succ hlength, ⟨hpermits, hbs⟩, hlast⟩

end System

end GinCpp.Transition
