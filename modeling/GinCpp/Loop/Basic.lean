import Mathlib.Tactic.Common

/-!
# Loops

`run again body` is a `while` loop, with a number of turns that it may take: it has no result if
they do not suffice, so a loop terminates if it has one for some number of turns.  By
`run_eq_of_le` that result does not depend on the number.  `exists_run` is the rule for a loop with
an invariant whose turns bring a measure down.
-/

namespace GinCpp.Loop

variable {σ : Type*} {again : σ → Bool} {body : σ → σ} {s s' : σ}

/-- `while (again) body`, of at most so many turns. -/
def run (again : σ → Bool) (body : σ → σ) : ℕ → σ → Option σ
  | 0, s => if again s then none else some s
  | turns + 1, s => if again s then run again body turns (body s) else some s

/-- `do body while (again)`: the first turn is taken in any case. -/
def runOnce (again : σ → Bool) (body : σ → σ) (turns : ℕ) (s : σ) : Option σ :=
  run again body turns (body s)

theorem run_of_not (h : again s = false) (turns : ℕ) : run again body turns s = some s := by
  cases turns with
  | zero => exact if_neg (by simp [h])
  | succ turns => exact if_neg (by simp [h])

theorem run_succ (h : again s = true) (turns : ℕ) :
    run again body (turns + 1) s = run again body turns (body s) := if_pos h

/-! ## The number of turns -/

theorem run_succ_of_run {turns : ℕ} (h : run again body turns s = some s') :
    run again body (turns + 1) s = some s' := by
  induction turns generalizing s with
  | zero =>
      rw [run] at h
      split_ifs at h with hagain
      rw [run_of_not (Bool.eq_false_iff.mpr hagain), h]
  | succ turns ih =>
      cases hagain : again s with
      | false => rw [run_of_not hagain] at h ⊢; exact h
      | true =>
          rw [run_succ hagain] at h ⊢
          exact ih h

/-- More turns than are needed make no difference. -/
theorem run_eq_of_le {turns larger : ℕ} (h : run again body turns s = some s')
    (hle : turns ≤ larger) : run again body larger s = some s' := by
  induction hle with
  | refl => exact h
  | step _ ih => exact run_succ_of_run ih

/-- A loop has one result. -/
theorem run_unique {turns turns' : ℕ} {first second : σ}
    (hfirst : run again body turns s = some first)
    (hsecond : run again body turns' s = some second) : first = second := by
  have h := run_eq_of_le hfirst (Nat.le_max_left turns turns')
  rw [run_eq_of_le hsecond (Nat.le_max_right turns turns')] at h
  exact (Option.some_inj.mp h).symm

/-! ## Invariants -/

/-- **The rule for a loop.**  It ends within the measure of the state it begins in, with the
invariant and against the condition. -/
theorem exists_run (Invariant : σ → Prop) (measure : σ → ℕ)
    (hturn : ∀ s, Invariant s → again s = true →
      Invariant (body s) ∧ measure (body s) < measure s)
    (hs : Invariant s) {turns : ℕ} (hturns : measure s ≤ turns) :
    ∃ s', run again body turns s = some s' ∧ Invariant s' ∧ again s' = false := by
  induction turns generalizing s with
  | zero =>
      cases hagain : again s with
      | false => exact ⟨s, run_of_not hagain 0, hs, hagain⟩
      | true =>
          have hlt := (hturn s hs hagain).2
          omega
  | succ turns ih =>
      cases hagain : again s with
      | false => exact ⟨s, run_of_not hagain _, hs, hagain⟩
      | true =>
          obtain ⟨hbody, hlt⟩ := hturn s hs hagain
          rw [run_succ hagain]
          exact ih hbody (by omega)

end GinCpp.Loop
