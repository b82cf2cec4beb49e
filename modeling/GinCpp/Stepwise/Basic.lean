import Mathlib.Data.List.Basic

/-!
# Steps that may throw

Steps over a state, one after another.  An exception ends them and leaves the state as the steps
before it have made it.
-/

namespace GinCpp.Stepwise

variable {ε σ α : Type} {step : α → EStateM ε σ Unit}

def runAll (step : α → EStateM ε σ Unit) : List α → EStateM ε σ Unit
  | [] => pure ()
  | a :: l => do
      step a
      runAll step l

theorem runAll_cons (a : α) (l : List α) (s : σ) :
    runAll step (a :: l) s =
      match step a s with
      | .ok _ s => runAll step l s
      | .error e s => .error e s := by
  show EStateM.bind (step a) (fun _ => runAll step l) s = _
  unfold EStateM.bind
  cases step a s <;> rfl

/-- What holds at the start and is kept by the steps that return holds at the end, or where a step
throws. -/
theorem runAll_induction {P : List α → σ → Prop}
    (hstep : ∀ before a s s', P before s → step a s = .ok () s' → P (before ++ [a]) s')
    {s : σ} (hstart : P [] s) (l : List α) :
    (∀ s', runAll step l s = .ok () s' → P l s') ∧
      ∀ e s', runAll step l s = .error e s' →
        ∃ before a after s₁, l = before ++ a :: after ∧ P before s₁ ∧ step a s₁ = .error e s' := by
  -- the steps that are over
  suffices hrest : ∀ (l before : List α) (s : σ), P before s →
      (∀ s', runAll step l s = .ok () s' → P (before ++ l) s') ∧
        ∀ e s', runAll step l s = .error e s' →
          ∃ more a after s₁, l = more ++ a :: after ∧ P (before ++ more) s₁ ∧
            step a s₁ = .error e s' by
    exact hrest l [] s hstart
  intro l
  induction l with
  | nil =>
      intro before s hP
      constructor
      · intro s' h
        injection h with _ hs
        rw [List.append_nil, ← hs]
        exact hP
      · intro e s' h
        cases h
  | cons a l ih =>
      intro before s hP
      rw [runAll_cons]
      cases hresult : step a s with
      | ok _ s₁ =>
          obtain ⟨hok, herror⟩ := ih (before ++ [a]) s₁ (hstep before a s s₁ hP hresult)
          rw [← List.append_cons] at hok
          refine ⟨hok, fun e s' h => ?_⟩
          obtain ⟨more, b, after, s₂, rfl, hP', hthrow⟩ := herror e s' h
          rw [← List.append_cons] at hP'
          exact ⟨a :: more, b, after, s₂, rfl, hP', hthrow⟩
      | error e s₁ =>
          constructor
          · intro s' h
            cases h
          · intro e' s' h
            injection h with he hs
            refine ⟨[], a, l, s, rfl, ?_, ?_⟩
            · rw [List.append_nil]
              exact hP
            · rw [hresult, he, hs]

end GinCpp.Stepwise
