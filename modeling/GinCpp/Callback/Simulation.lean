import GinCpp.Callback.Program

/-!
# Two runs of one program

A program cannot tell two callbacks apart that answer alike, whatever they keep for themselves.
The second callback of a simulation need not end: `run?` has no result when one of the calls has
none.

The rules are `run?_of_simulation` and `Once.run_eq_of_callee_eq`, where a program that calls at
most once sees the two callbacks in one pair of control states only.  `recorded` makes the order of
the actions a part of the state.
-/

namespace GinCpp.Callback

universe u

variable {κ κ' σ ε : Type u}

/-- A callback that may fail to end. -/
abbrev PartialCallee (κ σ ε : Type u) := κ → σ → Option (κ × σ × Option ε)

namespace Program

/-- Run a program whose callback may fail to end. -/
def run? (callee : PartialCallee κ σ ε) : Program σ ε → PartialCallee κ σ ε
  | .ret, c, s => some (c, s, none)
  | .throw e, c, s => some (c, s, some e)
  | .act f k, c, s => (k (f s)).run? callee c (f s)
  | .call k, c, s => (callee c s).bind fun (c, s, result) => (k result).run? callee c s

theorem run?_passOn (callee : PartialCallee κ σ ε) (c : κ) (s : σ) :
    passOn.run? callee c s = callee c s := by
  rw [passOn, run?]
  cases callee c s with
  | none => rfl
  | some answer =>
      obtain ⟨c', s', outcome⟩ := answer
      cases outcome <;> rfl

variable {callee : Callee κ σ ε} {R : κ → κ' → Prop}

theorem run?_of_simulation_runFrom {callee' : PartialCallee κ' σ ε}
    (hcall : ∀ c c' s, R c c' →
      ∃ d', callee' c' s = some (d', (callee c s).2) ∧ R (callee c s).1 d')
    (p : Program σ ε) {c : κ} {c' : κ'} (s : σ) (calls : List (Option ε)) (h : R c c') :
    ∃ d', p.run? callee' c' s =
        some (d', (p.runFrom callee c s calls).state, (p.runFrom callee c s calls).outcome) ∧
      R (p.runFrom callee c s calls).control d' := by
  induction p generalizing c c' s calls with
  | ret => exact ⟨c', rfl, h⟩
  | throw e => exact ⟨c', rfl, h⟩
  | act f k ih => exact ih (f s) (f s) calls h
  | call k ih =>
      obtain ⟨d', hcallee, hrelated⟩ := hcall c c' s h
      rw [run?, hcallee, runFrom_call]
      exact ih _ _ _ hrelated

/-- **Simulation**: a callback that ends and answers like another, in related control states,
leaves the same state and outcome. -/
theorem run?_of_simulation {callee' : PartialCallee κ' σ ε}
    (hcall : ∀ c c' s, R c c' →
      ∃ d', callee' c' s = some (d', (callee c s).2) ∧ R (callee c s).1 d')
    (p : Program σ ε) {c : κ} {c' : κ'} (s : σ) (h : R c c') :
    ∃ d', p.run? callee' c' s =
        some (d', (p.run callee c s).state, (p.run callee c s).outcome) ∧
      R (p.run callee c s).control d' :=
  run?_of_simulation_runFrom hcall p s [] h

/-! ## Programs that call at most once -/

variable {callee' : Callee κ' σ ε} {I : σ → Prop} {p : Program σ ε}

theorem Settled.runFrom_eq (h : p.Settled I) (callee : Callee κ σ ε) (callee' : Callee κ' σ ε)
    (c : κ) (c' : κ') (s : σ) (calls calls' : List (Option ε)) :
    (p.runFrom callee c s calls).state = (p.runFrom callee' c' s calls').state ∧
      (p.runFrom callee c s calls).outcome = (p.runFrom callee' c' s calls').outcome ∧
      (p.runFrom callee c s calls).calls = calls := by
  induction p generalizing s with
  | ret => exact ⟨rfl, rfl, rfl⟩
  | throw e => exact ⟨rfl, rfl, rfl⟩
  | act f k ih => exact ih (f s) (h.2 (f s)) (f s)
  | call k ih => exact h.elim

/-- Callbacks that answer alike where they are called first are interchangeable. -/
theorem Once.run_eq_of_callee_eq (h : p.Once I) (callee : Callee κ σ ε)
    (callee' : Callee κ' σ ε) (c : κ) (c' : κ')
    (hsame : ∀ s, (callee c s).2 = (callee' c' s).2) (s : σ) :
    (p.run callee c s).state = (p.run callee' c' s).state ∧
      (p.run callee c s).outcome = (p.run callee' c' s).outcome := by
  induction p generalizing s with
  | ret => exact ⟨rfl, rfl⟩
  | throw e => exact ⟨rfl, rfl⟩
  | act f k ih => exact ih (f s) (h (f s)) (f s)
  | call k ih =>
      have hsettled : ∀ result, ∃ J, (k result).Settled J := by
        intro result
        cases result with
        | none => exact ⟨I, h.1⟩
        | some e => exact ⟨_, h.2 e⟩
      rw [run, run, runFrom_call, runFrom_call, hsame s]
      obtain ⟨J, hJ⟩ := hsettled (callee' c' s).2.2
      obtain ⟨hstate, houtcome, -⟩ := hJ.runFrom_eq callee callee' (callee c s).1
        (callee' c' s).1 (callee' c' s).2.1 ([] ++ [(callee' c' s).2.2])
        ([] ++ [(callee' c' s).2.2])
      exact ⟨hstate, houtcome⟩

/-- What a run with at most one call leaves of the control state. -/
theorem Once.run_cases (h : p.Once I) (callee : Callee κ σ ε) (c : κ) (s : σ) :
    ((p.run callee c s).control = c ∧ (p.run callee c s).calls = []) ∨
      ∃ s', (p.run callee c s).control = (callee c s').1 ∧
        (p.run callee c s).calls = [(callee c s').2.2] := by
  induction p generalizing s with
  | ret => exact Or.inl ⟨rfl, rfl⟩
  | throw e => exact Or.inl ⟨rfl, rfl⟩
  | act f k ih => exact ih (f s) (h (f s)) (f s)
  | call k ih =>
      refine Or.inr ⟨s, ?_⟩
      rw [run, runFrom_call]
      cases hresult : (callee c s).2.2 with
      | none =>
          exact ⟨(h.1.runFrom callee _ _ _).1, (h.1.runFrom_eq callee callee _ c _ _ []).2.2⟩
      | some e =>
          exact ⟨((h.2 e).runFrom callee _ _ _).1,
            ((h.2 e).runFrom_eq callee callee _ c _ _ []).2.2⟩

/-! ## Programs that call exactly once -/

/-- There is one call, whatever the actions leave. -/
def ExactlyOnce : Program σ ε → Prop
  | .ret => False
  | .throw _ => False
  | .act _ k => ∀ s, (k s).ExactlyOnce
  | .call k => ∀ result, (k result).Settled fun _ => True

theorem ExactlyOnce.once (h : p.ExactlyOnce) : p.Once fun _ => True := by
  induction p with
  | ret => exact h.elim
  | throw e => exact h.elim
  | act f k ih => exact fun s => ih s (h s)
  | call k ih => exact ⟨h none, fun e => h (some e)⟩

theorem ExactlyOnce.length_calls (h : p.ExactlyOnce) (callee : Callee κ σ ε) (c : κ) (s : σ) :
    (p.run callee c s).calls.length = 1 := by
  induction p generalizing s with
  | ret => exact h.elim
  | throw e => exact h.elim
  | act f k ih => exact ih (f s) (h (f s)) (f s)
  | call k ih =>
      rw [run, runFrom_call,
        ((h (callee c s).2.2).runFrom_eq callee callee _ c _ _ []).2.2]
      rfl

end Program

end GinCpp.Callback
