import GinCpp.Callback.Program

/-!
# Recording the actions

A program that is `recorded` carries the list of the actions it has performed.  Recording changes
nothing else: `recorded_runFrom` erases the record again.
-/

namespace GinCpp.Callback

universe u

variable {κ κ' σ ε : Type u}

namespace Program

/-- Every action is appended to a record. -/
def recorded : Program σ ε → Program (σ × List (σ → σ)) ε
  | .ret => .ret
  | .throw e => .throw e
  | .act f k => .act (fun s => (f s.1, s.2 ++ [f])) fun s => (k s.1).recorded
  | .call k => .call fun result => (k result).recorded

/-- A recorded run does what the run does, if its callback does. -/
theorem recorded_runFrom {callee : Callee κ σ ε} {callee' : Callee κ' (σ × List (σ → σ)) ε}
    {R : κ → κ' → Prop}
    (hcall : ∀ c c' s, R c c' → R (callee c s.1).1 (callee' c' s).1 ∧
      (callee' c' s).2.1.1 = (callee c s.1).2.1 ∧ (callee' c' s).2.2 = (callee c s.1).2.2)
    (p : Program σ ε) {c : κ} {c' : κ'} (s : σ × List (σ → σ)) (calls : List (Option ε))
    (h : R c c') :
    R (p.runFrom callee c s.1 calls).control (p.recorded.runFrom callee' c' s calls).control ∧
      (p.recorded.runFrom callee' c' s calls).state.1 = (p.runFrom callee c s.1 calls).state ∧
      (p.recorded.runFrom callee' c' s calls).calls = (p.runFrom callee c s.1 calls).calls ∧
      (p.recorded.runFrom callee' c' s calls).outcome =
        (p.runFrom callee c s.1 calls).outcome := by
  induction p generalizing c c' s calls with
  | ret => exact ⟨h, rfl, rfl, rfl⟩
  | throw e => exact ⟨h, rfl, rfl, rfl⟩
  | act f k ih => exact ih (f s.1) (f s.1, s.2 ++ [f]) calls h
  | call k ih =>
      obtain ⟨hrelated, hstate, hresult⟩ := hcall c c' s h
      rw [recorded, runFrom_call, runFrom_call, hresult, ← hstate]
      exact ih _ _ _ hrelated

end Program

end GinCpp.Callback
