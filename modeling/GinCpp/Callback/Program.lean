import Mathlib.Data.List.Basic

/-!
# Programs that call back

A program changes a state, calls a callback as often as it likes, looks at how each call ended,
and ends itself by returning or by throwing.  The callback is an argument of the run.  It may keep
a state `κ` of its own, which the program does not see.

The rules are `run_induction`, for what a run preserves, `run_congr`, for two callbacks that agree
where they are called, and `Once.run_cases`, for programs that call at most once.
-/

namespace GinCpp.Callback

universe u

/-- A program over the states `σ` that throws values of `ε`.  A finite term: the callback is
called finitely often. -/
inductive Program (σ ε : Type u)
  | ret
  | throw (e : ε)
  | act (f : σ → σ) (k : σ → Program σ ε)
  | call (k : Option ε → Program σ ε)

variable {κ σ ε : Type u}

/-- A callback: how it ends is `none` when it returns and `some e` when it throws `e`. -/
abbrev Callee (κ σ ε : Type u) := κ → σ → κ × σ × Option ε

/-- The result of a run: the two states, how the calls ended, in order, and how the run did. -/
structure Run (κ σ ε : Type u) where
  control : κ
  state : σ
  calls : List (Option ε)
  outcome : Option ε

namespace Program

/-- Run a program that has made `calls` already. -/
def runFrom (callee : Callee κ σ ε) :
    Program σ ε → κ → σ → List (Option ε) → Run κ σ ε
  | .ret, c, s, calls => ⟨c, s, calls, none⟩
  | .throw e, c, s, calls => ⟨c, s, calls, some e⟩
  | .act f k, c, s, calls => (k (f s)).runFrom callee c (f s) calls
  | .call k, c, s, calls =>
      let (c, s, result) := callee c s
      (k result).runFrom callee c s (calls ++ [result])

def run (callee : Callee κ σ ε) (p : Program σ ε) (c : κ) (s : σ) : Run κ σ ε :=
  p.runFrom callee c s []

variable {callee callee' : Callee κ σ ε}

theorem runFrom_call (k : Option ε → Program σ ε) (c : κ) (s : σ) (calls : List (Option ε)) :
    (call k).runFrom callee c s calls =
      (k (callee c s).2.2).runFrom callee (callee c s).1 (callee c s).2.1
        (calls ++ [(callee c s).2.2]) := rfl

/-- What the actions and the calls preserve holds at the end. -/
theorem runFrom_induction {P : κ → σ → List (Option ε) → Prop}
    (hact : ∀ c s (f : σ → σ) calls, P c s calls → P c (f s) calls)
    (hcall : ∀ c s calls, P c s calls →
      P (callee c s).1 (callee c s).2.1 (calls ++ [(callee c s).2.2]))
    (p : Program σ ε) {c : κ} {s : σ} {calls : List (Option ε)} (h : P c s calls) :
    P (p.runFrom callee c s calls).control (p.runFrom callee c s calls).state
      (p.runFrom callee c s calls).calls := by
  induction p generalizing c s calls with
  | ret => exact h
  | throw e => exact h
  | act f k ih => exact ih (f s) (hact c s f calls h)
  | call k ih => exact ih _ (hcall c s calls h)

theorem run_induction {P : κ → σ → List (Option ε) → Prop}
    (hact : ∀ c s (f : σ → σ) calls, P c s calls → P c (f s) calls)
    (hcall : ∀ c s calls, P c s calls →
      P (callee c s).1 (callee c s).2.1 (calls ++ [(callee c s).2.2]))
    (p : Program σ ε) {c : κ} {s : σ} (h : P c s []) :
    P (p.run callee c s).control (p.run callee c s).state (p.run callee c s).calls :=
  runFrom_induction hact hcall p h

/-- The same for the control state alone. -/
theorem run_control_induction (callee : Callee κ σ ε) {P : κ → List (Option ε) → Prop}
    (hcall : ∀ c s calls, P c calls → P (callee c s).1 (calls ++ [(callee c s).2.2]))
    (p : Program σ ε) {c : κ} (s : σ) (h : P c []) :
    P (p.run callee c s).control (p.run callee c s).calls :=
  run_induction (P := fun c _ calls => P c calls) (fun _ _ _ _ h => h) hcall p h

/-- Callbacks that agree on the control states of an invariant are interchangeable. -/
theorem runFrom_congr {I : κ → Prop} (hsame : ∀ c s, I c → callee c s = callee' c s)
    (hkeep : ∀ c s, I c → I (callee c s).1) (p : Program σ ε) {c : κ} {s : σ}
    {calls : List (Option ε)} (h : I c) :
    p.runFrom callee c s calls = p.runFrom callee' c s calls := by
  induction p generalizing c s calls with
  | ret => rfl
  | throw e => rfl
  | act f k ih => exact ih (f s) h
  | call k ih =>
      rw [runFrom, runFrom, ← hsame c s h]
      exact ih _ (hkeep c s h)

theorem run_congr {I : κ → Prop} (hsame : ∀ c s, I c → callee c s = callee' c s)
    (hkeep : ∀ c s, I c → I (callee c s).1) (p : Program σ ε) {c : κ} (s : σ) (h : I c) :
    p.run callee c s = p.run callee' c s :=
  runFrom_congr hsame hkeep p h

/-! ## What the callback is called with -/

/-- The two states that each call is made in. -/
def arguments (callee : Callee κ σ ε) : Program σ ε → κ → σ → List (κ × σ)
  | .ret, _, _ => []
  | .throw _, _, _ => []
  | .act f k, c, s => (k (f s)).arguments callee c (f s)
  | .call k, c, s =>
      (c, s) :: (k (callee c s).2.2).arguments callee (callee c s).1 (callee c s).2.1

theorem length_calls_runFrom (p : Program σ ε) (c : κ) (s : σ) (calls : List (Option ε)) :
    (p.runFrom callee c s calls).calls.length =
      calls.length + (p.arguments callee c s).length := by
  induction p generalizing c s calls with
  | ret => rfl
  | throw e => rfl
  | act f k ih => exact ih (f s) c (f s) calls
  | call k ih =>
      rw [runFrom_call, ih, arguments, List.length_append, List.length_singleton, List.length_cons]
      omega

theorem length_calls_run (p : Program σ ε) (c : κ) (s : σ) :
    (p.run callee c s).calls.length = (p.arguments callee c s).length := by
  rw [run, length_calls_runFrom, List.length_nil, Nat.zero_add]

/-- Nothing but a call changes the control state. -/
theorem fst_of_arguments_eq_cons {p : Program σ ε} {c : κ} {s : σ} {a : κ × σ}
    {more : List (κ × σ)} (h : p.arguments callee c s = a :: more) : a.1 = c := by
  induction p generalizing s with
  | ret => cases h
  | throw e => cases h
  | act f k ih => exact ih (f s) h
  | call k ih => rw [← (List.cons.inj h).1]

/-- What the calls preserve, each in the states it is made in. -/
theorem runFrom_arguments_induction {P : κ → List (Option ε) → Prop} (p : Program σ ε) {c : κ}
    {s : σ} {calls : List (Option ε)}
    (hcall : ∀ c' s' calls', (c', s') ∈ p.arguments callee c s → P c' calls' →
      P (callee c' s').1 (calls' ++ [(callee c' s').2.2]))
    (h : P c calls) :
    P (p.runFrom callee c s calls).control (p.runFrom callee c s calls).calls := by
  induction p generalizing c s calls with
  | ret => exact h
  | throw e => exact h
  | act f k ih => exact ih (f s) hcall h
  | call k ih =>
      refine ih _ (fun c' s' calls' hmem => hcall c' s' calls' (List.mem_cons_of_mem _ hmem)) ?_
      exact hcall c s calls List.mem_cons_self h

theorem run_arguments_induction (callee : Callee κ σ ε) {P : κ → List (Option ε) → Prop}
    (p : Program σ ε) (c : κ) (s : σ)
    (hcall : ∀ c' s' calls', (c', s') ∈ p.arguments callee c s → P c' calls' →
      P (callee c' s').1 (calls' ++ [(callee c' s').2.2]))
    (h : P c []) : P (p.run callee c s).control (p.run callee c s).calls :=
  runFrom_arguments_induction p hcall h

/-- Call and do nothing else. -/
def passOn : Program σ ε := .call fun
  | none => .ret
  | some e => .throw e

/-! ## Programs that call once -/

/-- There is no call, and what is done keeps `I`. -/
def Settled (I : σ → Prop) : Program σ ε → Prop
  | .ret => True
  | .throw _ => True
  | .act f k => (∀ s, I s → I (f s)) ∧ ∀ s, (k s).Settled I
  | .call _ => False

/-- There is at most one call, and what is done once it has returned keeps `I`. -/
def Once (I : σ → Prop) : Program σ ε → Prop
  | .ret => True
  | .throw _ => True
  | .act _ k => ∀ s, (k s).Once I
  | .call k => (k none).Settled I ∧ ∀ e, (k (some e)).Settled fun _ => True

/-- What a call throws is passed on. -/
def PassesOn : Program σ ε → Prop
  | .ret => True
  | .throw _ => True
  | .act _ k => ∀ s, (k s).PassesOn
  | .call k => (∀ e, k (some e) = .throw e) ∧ (k none).PassesOn

variable {I : σ → Prop} {p : Program σ ε}

theorem Settled.runFrom (h : p.Settled I) (callee : Callee κ σ ε) (c : κ) (s : σ)
    (calls : List (Option ε)) :
    (p.runFrom callee c s calls).control = c ∧ (I s → I (p.runFrom callee c s calls).state) := by
  induction p generalizing s with
  | ret => exact ⟨rfl, id⟩
  | throw e => exact ⟨rfl, id⟩
  | act f k ih =>
      obtain ⟨hcontrol, hstate⟩ := ih (f s) (h.2 (f s)) (f s)
      exact ⟨hcontrol, fun hs => hstate (h.1 s hs)⟩
  | call k ih => exact h.elim

/-- A run with at most one call: there is none, or what it leaves is what the run leaves. -/
theorem Once.runFrom_cases (h : p.Once I) (callee : Callee κ σ ε) (c : κ) (s : σ)
    (calls : List (Option ε)) :
    (p.runFrom callee c s calls).control = c ∨ ∃ s',
      (p.runFrom callee c s calls).control = (callee c s').1 ∧
      ((callee c s').2.2 = none → I (callee c s').2.1 → I (p.runFrom callee c s calls).state) ∧
      (p.PassesOn → ∀ e, (callee c s').2.2 = some e →
        (p.runFrom callee c s calls).outcome = some e) := by
  induction p generalizing s with
  | ret => exact Or.inl rfl
  | throw e => exact Or.inl rfl
  | act f k ih =>
      rcases ih (f s) (h (f s)) (f s) with hnone | ⟨s', hcontrol, hreturn, hthrow⟩
      · exact Or.inl hnone
      · exact Or.inr ⟨s', hcontrol, hreturn, fun hpass => hthrow (hpass (f s))⟩
  | call k ih =>
      refine Or.inr ⟨s, ?_, fun hreturn => ?_, fun hpass e hthrow => ?_⟩
      · rw [runFrom_call]
        cases (callee c s).2.2 with
        | none => exact (Settled.runFrom h.1 callee _ _ _).1
        | some e => exact (Settled.runFrom (h.2 e) callee _ _ _).1
      · rw [runFrom_call, hreturn]
        exact (Settled.runFrom h.1 callee _ _ _).2
      · rw [runFrom_call, hthrow, hpass.1 e]
        rfl

end Program

end GinCpp.Callback
