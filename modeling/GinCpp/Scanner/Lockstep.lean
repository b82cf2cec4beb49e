import GinCpp.Scanner.Basic

/-!
# Two scans in lockstep

Two scans of one scanner over texts that agree symbol by symbol, as far as they are read
(`Matched`).  What relates the states and is kept by a step relates the ends of the scans, and the
verdicts are the same: `scan_lockstep`.
-/

namespace GinCpp.Scanner

variable {σ α ν : Type*}

/-- The symbols of two texts are related where the scanner reads the first text. -/
inductive Matched (step : σ → α → Except ν σ) (A : σ → α → α → Prop) : σ → List α → List α → Prop
  | nil (s : σ) : Matched step A s [] []
  | cons {s s' : σ} {a a' : α} {w w' : List α} (hstep : step s a = .ok s') (ha : A s a a')
      (hrest : Matched step A s' w w') : Matched step A s (a :: w) (a' :: w')
  | verdict {s : σ} {v : ν} {a a' : α} {w : List α} (hstep : step s a = .error v)
      (ha : A s a a') : Matched step A s (a :: w) (a' :: w)

variable {step : σ → α → Except ν σ} {A : σ → α → α → Prop} {R : σ → σ → Prop}

theorem Matched.refl (hA : ∀ s a, A s a a) (s : σ) (w : List α) : Matched step A s w w := by
  induction w generalizing s with
  | nil => exact .nil s
  | cons a w ih =>
      cases hstep : step s a with
      | ok s' => exact .cons hstep (hA s a) (ih s')
      | error v => exact .verdict hstep (hA s a)

instance Matched.decidable [DecidableEq α] [∀ s a a', Decidable (A s a a')] :
    ∀ s w w', Decidable (Matched step A s w w')
  | s, [], [] => isTrue (.nil s)
  | _, [], _ :: _ => isFalse nofun
  | _, _ :: _, [] => isFalse nofun
  | s, a :: w, a' :: w' =>
      if ha : A s a a' then
        match hstep : step s a with
        | .ok s' =>
            match Matched.decidable s' w w' with
            | isTrue hrest => isTrue (.cons hstep ha hrest)
            | isFalse hrest => isFalse fun h => by
                cases h with
                | cons hstep' _ h => exact hrest (Except.ok.inj (hstep.symm.trans hstep') ▸ h)
                | verdict hstep' => cases hstep.symm.trans hstep'
        | .error v =>
            if hw : w = w' then isTrue (hw ▸ .verdict hstep ha)
            else isFalse fun h => by
              cases h with
              | cons hstep' => cases hstep.symm.trans hstep'
              | verdict => exact hw rfl
      else isFalse fun h => by
        cases h with
        | cons _ ha' => exact ha ha'
        | verdict _ ha' => exact ha ha'

/-- A step of two scans: both go on, or both stop with the same verdict. -/
def Together (R : σ → σ → Prop) : Except ν σ → Except ν σ → Prop
  | .ok s, .ok t => R s t
  | .error v, .error v' => v = v'
  | _, _ => False

theorem together_refl (hR : ∀ s, R s s) (outcome : Except ν σ) : Together R outcome outcome := by
  cases outcome with
  | ok s => exact hR s
  | error v => rfl

/-- **Lockstep.** -/
theorem scan_lockstep
    (hstep : ∀ s t a a', R s t → A s a a' → Together R (step s a) (step t a'))
    {s t : σ} {w w' : List α} (hw : Matched step A s w w') (h : R s t) :
    R (scan step s w).1 (scan step t w').1 ∧ (scan step s w).2 = (scan step t w').2 := by
  induction hw generalizing t with
  | nil => exact ⟨h, rfl⟩
  | @cons s s' a a' w w' hs ha hrest ih =>
      have htogether := hstep s t a a' h ha
      rw [hs] at htogether
      cases ht : step t a' with
      | ok t' =>
          rw [ht] at htogether
          rw [scan_cons_ok hs, scan_cons_ok ht]
          exact ih htogether
      | error v =>
          rw [ht] at htogether
          exact htogether.elim
  | @verdict s v a a' w hs ha =>
      have htogether := hstep s t a a' h ha
      rw [hs] at htogether
      cases ht : step t a' with
      | ok t' =>
          rw [ht] at htogether
          exact htogether.elim
      | error v' =>
          rw [ht] at htogether
          obtain rfl : v = v' := htogether
          rw [scan_cons_error hs, scan_cons_error ht]
          exact ⟨h, rfl⟩

end GinCpp.Scanner
