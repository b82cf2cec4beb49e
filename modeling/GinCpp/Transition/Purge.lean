import GinCpp.Transition.Basic

/-!
# Runs without the steps of others

Some of the steps of a system are the own ones of a participant.  He is undisturbed by the others
if his steps put out the same when theirs are left out.  The rule is `undisturbed_of_mirror`: the
run and the run of the own steps are related as long as they go, where only the first one moves in
the steps of the others.
-/

namespace GinCpp.Transition.System

variable {σ : Type*} {α : Type*} {β : Type*} (S : System σ α)

/-- The steps of a run with what each puts out. -/
def outputs (out : σ → α → β) : σ → List α → List (α × β)
  | _, [] => []
  | s, a :: as => (a, out s a) :: outputs out (S.step s a) as

variable {S} {s t : σ} {as : List α}

/-- **The rule for participants**, with a relation that may depend on the steps before. -/
theorem undisturbed_of_mirror (out : σ → α → β) (own : α → Prop) [DecidablePred own]
    (R : List α → σ → σ → Prop)
    (hother : ∀ past a future s t, as = past ++ a :: future → ¬ own a → S.Permits s a →
      R past s t → R (past ++ [a]) (S.step s a) t)
    (hown : ∀ past a future s t, as = past ++ a :: future → own a → S.Permits s a →
      R past s t → S.Permits t a ∧ out s a = out t a ∧ R (past ++ [a]) (S.step s a) (S.step t a))
    (hstart : R [] s t) (hrun : S.Run s as) :
    S.Run t (as.filter own) ∧
      (S.outputs out s as).filter (own ·.1) = S.outputs out t (as.filter own) ∧
      R as (S.run s as) (S.run t (as.filter own)) := by
  suffices hrest : ∀ rest past s t, as = past ++ rest → R past s t → S.Run s rest →
      S.Run t (rest.filter own) ∧
        (S.outputs out s rest).filter (own ·.1) = S.outputs out t (rest.filter own) ∧
        R (past ++ rest) (S.run s rest) (S.run t (rest.filter own)) from
    hrest as [] s t rfl hstart hrun
  intro rest
  induction rest with
  | nil =>
      intro past s t _ hrelated _
      rw [List.append_nil]
      exact ⟨trivial, rfl, hrelated⟩
  | cons a rest ih =>
      intro past s t hsplit hrelated hrun
      have hsplit' : as = (past ++ [a]) ++ rest := by rw [hsplit, List.append_assoc]; rfl
      rw [outputs, List.append_cons, run_cons]
      by_cases ha : own a
      · obtain ⟨hpermits, hout, hnext⟩ := hown past a rest s t hsplit ha hrun.1 hrelated
        obtain ⟨hruns, houtputs, hlast⟩ := ih (past ++ [a]) _ _ hsplit' hnext hrun.2
        rw [List.filter_cons_of_pos (by simpa using ha),
          List.filter_cons_of_pos (by simpa using ha), outputs, run_cons, houtputs, hout]
        exact ⟨⟨hpermits, hruns⟩, rfl, hlast⟩
      · have hnext := hother past a rest s t hsplit ha hrun.1 hrelated
        rw [List.filter_cons_of_neg (by simpa using ha),
          List.filter_cons_of_neg (by simpa using ha)]
        exact ih (past ++ [a]) _ t hsplit' hnext hrun.2

end GinCpp.Transition.System
