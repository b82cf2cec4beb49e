import GinCpp.Transition.Basic
import Mathlib.Algebra.BigOperators.Group.List.Basic
import Mathlib.Algebra.GroupWithZero.Nat

/-!
# Potentials

Some of the steps of a system are work, others bring it.  A potential pays for the work: a step
that works lowers it by what it costs, and one that brings work raises it by what it gains.  Then a
run costs no more than the potential at its start and what was gained in it (`potential_run_le`).

If work always costs something, a run of work alone comes to an end, in a state that permits no
more of it (`exists_quiescent`).

What is there may stay when it is no longer needed, and still be no more than was needed at one
time: that is the rule `le_max_peak`.
-/

namespace GinCpp.Transition.System

variable {σ : Type*} {α : Type*} (S : System σ α)

/-- No step of a kind is permitted. -/
def Quiescent (work : α → Prop) (s : σ) : Prop := ∀ a, work a → ¬ S.Permits s a

variable {S} {I : σ → Prop} {Q : σ → α → Prop} {s : σ} {as : List α}

/-- **The potential argument.** -/
theorem potential_run_le (potential : σ → ℕ) (cost gain : α → ℕ)
    (hstep : ∀ s a, I s → S.Permits s a → Q s a →
      potential (S.step s a) + cost a ≤ potential s + gain a)
    (halways : S.Always I s as) (hrun : S.Run s as) (h : S.Throughout Q s as) :
    potential (S.run s as) + (as.map cost).sum ≤ potential s + (as.map gain).sum := by
  induction as generalizing s with
  | nil => exact Nat.le_refl _
  | cons a as ih =>
      have hfirst := hstep s a halways.1 hrun.1 h.1
      have hrest := ih halways.2 hrun.2 h.2
      rw [run_cons, List.map_cons, List.map_cons, List.sum_cons, List.sum_cons]
      omega

/-- If every step lowers the potential, a run is no longer than the potential at its start. -/
theorem length_add_potential_le (potential : σ → ℕ)
    (hless : ∀ s a, I s → S.Permits s a → Q s a → potential (S.step s a) < potential s)
    (halways : S.Always I s as) (hrun : S.Run s as) (h : S.Throughout Q s as) :
    as.length + potential (S.run s as) ≤ potential s := by
  have hpaid := potential_run_le potential (fun _ => 1) (fun _ => 0)
    (fun s a hs hpermits hQ => Nat.succ_le_of_lt (hless s a hs hpermits hQ)) halways hrun h
  rw [List.map_const', List.map_const', List.sum_replicate_nat, List.sum_replicate_nat,
    Nat.mul_one, Nat.mul_zero] at hpaid
  omega

/-- Work can be done until there is none left. -/
theorem exists_quiescent (work : α → Prop) (potential : σ → ℕ)
    (hkept : ∀ s a, I s → S.Permits s a → I (S.step s a))
    (hless : ∀ s a, I s → S.Permits s a → work a → potential (S.step s a) < potential s)
    (hs : I s) :
    ∃ as, (∀ a ∈ as, work a) ∧ S.Run s as ∧ S.Quiescent work (S.run s as) := by
  induction hpotential : potential s using Nat.strongRecOn generalizing s with
  | ind bound ih =>
      by_cases hquiescent : S.Quiescent work s
      · exact ⟨[], nofun, trivial, hquiescent⟩
      · obtain ⟨a, hwork, hpermits⟩ : ∃ a, work a ∧ S.Permits s a := by
          simpa [Quiescent] using hquiescent
        obtain ⟨as, hall, hrun, hend⟩ := ih (potential (S.step s a))
          (hpotential ▸ hless s a hs hpermits hwork) (hkept s a hs hpermits) rfl
        refine ⟨a :: as, ?_, ⟨hpermits, hrun⟩, hend⟩
        exact List.forall_mem_cons.mpr ⟨hwork, hall⟩

/-- The most that is demanded in any state of a run. -/
def peak (S : System σ α) (demand : σ → ℕ) : σ → List α → ℕ
  | s, [] => demand s
  | s, a :: as => max (demand s) (peak S demand (S.step s a) as)

theorem demand_le_peak (demand : σ → ℕ) (s : σ) (as : List α) :
    demand s ≤ S.peak demand s as := by
  cases as with
  | nil => exact Nat.le_refl _
  | cons a as => exact Nat.le_max_left _ _

/-- **The high-water mark**: what only grows to meet a demand is no more than the greatest one. -/
theorem le_max_peak (level demand : σ → ℕ)
    (hstep : ∀ s a, I s → S.Permits s a → Q s a →
      level (S.step s a) ≤ max (level s) (demand (S.step s a)))
    (halways : S.Always I s as) (hrun : S.Run s as) (h : S.Throughout Q s as) :
    level (S.run s as) ≤ max (level s) (S.peak demand s as) := by
  induction as generalizing s with
  | nil => exact Nat.le_max_left _ _
  | cons a as ih =>
      have hfirst := hstep s a halways.1 hrun.1 h.1
      have hrest := ih halways.2 hrun.2 h.2
      have hdemand := demand_le_peak (S := S) demand (S.step s a) as
      rw [run_cons, peak]
      omega

/-- What is counted costs one each. -/
theorem sum_map_toNat_eq_countP (p : α → Bool) (as : List α) :
    (as.map fun a => (p a).toNat).sum = as.countP p := by
  induction as with
  | nil => rfl
  | cons a as ih =>
      rw [List.map_cons, List.sum_cons, ih, List.countP_cons]
      cases p a <;> simp [Nat.add_comm]

end GinCpp.Transition.System
