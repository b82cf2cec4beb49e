import Mathlib.Algebra.BigOperators.Intervals
import Mathlib.Algebra.Order.BigOperators.Group.Finset
import Mathlib.Algebra.Order.Interval.Finset.SuccPred
import Mathlib.Algebra.Order.Ring.Cast
import Mathlib.Data.Nat.Cast.Order.Ring
import Mathlib.Data.Nat.SuccPred
import Mathlib.Order.Interval.Finset.Nat
import Mathlib.Tactic.Linarith

/-!
# Reservoirs and windows

A reservoir is drained and refilled, and overflows when it is full.  What is in it is a matter of
windows: there is `x` in it if and only if none of the windows that end now was drained by so much
that `x` more is beyond the capacity (`le_level_iff`).

Decisions that are taken one after another, each for a budget in every window, are best taken
greedily: no decisions that keep to the budgets grant more (`granted_le_of_greedy`).
-/

namespace GinCpp.Reservoir

/-! ## The level -/

section Level

variable {α : Type*} [AddCommGroup α] [LinearOrder α] [IsOrderedAddMonoid α]

/-- A reservoir that is full at first and then loses `net k`, refills included. -/
def level (capacity : α) (net : ℕ → α) : ℕ → α
  | 0 => capacity
  | k + 1 => min capacity (level capacity net k - net k)

variable {capacity : α} {net : ℕ → α}

/-- **What is in a reservoir**, window by window. -/
theorem le_level_iff (x : α) (k : ℕ) :
    x ≤ level capacity net k ↔ ∀ i ≤ k, x + ∑ j ∈ Finset.Ico i k, net j ≤ capacity := by
  induction k generalizing x with
  | zero => simp [level]
  | succ k ih =>
      rw [level, le_min_iff, le_sub_iff_add_le, ih]
      have hwindow : ∀ i ≤ k, x + net k + ∑ j ∈ Finset.Ico i k, net j =
          x + ∑ j ∈ Finset.Ico i (k + 1), net j := by
        intro i hi
        rw [Finset.sum_Ico_succ_top hi, add_assoc, add_comm (net k)]
      constructor
      · rintro ⟨hnow, hbefore⟩ i hi
        rcases Nat.le_succ_iff.mp hi with hi | rfl
        · rw [← hwindow i hi]
          exact hbefore i hi
        · simpa using hnow
      · intro h
        refine ⟨by simpa using h (k + 1) le_rfl, fun i hi => ?_⟩
        rw [hwindow i hi]
        exact h i (Nat.le_succ_of_le hi)

end Level

/-! ## Decisions -/

/-- How many of the decisions from number `i` to number `j` grant. -/
def granted (decisions : ℕ → Bool) (i j : ℕ) : ℕ :=
  ((Finset.Icc i j).filter fun k => decisions k = true).card

/-- How many of the first decisions grant. -/
def grantedBefore (decisions : ℕ → Bool) (k : ℕ) : ℕ :=
  ((Finset.range k).filter fun k => decisions k = true).card

variable {decisions decisions' : ℕ → Bool}

theorem grantedBefore_succ (k : ℕ) :
    grantedBefore decisions (k + 1) = grantedBefore decisions k + (decisions k).toNat := by
  unfold grantedBefore
  rw [Finset.range_add_one, Finset.filter_insert]
  cases decisions k with
  | true =>
      rw [if_pos rfl, Finset.card_insert_of_notMem (by simp)]
      rfl
  | false =>
      rw [if_neg Bool.false_ne_true]
      rfl

theorem grantedBefore_add_granted {i j : ℕ} (h : i ≤ j) :
    grantedBefore decisions i + granted decisions i j = grantedBefore decisions (j + 1) := by
  induction j, h using Nat.le_induction with
  | base =>
      rw [grantedBefore_succ, granted, Finset.Icc_self, Finset.filter_singleton]
      cases decisions i <;> rfl
  | succ j h ih =>
      have hwindow : granted decisions i (j + 1) =
          granted decisions i j + (decisions (j + 1)).toNat := by
        unfold granted
        rw [← Finset.insert_Icc_right_eq_Icc_add_one (by omega), Finset.filter_insert]
        cases decisions (j + 1) with
        | true =>
            rw [if_pos rfl, Finset.card_insert_of_notMem (by simp)]
            rfl
        | false =>
            rw [if_neg Bool.false_ne_true]
            rfl
      rw [grantedBefore_succ, hwindow, ← ih]
      omega

variable {α : Type*} [Ring α] [LinearOrder α] [IsStrictOrderedRing α] {budget : ℕ → ℕ → α}

/-- No window is granted more than its budget. -/
def Within (budget : ℕ → ℕ → α) (decisions : ℕ → Bool) : Prop :=
  ∀ i j, i ≤ j → (granted decisions i j : α) ≤ budget i j

/-- What is refused would have been beyond a budget. -/
def Greedy (budget : ℕ → ℕ → α) (decisions : ℕ → Bool) : Prop :=
  ∀ k, decisions k = false → ∃ i ≤ k, budget i k < granted decisions i k + 1

/-- **Greedy decisions grant the most.** -/
theorem granted_le_of_greedy (hgreedy : Greedy budget decisions)
    (hwithin : Within budget decisions') (k : ℕ) :
    grantedBefore decisions' k ≤ grantedBefore decisions k := by
  induction k using Nat.strongRecOn with
  | ind k ih =>
      cases k with
      | zero => exact Nat.le_refl _
      | succ k =>
          have hbefore := ih k (Nat.lt_succ_self k)
          cases hdecision : decisions k with
          | true =>
              rw [grantedBefore_succ, grantedBefore_succ, hdecision]
              have hone := Bool.toNat_le (decisions' k)
              show _ ≤ _ + 1
              omega
          | false =>
              -- the window that refuses here was granted no more by the others
              obtain ⟨i, hi, hbeyond⟩ := hgreedy k hdecision
              have hbudget := hwithin i k hi
              have hwindow : granted decisions' i k < granted decisions i k + 1 := by
                exact_mod_cast hbudget.trans_lt hbeyond
              have hstart := ih i (Nat.lt_succ_of_le hi)
              calc grantedBefore decisions' (k + 1)
                  = grantedBefore decisions' i + granted decisions' i k :=
                    (grantedBefore_add_granted hi).symm
                _ ≤ grantedBefore decisions i + granted decisions i k := by omega
                _ = grantedBefore decisions (k + 1) := grantedBefore_add_granted hi

end GinCpp.Reservoir
