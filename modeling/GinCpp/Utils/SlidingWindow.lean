import GinCpp.Middleware.RateLimiter
import GinCpp.Reservoir.Basic

/-!
# The bucket as a limit on windows

What `TokenBucket` does with one number of tokens is what a limiter would do that remembers every
call and looks at every window: a call is granted if and only if no window that ends with it is
granted more than the capacity and what is refilled meanwhile (`grants_iff_windows`).

So the rate limiter is as permissive as its limit allows.  No other way of choosing the requests
keeps to the limit and has let more of them through at any time (`RateLimiter.passesOn_maximal`).
-/

namespace GinCpp.Utils.TokenBucket

open Reservoir

section

variable {capacity refillRate start : ℚ} {t : ℕ → ℚ} {amount : ℕ → ℤ}

/-- The tokens are a reservoir, which loses what is taken and gains what is refilled. -/
theorem found_construct_eq_level (hrate : 0 ≤ refillRate) (hstart : start ≤ t 0) (k : ℕ) :
    let b := construct capacity refillRate start
    b.found t amount k =
      Reservoir.level capacity
        (fun k => b.taken t amount k - refillRate * (t (k + 1) - t k)) k := by
  intro b
  induction k with
  | zero => exact found_construct_zero hrate hstart
  | succ k ih =>
      rw [found_succ, ih, Reservoir.level]
      show min capacity _ = _
      congr 1
      show _ + (t (k + 1) - t k) * refillRate = _
      ring

theorem sum_net (taken : ℕ → ℤ) {i k : ℕ} (h : i ≤ k) :
    ∑ j ∈ Finset.Ico i k, ((taken j : ℚ) - refillRate * (t (j + 1) - t j)) =
      (∑ j ∈ Finset.Ico i k, taken j : ℤ) - refillRate * (t k - t i) := by
  rw [Finset.sum_sub_distrib, ← Finset.mul_sum, Finset.sum_Ico_sub _ h, Int.cast_sum]

/-- What a call finds, window by window. -/
theorem le_found_iff (hrate : 0 ≤ refillRate) (hstart : start ≤ t 0) (x : ℚ) (k : ℕ) :
    x ≤ (construct capacity refillRate start).found t amount k ↔
      ∀ i ≤ k, ((∑ j ∈ Finset.Ico i k,
        (construct capacity refillRate start).taken t amount j : ℤ) : ℚ) + x ≤
          capacity + refillRate * (t k - t i) := by
  rw [found_construct_eq_level hrate hstart, le_level_iff]
  refine forall_congr' fun i => forall_congr' fun hi => ?_
  rw [sum_net _ hi]
  constructor
  · intro h
    linarith
  · intro h
    linarith

/-- **The bucket limits every window**, and nothing else. -/
theorem grants_iff_windows (hrate : 0 ≤ refillRate) (hstart : start ≤ t 0) (k : ℕ) :
    let b := construct capacity refillRate start
    b.grants t amount k = true ↔
      ∀ i ≤ k, ((∑ j ∈ Finset.Ico i k, b.taken t amount j : ℤ) : ℚ) + amount k ≤
        capacity + refillRate * (t k - t i) := by
  intro b
  rw [grants_iff]
  exact le_found_iff hrate hstart _ k

/-- The last of three calls at one time. -/
theorem grants_iff_windows_burst :
    let b := construct 2 1 0
    let t : ℕ → ℚ := fun _ => 0
    b.grants t (fun _ => 1) 2 = true ↔
      ∀ i ≤ 2, ((∑ j ∈ Finset.Ico i 2, b.taken t (fun _ => 1) j : ℤ) : ℚ) + (1 : ℤ) ≤
        2 + 1 * (t 2 - t i) :=
  @grants_iff_windows 2 1 0 (fun _ => 0) (fun _ => 1) zero_le_one le_rfl 2

end

/-- What is taken in a window before a call that takes nothing. -/
theorem sum_taken_of_refused {b : TokenBucket} {t : ℕ → ℚ} {i k : ℕ} (h : i ≤ k)
    (hrefused : b.passes t k = false) :
    ∑ j ∈ Finset.Ico i k, b.taken t (fun _ => 1) j = granted (b.passes t) i k := by
  have htaken : b.taken t (fun _ => 1) k = 0 := by
    rw [taken, ← passes_eq, hrefused]
    exact if_neg Bool.false_ne_true
  have hwindow := passedBetween_eq (b := b) (t := t) i k
  rw [grantedBetween, ← Finset.Ico_add_one_right_eq_Icc, Finset.sum_Ico_succ_top h, htaken,
    add_zero] at hwindow
  exact hwindow.symm

end GinCpp.Utils.TokenBucket

namespace GinCpp.Middleware.RateLimiter

open Reservoir Utils

variable {r : ℚ} {n : ℕ} {t : ℕ → ℚ}

/-- A request is turned away only where it would go beyond the limit. -/
theorem greedy_passesOn :
    Greedy (fun i j => r + n * (t j - t i)) ((construct r n).passesOn t) := by
  intro k hrefused
  have hsame : (construct r n).passesOn t = (TokenBucket.construct r n (t 0)).passes t :=
    funext passesOn_construct
  rw [hsame] at hrefused ⊢
  by_contra hnone
  have hpasses : (TokenBucket.construct r n (t 0)).passes t k = true := by
    rw [TokenBucket.passes_iff, TokenBucket.level_eq,
      TokenBucket.le_found_iff n.cast_nonneg le_rfl]
    intro i hi
    rw [TokenBucket.sum_taken_of_refused hi hrefused]
    exact_mod_cast not_lt.mp fun hbeyond => hnone ⟨i, hi, hbeyond⟩
  rw [hrefused] at hpasses
  cases hpasses

/-- **The limiter passes on as many requests as its limit allows.** -/
theorem passesOn_maximal (hr : 0 ≤ r) (ht : Monotone t) (decisions : ℕ → Bool)
    (hwithin : Within (fun i j => r + n * (t j - t i)) decisions) :
    Within (fun i j => r + n * (t j - t i)) ((construct r n).passesOn t) ∧
      ∀ k, grantedBefore decisions k ≤ grantedBefore ((construct r n).passesOn t) k :=
  ⟨fun _ _ h => passedBetween_le hr ht h, granted_le_of_greedy greedy_passesOn hwithin⟩

/-- Of four requests at one time any two might have been chosen. -/
theorem passesOn_maximal_two :
    grantedBefore (fun k => k = 1 ∨ k = 3) 4 ≤
      grantedBefore ((construct 2 1).passesOn fun _ => 0) 4 := by
  refine (passesOn_maximal zero_le_two monotone_const _ fun i j _ => ?_).2 4
  have hchosen : (Finset.Icc i j).filter (fun k => decide (k = 1 ∨ k = 3) = true) ⊆ {1, 3} := by
    intro k hk
    simpa using (Finset.mem_filter.mp hk).2
  have hcard : granted (fun k => k = 1 ∨ k = 3) i j ≤ 2 := Finset.card_le_card hchosen
  show (granted (fun k => k = 1 ∨ k = 3) i j : ℚ) ≤ 2 + (1 : ℕ) * (0 - 0)
  rw [sub_self, mul_zero, add_zero]
  exact_mod_cast hcard

end GinCpp.Middleware.RateLimiter
