import Mathlib.Algebra.BigOperators.Intervals
import Mathlib.Algebra.BigOperators.Ring.Finset
import Mathlib.Algebra.Order.Interval.Finset.SuccPred
import Mathlib.Data.Nat.SuccPred
import Mathlib.Algebra.Order.Field.Rat
import Mathlib.Order.Interval.Finset.Nat
import Mathlib.Tactic.Linarith
import Mathlib.Tactic.Ring

/-!
# The token bucket

`utils/token_bucket.cpp`, in exact arithmetic.  In any window of calls the bucket grants at most its
capacity and what the window refills (`grantedBetween_le`): what was granted and what is left come
out of the two.  The requests of the rate limiter take one token each.
-/

namespace GinCpp.Utils

/-- `utils::TokenBucket`; the times are in seconds. -/
structure TokenBucket where
  capacity : ℚ
  tokens : ℚ
  refillRate : ℚ
  lastRefillTime : ℚ

namespace TokenBucket

/-- The constructor. -/
def construct (capacity refillRate now : ℚ) : TokenBucket :=
  ⟨capacity, capacity, refillRate, now⟩

variable (b : TokenBucket)

def refill (now : ℚ) : TokenBucket :=
  { b with
    tokens := min b.capacity (b.tokens + (now - b.lastRefillTime) * b.refillRate)
    lastRefillTime := now }

def consume (now : ℚ) (tokens : ℤ) : Bool × TokenBucket :=
  let b := b.refill now
  if tokens ≤ b.tokens then (true, { b with tokens := b.tokens - tokens }) else (false, b)

/-! ## A sequence of calls -/

section

variable (t : ℕ → ℚ) (amount : ℕ → ℤ)

/-- The bucket before the call number `k`, each for an amount at its time. -/
def beforeCall : ℕ → TokenBucket
  | 0 => b
  | k + 1 => ((beforeCall k).consume (t k) (amount k)).2

/-- Whether the call number `k` is granted. -/
def grants (k : ℕ) : Bool := ((b.beforeCall t amount k).consume (t k) (amount k)).1

/-- The tokens that the call number `k` finds. -/
def found (k : ℕ) : ℚ := ((b.beforeCall t amount k).refill (t k)).tokens

/-- What the call number `k` takes. -/
def taken (k : ℕ) : ℤ := if b.grants t amount k = true then amount k else 0

/-- The sum of the amounts that the calls from number `i` to number `j` are granted. -/
def grantedBetween (i j : ℕ) : ℤ := ∑ k ∈ Finset.Icc i j, b.taken t amount k

end

section

variable {b} {t : ℕ → ℚ} {amount : ℕ → ℤ}

theorem grants_iff (k : ℕ) : b.grants t amount k = true ↔ amount k ≤ b.found t amount k := by
  unfold grants found consume
  dsimp only
  split
  · next h => exact iff_of_true rfl h
  · next h => exact iff_of_false Bool.false_ne_true h

/-- The parameters stay, and the time is that of the last call. -/
theorem beforeCall_succ (k : ℕ) :
    b.beforeCall t amount (k + 1) = { b.beforeCall t amount k with
      tokens := b.found t amount k - b.taken t amount k
      lastRefillTime := t k } := by
  have hgrants : b.grants t amount k = true ↔ amount k ≤ b.found t amount k := grants_iff k
  unfold taken
  rw [beforeCall, consume]
  dsimp only
  split
  · next h =>
    rw [if_pos (hgrants.mpr h)]
    rfl
  · next h =>
    rw [if_neg fun hgrant => h (hgrants.mp hgrant), Int.cast_zero, sub_zero]
    rfl

theorem capacity_beforeCall (k : ℕ) : (b.beforeCall t amount k).capacity = b.capacity := by
  induction k with
  | zero => rfl
  | succ k ih => rw [beforeCall_succ, ih]

theorem refillRate_beforeCall (k : ℕ) :
    (b.beforeCall t amount k).refillRate = b.refillRate := by
  induction k with
  | zero => rfl
  | succ k ih => rw [beforeCall_succ, ih]

/-- **What a call leaves** is refilled until the next one. -/
theorem found_succ (k : ℕ) : b.found t amount (k + 1) =
    min b.capacity (b.found t amount k - b.taken t amount k +
      (t (k + 1) - t k) * b.refillRate) := by
  rw [found, beforeCall_succ, refill]
  dsimp only
  rw [capacity_beforeCall, refillRate_beforeCall]

theorem found_le_capacity (k : ℕ) : b.found t amount k ≤ b.capacity := by
  rw [found, refill]
  dsimp only
  rw [capacity_beforeCall]
  exact min_le_left _ _

/-- What is left of the tokens that a call finds. -/
theorem left_nonneg {k : ℕ} (h : 0 ≤ b.found t amount k) :
    0 ≤ b.found t amount k - b.taken t amount k := by
  unfold taken
  split
  · next hgrant => exact sub_nonneg.mpr ((grants_iff k).mp hgrant)
  · rwa [Int.cast_zero, sub_zero]

theorem found_nonneg (hcapacity : 0 ≤ b.capacity) (hrate : 0 ≤ b.refillRate) (ht : Monotone t)
    (hstart : 0 ≤ b.found t amount 0) (k : ℕ) : 0 ≤ b.found t amount k := by
  induction k with
  | zero => exact hstart
  | succ k ih =>
      rw [found_succ]
      have helapsed : 0 ≤ t (k + 1) - t k := sub_nonneg.mpr (ht k.le_succ)
      exact le_min hcapacity (add_nonneg (left_nonneg ih) (mul_nonneg helapsed hrate))

theorem taken_nonneg (hamount : ∀ k, 0 ≤ amount k) (k : ℕ) : 0 ≤ b.taken t amount k := by
  unfold taken
  split
  · exact hamount k
  · exact le_rfl

/-- What was granted and what is left come out of the capacity and the refills. -/
theorem grantedBetween_add_left_le {i j : ℕ} (h : i ≤ j) :
    (b.grantedBetween t amount i j : ℚ) + (b.found t amount j - b.taken t amount j) ≤
      b.capacity + b.refillRate * (t j - t i) := by
  induction j, h using Nat.le_induction with
  | base =>
      rw [grantedBetween, Finset.Icc_self, Finset.sum_singleton, sub_self, mul_zero, add_zero]
      have hfound : b.found t amount i ≤ b.capacity := found_le_capacity i
      linarith
  | succ j h ih =>
      have hfound : b.found t amount (j + 1) ≤ b.found t amount j - b.taken t amount j +
          (t (j + 1) - t j) * b.refillRate := by
        rw [found_succ]
        exact min_le_right _ _
      rw [grantedBetween, Finset.sum_Icc_succ_top (by omega), ← grantedBetween]
      push_cast
      linarith

/-- **What a bucket grants in a window**: at most its capacity and what is refilled meanwhile. -/
theorem grantedBetween_le (hcapacity : 0 ≤ b.capacity) (hrate : 0 ≤ b.refillRate)
    (ht : Monotone t) (hstart : 0 ≤ b.found t amount 0) {i j : ℕ} (h : i ≤ j) :
    (b.grantedBetween t amount i j : ℚ) ≤ b.capacity + b.refillRate * (t j - t i) := by
  have hleft := left_nonneg (found_nonneg hcapacity hrate ht hstart j)
  have hwindow : (b.grantedBetween t amount i j : ℚ) +
      (b.found t amount j - b.taken t amount j) ≤ b.capacity + b.refillRate * (t j - t i) :=
    grantedBetween_add_left_le h
  linarith

end

/-- The time at which the tokens were last refilled before the call number `k`. -/
def refilledAt (start : ℚ) (t : ℕ → ℚ) : ℕ → ℚ
  | 0 => start
  | k + 1 => t k

section

variable {capacity refillRate start : ℚ} {t : ℕ → ℚ} {amount : ℕ → ℤ}

theorem found_construct (k : ℕ) : (construct capacity refillRate start).found t amount k =
    min capacity (((construct capacity refillRate start).beforeCall t amount k).tokens +
      refillRate * (t k - refilledAt start t k)) := by
  have hlast : ((construct capacity refillRate start).beforeCall t amount k).lastRefillTime =
      refilledAt start t k := by
    cases k with
    | zero => rfl
    | succ k => rw [beforeCall_succ, refilledAt]
  rw [found, refill]
  dsimp only
  rw [capacity_beforeCall, refillRate_beforeCall, hlast, mul_comm]
  rfl

theorem found_construct_zero (hrate : 0 ≤ refillRate) (hstart : start ≤ t 0) :
    (construct capacity refillRate start).found t amount 0 = capacity := by
  have helapsed : 0 ≤ refillRate * (t 0 - start) := mul_nonneg hrate (sub_nonneg.mpr hstart)
  rw [found_construct]
  exact min_eq_left (le_add_of_nonneg_right helapsed)

/-- **The token bucket bound**, for calls at times of a clock that does not go back: the tokens
stay between nothing and the capacity, no window of calls is granted more than the capacity and
what it refills, and a call is refused only for more than there can be. -/
theorem bounded_construct (hcapacity : 0 ≤ capacity) (hrate : 0 ≤ refillRate) (ht : Monotone t)
    (hstart : start ≤ t 0) (hamount : ∀ k, 1 ≤ amount k) :
    let b := construct capacity refillRate start
    (∀ k, 0 ≤ (b.beforeCall t amount (k + 1)).tokens ∧
      (b.beforeCall t amount (k + 1)).tokens ≤ capacity) ∧
    (∀ i j, i ≤ j →
      (b.grantedBetween t amount i j : ℚ) ≤ capacity + refillRate * (t j - t i)) ∧
    ∀ k, b.grants t amount k = false →
      min capacity ((b.beforeCall t amount k).tokens + refillRate * (t k - refilledAt start t k)) <
        amount k := by
  intro b
  have hfull : 0 ≤ b.found t amount 0 := (found_construct_zero hrate hstart).symm ▸ hcapacity
  refine ⟨fun k => ?_, fun i j h => ?_, fun k hrefused => ?_⟩
  · have hleft := left_nonneg (found_nonneg hcapacity hrate ht hfull k)
    have htaken : (0 : ℚ) ≤ b.taken t amount k := by
      exact_mod_cast taken_nonneg (fun k => zero_le_one.trans (hamount k)) k
    have hfound : b.found t amount k ≤ capacity := found_le_capacity k
    rw [beforeCall_succ]
    exact ⟨hleft, by linarith⟩
  · exact grantedBetween_le hcapacity hrate ht hfull h
  · have hless : b.found t amount k < amount k := by
      rw [← not_le, ← grants_iff, hrefused]
      exact Bool.false_ne_true
    rwa [← found_construct]

end

/-- Three calls, one of them refused, and one more a second later. -/
theorem bounded_construct_burst :
    let b := construct 2 1 0
    let t : ℕ → ℚ := fun k => if k < 3 then 0 else 1
    (List.range 4).map (b.grants t fun _ => 1) = [true, true, false, true] ∧
    (∀ k, 0 ≤ (b.beforeCall t (fun _ => 1) (k + 1)).tokens ∧
      (b.beforeCall t (fun _ => 1) (k + 1)).tokens ≤ 2) ∧
    (∀ i j, i ≤ j → (b.grantedBetween t (fun _ => 1) i j : ℚ) ≤ 2 + 1 * (t j - t i)) ∧
    ∀ k, b.grants t (fun _ => 1) k = false →
      min 2 ((b.beforeCall t (fun _ => 1) k).tokens + 1 * (t k - refilledAt 0 t k)) <
        (1 : ℤ) := by
  refine ⟨by decide +kernel, bounded_construct (by norm_num) (by norm_num) ?_ le_rfl
    fun _ => le_rfl⟩
  refine monotone_nat_of_le_succ fun k => ?_
  split_ifs with h h'
  · exact le_rfl
  · exact zero_le_one
  · omega
  · exact le_rfl

/-! ## Requests for one token -/

variable (t : ℕ → ℚ)

/-- The bucket before the request number `k`, where each takes a token at its time. -/
def before : ℕ → TokenBucket
  | 0 => b
  | k + 1 => ((before k).consume (t k) 1).2

/-- Whether the request number `k` gets its token. -/
def passes (k : ℕ) : Bool := ((b.before t k).consume (t k) 1).1

/-- The tokens that the request number `k` finds. -/
def level (k : ℕ) : ℚ := ((b.before t k).refill (t k)).tokens

/-- How many of the requests from number `i` to number `j` get a token. -/
def passedBetween (i j : ℕ) : ℕ := ((Finset.Icc i j).filter fun k => b.passes t k = true).card

variable {b t}

theorem before_eq (k : ℕ) : b.before t k = b.beforeCall t (fun _ => 1) k := by
  induction k with
  | zero => rfl
  | succ k ih => rw [before, beforeCall, ih]

theorem passes_eq (k : ℕ) : b.passes t k = b.grants t (fun _ => 1) k := by
  rw [passes, grants, before_eq]

theorem level_eq (k : ℕ) : b.level t k = b.found t (fun _ => 1) k := by
  rw [level, found, before_eq]

theorem passedBetween_eq (i j : ℕ) :
    (b.passedBetween t i j : ℤ) = b.grantedBetween t (fun _ => 1) i j := by
  rw [passedBetween, grantedBetween, Finset.card_filter, Nat.cast_sum]
  refine Finset.sum_congr rfl fun k _ => ?_
  rw [passes_eq, taken, Nat.cast_ite, Nat.cast_one, Nat.cast_zero]

theorem passes_iff (k : ℕ) : b.passes t k = true ↔ 1 ≤ b.level t k := by
  rw [passes_eq, level_eq, grants_iff, Int.cast_one]

theorem level_succ (k : ℕ) : b.level t (k + 1) =
    min b.capacity ((b.level t k - if b.passes t k = true then 1 else 0) +
      (t (k + 1) - t k) * b.refillRate) := by
  rw [level_eq, level_eq, passes_eq, found_succ, taken]
  push_cast
  rfl

theorem level_le_capacity (k : ℕ) : b.level t k ≤ b.capacity := by
  rw [level_eq]
  exact found_le_capacity k

/-- A bucket that starts full. -/
theorem level_construct_zero (capacity refillRate : ℚ) :
    (construct capacity refillRate (t 0)).level t 0 = capacity := by
  change min capacity (capacity + (t 0 - t 0) * refillRate) = capacity
  rw [sub_self, zero_mul, add_zero, min_self]

theorem passedBetween_le (hcapacity : 0 ≤ b.capacity) (hrate : 0 ≤ b.refillRate) (ht : Monotone t)
    (hstart : 0 ≤ b.level t 0) {i j : ℕ} (h : i ≤ j) :
    (b.passedBetween t i j : ℚ) ≤ b.capacity + b.refillRate * (t j - t i) := by
  have hpassed : (b.passedBetween t i j : ℚ) = (b.grantedBetween t (fun _ => 1) i j : ℤ) := by
    exact_mod_cast passedBetween_eq i j
  rw [level_eq] at hstart
  rw [hpassed]
  exact grantedBetween_le hcapacity hrate ht hstart h

/-- A bucket that holds less than a token passes nothing. -/
theorem passedBetween_eq_zero (h : b.capacity < 1) (i j : ℕ) : b.passedBetween t i j = 0 := by
  rw [passedBetween, Finset.card_eq_zero, Finset.filter_eq_empty_iff]
  intro k _ hpass
  linarith [(passes_iff k).mp hpass, level_le_capacity (b := b) (t := t) k]

/-- Requests at one time, for which there are enough tokens. -/
theorem level_of_simultaneous {n : ℕ} (hsame : ∀ k < n, t k = t 0)
    (henough : (n : ℚ) ≤ b.level t 0) : ∀ k < n, b.level t k = b.level t 0 - k := by
  intro k hk
  induction k with
  | zero => rw [Nat.cast_zero, sub_zero]
  | succ k ih =>
      have hlevel := ih (by omega)
      have hk' : (k : ℚ) + 1 < n := by exact_mod_cast hk
      have hpass := (passes_iff k).mpr (by rw [hlevel]; linarith)
      have hnow : t (k + 1) - t k = 0 := by
        rw [hsame (k + 1) hk, hsame k (by omega), sub_self]
      have hcapacity := level_le_capacity (b := b) (t := t) 0
      rw [level_succ, if_pos hpass, hlevel, hnow, zero_mul, add_zero,
        min_eq_right (by linarith)]
      push_cast
      ring

/-- Requests that come whenever a token has been refilled. -/
theorem level_of_steady (hcapacity : 1 ≤ b.capacity) (hstart : b.level t 0 = b.capacity)
    (hrefill : ∀ k, (t (k + 1) - t k) * b.refillRate = 1) (k : ℕ) :
    b.level t k = b.capacity := by
  induction k with
  | zero => exact hstart
  | succ k ih =>
      have hpass := (passes_iff k).mpr (ih.symm ▸ hcapacity)
      rw [level_succ, if_pos hpass, ih, hrefill, sub_add_cancel, min_self]

/-- Requests that all get a token. -/
theorem passedBetween_zero_of_forall {n : ℕ} (h : ∀ k ≤ n, b.passes t k = true) :
    b.passedBetween t 0 n = n + 1 := by
  rw [passedBetween, Finset.filter_true_of_mem fun k hk => h k (Finset.mem_Icc.mp hk).2,
    Nat.card_Icc]
  rfl

end TokenBucket

end GinCpp.Utils
