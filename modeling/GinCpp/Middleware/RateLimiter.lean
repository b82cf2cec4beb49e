import GinCpp.Middleware.ErrorHandler
import GinCpp.Utils.TokenBucket
import Mathlib.Algebra.Order.Archimedean.Basic
import Mathlib.Tactic.FieldSimp

/-!
# The rate limiter

`middleware/rate_limiter.cpp`.  All requests are counted for one client.  `TokenBucket` takes its
capacity first and its refill rate second, and is given the tokens per second and the size of a
burst in this order: `tokens_per_second` requests pass at once and `burst_size` more in every
second.  The limit that the two are meant to set is kept if and only if they are equal or nothing
passes at all (`withinRate_iff`).
-/

namespace GinCpp.Middleware

open Callback Http Utils

/-- `middleware::RateLimiter`. -/
structure RateLimiter where
  tokensPerSecond : ℚ
  burstSize : ℕ
  clients : Str → Option TokenBucket := fun _ => none

namespace RateLimiter

/-- The address that every request is counted for. -/
def ip : Str := ascii "127.0.0.1"

def tooManyRequests {E : Type} (s : Exchange E) : Exchange E :=
  { s with response := { s.response with
      status := .serviceUnavailable, content := ascii "Too many requests" } }

variable (limiter : RateLimiter)

/-- The bucket of the client, which is made for its first request. -/
def bucket (now : ℚ) : TokenBucket :=
  (limiter.clients ip).getD (.construct limiter.tokensPerSecond limiter.burstSize now)

/-- Whether a request is passed on, and the limiter after it. -/
def consume (now : ℚ) : Bool × RateLimiter :=
  let (passed, bucket) := (limiter.bucket now).consume now 1
  (passed, { limiter with clients := Function.update limiter.clients ip (some bucket) })

/-- `RateLimiter::operator()` at a time.  The limiter is done before the exchange is touched. -/
def handle {E : Type} (now : ℚ) : RateLimiter × Program (Exchange E) Exception :=
  let (passed, limiter) := limiter.consume now
  (limiter, if passed then .passOn else .act tooManyRequests fun _ => .ret)

/-! ## A sequence of requests -/

variable (t : ℕ → ℚ)

/-- The limiter before the request number `k`. -/
def before : ℕ → RateLimiter
  | 0 => limiter
  | k + 1 => ((before k).consume (t k)).2

/-- Whether the request number `k` is passed on to `next`. -/
def passesOn (k : ℕ) : Bool := ((limiter.before t k).consume (t k)).1

/-- How many of the requests from number `i` to number `j` are passed on. -/
def passedBetween (i j : ℕ) : ℕ :=
  ((Finset.Icc i j).filter fun k => limiter.passesOn t k = true).card

/-- **The limit**: in every window a burst and what the rate allows. -/
def WithinRate : Prop :=
  ∀ t : ℕ → ℚ, Monotone t → ∀ i j, i ≤ j →
    (limiter.passedBetween t i j : ℚ) ≤ limiter.burstSize + limiter.tokensPerSecond * (t j - t i)

variable {limiter t}

/-- `next` is called for the requests that are passed on, and for no other. -/
theorem arguments_handle {κ E : Type} (next : Callee κ (Exchange E) Exception) (k : ℕ) (c : κ)
    (s : Exchange E) :
    (((limiter.before t k).handle (t k)).2.arguments next c s = [(c, s)] ∧
        limiter.passesOn t k = true) ∨
      (((limiter.before t k).handle (t k)).2.arguments next c s = [] ∧
        limiter.passesOn t k = false ∧
        (((limiter.before t k).handle (t k)).2.run next c s).state = tooManyRequests s) := by
  unfold handle passesOn
  dsimp only
  cases ((limiter.before t k).consume (t k)).1 with
  | true =>
      refine .inl ⟨?_, rfl⟩
      rw [if_pos rfl, Program.passOn, Program.arguments]
      cases (next c s).2.2 <;> rfl
  | false => exact .inr ⟨rfl, rfl, rfl⟩

/-! ## The bucket of the limiter -/

variable {r : ℚ} {n : ℕ}

/-- A new limiter. -/
abbrev construct (tokensPerSecond : ℚ) (burstSize : ℕ) : RateLimiter :=
  { tokensPerSecond := tokensPerSecond, burstSize := burstSize }

/-- The bucket is one that holds `tokens_per_second` tokens and is refilled at the rate
`burst_size`. -/
theorem bucket_before (k : ℕ) : ((construct r n).before t k).bucket (t k) =
    (TokenBucket.construct r n (t 0)).before t k := by
  induction k with
  | zero => rfl
  | succ k ih =>
      rw [TokenBucket.before, ← ih, before, consume, bucket]
      dsimp only
      rw [Function.update_self, Option.getD_some]

theorem passesOn_construct (k : ℕ) :
    (construct r n).passesOn t k = (TokenBucket.construct r n (t 0)).passes t k := by
  unfold passesOn consume TokenBucket.passes
  rw [bucket_before]

theorem passedBetween_construct (i j : ℕ) : (construct r n).passedBetween t i j =
    (TokenBucket.construct r n (t 0)).passedBetween t i j := by
  unfold passedBetween TokenBucket.passedBetween
  simp only [passesOn_construct]

/-! ## Within the limit -/

/-- **What a limiter passes in a window**: the two parameters in each other's place. -/
theorem passedBetween_le (hr : 0 ≤ r) (ht : Monotone t) {i j : ℕ} (h : i ≤ j) :
    ((construct r n).passedBetween t i j : ℚ) ≤ r + n * (t j - t i) := by
  have hstart : (TokenBucket.construct r n (t 0)).level t 0 = r :=
    TokenBucket.level_construct_zero r n
  rw [passedBetween_construct]
  exact TokenBucket.passedBetween_le hr n.cast_nonneg ht (hstart.symm ▸ hr) h

theorem withinRate_of_lt_one (hr : 0 ≤ r) (h : r < 1) : (construct r n).WithinRate := by
  intro t ht i j hij
  have hrefill : 0 ≤ r * (t j - t i) := mul_nonneg hr (sub_nonneg.mpr (ht hij))
  rw [passedBetween_construct, TokenBucket.passedBetween_eq_zero h, Nat.cast_zero]
  exact add_nonneg n.cast_nonneg hrefill

/-! ## Beyond the limit -/

/-- `n` requests at once, and the others after a wait. -/
def burst (n : ℕ) (wait : ℚ) : ℕ → ℚ := fun k => if k < n then 0 else wait

/-- `n` requests in every second. -/
def steady (n : ℕ) : ℕ → ℚ := fun k => k / n

theorem monotone_burst {wait : ℚ} (hwait : 0 ≤ wait) : Monotone (burst n wait) := by
  intro i j hij
  unfold burst
  split_ifs
  · exact le_rfl
  · exact hwait
  · omega
  · exact le_rfl

/-- A burst of which every request is passed on, and one request more. -/
theorem passes_burst {wait : ℚ} (hlt : n < r) (hr : 1 ≤ r) (htoken : 1 ≤ r - n + wait * n) :
    ∀ k ≤ n, (TokenBucket.construct r n (burst n wait 0)).passes (burst n wait) k = true := by
  let bucket := TokenBucket.construct r n (burst n wait 0)
  have hstart : bucket.level (burst n wait) 0 = r := TokenBucket.level_construct_zero r n
  have hsame : ∀ k < n, burst n wait k = 0 := fun k hk => if_pos hk
  have hlevel : ∀ k < n, bucket.level (burst n wait) k = r - k := by
    intro k hk
    rw [TokenBucket.level_of_simultaneous (n := n) (fun k hk => ?_) (by rw [hstart]; exact hlt.le)
      k hk, hstart]
    rw [hsame k hk, hsame 0 (by omega)]
  intro k hk
  rw [TokenBucket.passes_iff]
  rcases hk.lt_or_eq with hk | rfl
  · have hk' : (k : ℚ) + 1 ≤ n := by exact_mod_cast hk
    rw [hlevel k hk]
    linarith
  · cases k with
    | zero => rwa [hstart]
    | succ m =>
        push_cast at hlt htoken
        have hpass := (TokenBucket.passes_iff (b := bucket) (t := burst (m + 1) wait) m).mpr
          (by rw [hlevel m m.lt_succ_self]; linarith)
        have hwaited : burst (m + 1) wait (m + 1) - burst (m + 1) wait m = wait := by
          rw [hsame m m.lt_succ_self, sub_zero]
          exact if_neg (lt_irrefl _)
        rw [TokenBucket.level_succ, if_pos hpass, hlevel m m.lt_succ_self, hwaited]
        refine le_min hr ?_
        change 1 ≤ r - m - 1 + wait * (m + 1 : ℕ)
        push_cast
        linarith

/-- More tokens than `burst_size`: a burst passes, and one request more as soon as there is a token
for it. -/
theorem not_withinRate_of_burst (wait : ℚ) (hlt : n < r) (hr : 1 ≤ r) (hwait : 0 ≤ wait)
    (htoken : 1 ≤ r - n + wait * n) (hshort : r * wait < 1) : ¬ (construct r n).WithinRate := by
  intro h
  have hbound := h (burst n wait) (monotone_burst hwait) 0 n n.zero_le
  rw [passedBetween_construct,
    TokenBucket.passedBetween_zero_of_forall (passes_burst hlt hr htoken)] at hbound
  have hmeanwhile : burst n wait n - burst n wait 0 ≤ wait := by
    unfold burst
    rw [if_neg (lt_irrefl n)]
    split_ifs
    · rw [sub_zero]
    · rwa [sub_self]
  have hrefill := mul_le_mul_of_nonneg_left hmeanwhile (zero_le_one.trans hr)
  push_cast at hbound
  change (n : ℚ) + 1 ≤ n + r * (burst n wait n - burst n wait 0) at hbound
  linarith

/-- A larger `burst_size`: requests that come as fast as the bucket is refilled all pass. -/
theorem not_withinRate_of_steady (hr : 1 ≤ r) (hlt : r < n) : ¬ (construct r n).WithinRate := by
  intro h
  have hn : (0 : ℚ) < n := by linarith
  have ht : Monotone (steady n) := fun i j hij =>
    div_le_div_of_nonneg_right (Nat.cast_le.mpr hij) hn.le
  have hrefill : ∀ k, (steady n (k + 1) - steady n k) * n = 1 := by
    intro k
    unfold steady
    push_cast
    field_simp
    ring
  obtain ⟨m, hm⟩ := exists_nat_gt ((n : ℚ) * n / (n - r))
  have hall : ∀ k ≤ m,
      (TokenBucket.construct r n (steady n 0)).passes (steady n) k = true := by
    intro k _
    rw [TokenBucket.passes_iff, TokenBucket.level_of_steady hr
      (TokenBucket.level_construct_zero r n) hrefill]
    exact hr
  have hbound := h (steady n) ht 0 m m.zero_le
  rw [passedBetween_construct, TokenBucket.passedBetween_zero_of_forall hall] at hbound
  have hmeanwhile : r * (steady n m - steady n 0) * n = r * m := by
    unfold steady
    push_cast
    field_simp
    ring
  push_cast at hbound
  change (m : ℚ) + 1 ≤ n + r * (steady n m - steady n 0) at hbound
  have hscaled := mul_le_mul_of_nonneg_right hbound hn.le
  rw [add_mul (n : ℚ), hmeanwhile] at hscaled
  rw [div_lt_iff₀ (by linarith)] at hm
  linarith

end RateLimiter

open RateLimiter

/-- **When the limit is kept**: for equal parameters, and where nothing passes at all. -/
theorem withinRate_iff (tokensPerSecond : ℚ) (burstSize : ℕ) (h : 0 ≤ tokensPerSecond) :
    (construct tokensPerSecond burstSize).WithinRate ↔
      tokensPerSecond < 1 ∨ tokensPerSecond = burstSize := by
  constructor
  · intro hwithin
    by_contra hne
    obtain ⟨hone, hne⟩ := not_or.mp hne
    have hone := not_lt.mp hone
    rcases lt_or_gt_of_ne hne with hlt | hgt
    · exact not_withinRate_of_steady hone hlt hwithin
    · by_cases hmore : (burstSize : ℚ) + 1 ≤ tokensPerSecond
      · refine not_withinRate_of_burst 0 hgt hone le_rfl ?_ ?_ hwithin
        · linarith
        · rw [mul_zero]
          exact zero_lt_one
      · have hmore := not_le.mp hmore
        have hpos : (0 : ℚ) < burstSize := by
          rcases Nat.eq_zero_or_pos burstSize with rfl | hpos
          · push_cast at hmore
            linarith
          · exact_mod_cast hpos
        have hburst : (1 : ℚ) ≤ burstSize := by exact_mod_cast hpos
        refine not_withinRate_of_burst ((1 - (tokensPerSecond - burstSize)) / burstSize)
          hgt hone ?_ ?_ ?_ hwithin
        · exact div_nonneg (by linarith) hpos.le
        · rw [div_mul_cancel₀ _ hpos.ne']
          linarith
        · rw [← mul_div_assoc, div_lt_one₀ hpos]
          nlinarith
  · rintro (hlt | heq)
    · exact withinRate_of_lt_one h hlt
    · intro t ht i j hij
      have hbound := passedBetween_le (n := burstSize) h ht hij
      rw [heq] at hbound ⊢
      exact hbound

theorem withinRate_iff_two_one : (construct 2 1).WithinRate ↔ (2 : ℚ) < 1 ∨ (2 : ℚ) = (1 : ℕ) :=
  withinRate_iff 2 1 zero_le_two

/-- Two requests at one time, with bursts of one. -/
theorem not_withinRate_two_one :
    (construct 2 1).passedBetween (fun _ => 0) 0 1 = 2 ∧ ¬ (construct 2 1).WithinRate := by
  have hpassed : (construct 2 1).passedBetween (fun _ => 0) 0 1 = 2 := by decide +kernel
  refine ⟨hpassed, fun h => ?_⟩
  have hbound := h (fun _ => 0) monotone_const 0 1 zero_le_one
  rw [hpassed, sub_self, mul_zero, add_zero] at hbound
  exact absurd hbound (by decide +kernel)

end GinCpp.Middleware
