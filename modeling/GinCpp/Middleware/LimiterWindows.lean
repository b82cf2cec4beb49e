import GinCpp.Middleware.LimiterLocks

/-!
# Rate limits in traffic

However the threads take turns, each limiter sees its requests one after another.  What it passes
on and what is left in its bucket come out of what was there and what was refilled, so in any span
of time of any run it passes on as many requests as its bucket holds and is refilled with, at most
(`passedIn_le`).
-/

namespace GinCpp.Middleware

open Locks Transition System Utils

/-! ## One limiter -/

namespace RateLimiter

/-- The tokens that a request would find. -/
def levelAt (limiter : RateLimiter) (now : ℚ) : ℚ := ((limiter.bucket now).refill now).tokens

/-- A limiter that has been in use until now. -/
structure UsedUntil (limiter : RateLimiter) (now : ℚ) : Prop where
  rate_nonneg : 0 ≤ limiter.tokensPerSecond
  buckets : ∀ b ∈ limiter.clients ip, b.capacity = limiter.tokensPerSecond ∧
    b.refillRate = limiter.burstSize ∧ b.lastRefillTime ≤ now ∧ 0 ≤ b.tokens

variable {limiter : RateLimiter} {now later : ℚ}

theorem usedUntil_construct {r : ℚ} {n : ℕ} (hr : 0 ≤ r) : (construct r n).UsedUntil now :=
  ⟨hr, nofun⟩

theorem UsedUntil.mono (h : limiter.UsedUntil now) (hle : now ≤ later) :
    limiter.UsedUntil later := by
  refine ⟨h.rate_nonneg, fun b hb => ?_⟩
  obtain ⟨hcapacity, hrate, hlast, htokens⟩ := h.buckets b hb
  exact ⟨hcapacity, hrate, hlast.trans hle, htokens⟩

/-- The bucket that a request finds, and its tokens. -/
theorem UsedUntil.bucket_cases (h : limiter.UsedUntil now) :
    (limiter.bucket now).capacity = limiter.tokensPerSecond ∧
      (limiter.bucket now).refillRate = limiter.burstSize ∧
      (limiter.bucket now).lastRefillTime ≤ now ∧ 0 ≤ (limiter.bucket now).tokens := by
  unfold RateLimiter.bucket
  cases hbucket : limiter.clients ip with
  | none => exact ⟨rfl, rfl, le_rfl, h.rate_nonneg⟩
  | some b => exact h.buckets b hbucket

theorem UsedUntil.levelAt_eq (h : limiter.UsedUntil now) :
    limiter.levelAt now = min limiter.tokensPerSecond ((limiter.bucket now).tokens +
      (now - (limiter.bucket now).lastRefillTime) * limiter.burstSize) := by
  obtain ⟨hcapacity, hrate, -⟩ := h.bucket_cases
  rw [levelAt, TokenBucket.refill, hcapacity, hrate]

theorem UsedUntil.levelAt_le (h : limiter.UsedUntil now) :
    limiter.levelAt now ≤ limiter.tokensPerSecond := by
  rw [h.levelAt_eq]
  exact min_le_left _ _

theorem UsedUntil.levelAt_nonneg (h : limiter.UsedUntil now) : 0 ≤ limiter.levelAt now := by
  obtain ⟨-, -, hlast, htokens⟩ := h.bucket_cases
  rw [h.levelAt_eq]
  have hrefill : 0 ≤ (now - (limiter.bucket now).lastRefillTime) * limiter.burstSize :=
    mul_nonneg (sub_nonneg.mpr hlast) limiter.burstSize.cast_nonneg
  exact le_min h.rate_nonneg (add_nonneg htokens hrefill)

/-- What is refilled in the meantime. -/
theorem UsedUntil.levelAt_later (h : limiter.UsedUntil now) (hle : now ≤ later) :
    limiter.levelAt later ≤ limiter.levelAt now + limiter.burstSize * (later - now) := by
  have hrefill : 0 ≤ (limiter.burstSize : ℚ) * (later - now) :=
    mul_nonneg limiter.burstSize.cast_nonneg (sub_nonneg.mpr hle)
  rw [(h.mono hle).levelAt_eq, h.levelAt_eq, ← min_add_add_right]
  refine min_le_min (le_add_of_nonneg_right hrefill) ?_
  unfold RateLimiter.bucket
  cases limiter.clients ip with
  | none =>
      change limiter.tokensPerSecond + (later - later) * limiter.burstSize ≤
        limiter.tokensPerSecond + (now - now) * limiter.burstSize + _
      rw [sub_self, sub_self, zero_mul, add_zero]
      exact le_add_of_nonneg_right hrefill
  | some b =>
      rw [Option.getD_some, Option.getD_some]
      apply le_of_eq
      ring

/-- A bucket that has just been refilled, in the place of the old one. -/
theorem UsedUntil.replace (h : limiter.UsedUntil now) {b : TokenBucket}
    (hcapacity : b.capacity = limiter.tokensPerSecond) (hrate : b.refillRate = limiter.burstSize)
    (hlast : b.lastRefillTime = now) (hnonneg : 0 ≤ b.tokens)
    (hle : b.tokens ≤ limiter.tokensPerSecond) :
    let replaced := { limiter with clients := Function.update limiter.clients ip (some b) }
    replaced.UsedUntil now ∧ replaced.levelAt now = b.tokens := by
  intro replaced
  have hclients : replaced.clients ip = some b :=
    Function.update_self ip (some b) limiter.clients
  have hused : replaced.UsedUntil now := by
    refine ⟨h.rate_nonneg, fun b' hb' => ?_⟩
    obtain rfl := Option.some_inj.mp (hclients.symm.trans hb')
    exact ⟨hcapacity, hrate, hlast.le, hnonneg⟩
  refine ⟨hused, ?_⟩
  rw [hused.levelAt_eq, RateLimiter.bucket, hclients, Option.getD_some, hlast, sub_self, zero_mul,
    add_zero]
  exact min_eq_right hle

/-- A request that is passed on takes a token. -/
theorem UsedUntil.consume (h : limiter.UsedUntil now) :
    (limiter.consume now).2.UsedUntil now ∧
      (if (limiter.consume now).1 then 1 else 0) + (limiter.consume now).2.levelAt now =
        limiter.levelAt now := by
  obtain ⟨hcapacity, hrate, -⟩ := h.bucket_cases
  unfold RateLimiter.consume TokenBucket.consume
  dsimp only
  split
  · next htoken =>
    have htoken : 1 ≤ limiter.levelAt now := by exact_mod_cast htoken
    have hnonneg : 0 ≤ limiter.levelAt now - (1 : ℤ) := by
      push_cast
      exact sub_nonneg.mpr htoken
    have hle : limiter.levelAt now - (1 : ℤ) ≤ limiter.tokensPerSecond := by
      push_cast
      exact (sub_le_self _ zero_le_one).trans h.levelAt_le
    obtain ⟨hused, hlevel⟩ := h.replace
      (b := { (limiter.bucket now).refill now with tokens := limiter.levelAt now - (1 : ℤ) })
      hcapacity hrate rfl hnonneg hle
    refine ⟨hused, ?_⟩
    rw [if_pos rfl]
    refine (congrArg (1 + ·) hlevel).trans ?_
    push_cast
    ring
  · obtain ⟨hused, hlevel⟩ := h.replace (b := (limiter.bucket now).refill now) hcapacity hrate rfl
      h.levelAt_nonneg h.levelAt_le
    refine ⟨hused, ?_⟩
    rw [if_neg Bool.false_ne_true, zero_add]
    exact hlevel

end RateLimiter

/-! ## Limiters in traffic -/

variable {ι L E : Type}

/-- Whether a limiter passes a request on in a step. -/
def passesIn [DecidableEq L] (plan : ι → List L) (l : L) (s : Traffic ι L E) :
    TrafficStep ι → Bool
  | .consume i now => limiterOf plan s.phases i = some l ∧ ((s.limiters l).consume now).1 = true
  | .lock _ | .application _ | .unlock _ => false

variable [DecidableEq ι] [DecidableEq L]

/-- How many requests a limiter passes on in some steps. -/
def passedIn (plan : ι → List L) (app : ι → Exchange E → Exchange E) (l : L) :
    Traffic ι L E → List (TrafficStep ι) → ℕ
  | _, [] => 0
  | s, action :: steps => (passesIn plan l s action).toNat +
      passedIn plan app l ((traffic plan app).step s action) steps

section

variable {plan : ι → List L} {app : ι → Exchange E → Exchange E} {s : Traffic ι L E}
  {action : TrafficStep ι} {steps : List (TrafficStep ι)} {l : L} {t t' : ℚ}

/-- A step is a call of the limiter, or does not concern it. -/
theorem limiters_step (plan : ι → List L) (app : ι → Exchange E → Exchange E)
    (s : Traffic ι L E) (action : TrafficStep ι) (l : L) :
    (∃ now, action.time? = some now ∧
        ((traffic plan app).step s action).limiters l = ((s.limiters l).consume now).2 ∧
        passesIn plan l s action = ((s.limiters l).consume now).1) ∨
      (((traffic plan app).step s action).limiters l = s.limiters l ∧
        passesIn plan l s action = false) := by
  cases action with
  | lock i => exact .inr ⟨rfl, rfl⟩
  | application i => exact .inr ⟨rfl, rfl⟩
  | unlock i => exact .inr ⟨rfl, rfl⟩
  | consume i now =>
      cases hlimiter : limiterOf plan s.phases i with
      | none =>
          refine .inr ⟨?_, ?_⟩
          · simp only [traffic, hlimiter]
          · simp [passesIn, hlimiter]
      | some l' =>
          rw [step_consume hlimiter]
          rcases eq_or_ne l l' with rfl | hne
          · refine .inl ⟨now, rfl, Function.update_self .., ?_⟩
            simp [passesIn, hlimiter]
          · refine .inr ⟨Function.update_of_ne hne .., ?_⟩
            simp [passesIn, hlimiter, hne.symm]

variable (plan app s steps l) in
theorem parameters_run :
    (((traffic plan app).run s steps).limiters l).tokensPerSecond =
        (s.limiters l).tokensPerSecond ∧
      (((traffic plan app).run s steps).limiters l).burstSize = (s.limiters l).burstSize := by
  induction steps generalizing s with
  | nil => exact ⟨rfl, rfl⟩
  | cons action steps ih =>
      obtain ⟨htokens, hsize⟩ := ih ((traffic plan app).step s action)
      rw [run_cons, htokens, hsize]
      rcases limiters_step plan app s action l with ⟨now, -, hlimiter, -⟩ | ⟨hsame, -⟩
      · rw [hlimiter]
        exact ⟨rfl, rfl⟩
      · rw [hsame]
        exact ⟨rfl, rfl⟩

variable (plan app) in
/-- What a limiter passes on and what it is left with come out of what it had and the refills. -/
theorem passedIn_add_levelAt_le (h : (s.limiters l).UsedUntil t)
    (hclock : (steps.filterMap TrafficStep.time?).Pairwise (· ≤ ·))
    (hspan : ∀ now ∈ steps.filterMap TrafficStep.time?, t ≤ now ∧ now ≤ t') (hle : t ≤ t') :
    (((traffic plan app).run s steps).limiters l).UsedUntil t' ∧
      (passedIn plan app l s steps : ℚ) + (((traffic plan app).run s steps).limiters l).levelAt t' ≤
        (s.limiters l).levelAt t + (s.limiters l).burstSize * (t' - t) := by
  induction steps generalizing s t with
  | nil =>
      refine ⟨h.mono hle, ?_⟩
      rw [passedIn, Nat.cast_zero, zero_add]
      exact h.levelAt_later hle
  | cons action steps ih =>
      rw [run_cons, passedIn]
      rcases limiters_step plan app s action l with
        ⟨now, htime, hlimiter, hpasses⟩ | ⟨hsame, hpasses⟩
      · rw [List.filterMap_cons, htime] at hclock hspan
        obtain ⟨hfirst, hrest⟩ := List.pairwise_cons.mp hclock
        obtain ⟨⟨hnow, hnow'⟩, hspan⟩ := List.forall_mem_cons.mp hspan
        obtain ⟨hused, htoken⟩ := (h.mono hnow).consume
        obtain ⟨hend, hbound⟩ := ih (hlimiter ▸ hused) hrest
          (fun later hlater => ⟨hfirst later hlater, (hspan later hlater).2⟩) hnow'
        refine ⟨hend, ?_⟩
        have hrefilled := h.levelAt_later hnow
        have hsize : ((s.limiters l).consume now).2.burstSize = (s.limiters l).burstSize := rfl
        rw [hlimiter, hsize] at hbound
        rw [hpasses]
        cases hpassed : ((s.limiters l).consume now).1 with
        | true =>
            rw [if_pos hpassed] at htoken
            rw [Bool.toNat_true]
            push_cast
            linarith
        | false =>
            rw [if_neg (Bool.eq_false_iff.mp hpassed)] at htoken
            rw [Bool.toNat_false]
            push_cast
            linarith
      · have hrest : (steps.filterMap TrafficStep.time?).Sublist
            ((action :: steps).filterMap TrafficStep.time?) :=
          (List.sublist_cons_self action steps).filterMap _
        obtain ⟨hend, hbound⟩ := ih (hsame ▸ h) (hclock.sublist hrest)
          (fun now hnow => hspan now (hrest.subset hnow)) hle
        refine ⟨hend, ?_⟩
        rw [hsame] at hbound
        rw [hpasses, Bool.toNat_false, zero_add]
        exact hbound

variable (plan app) in
/-- **The limit in traffic**: in every span of time, however the threads take turns. -/
theorem passedIn_le {r : L → ℚ} {n : L → ℕ} {exchanges : ι → Exchange E} {phases : ι → LockPhase}
    (before during : List (TrafficStep ι)) (hr : ∀ l, 0 ≤ r l)
    (hclock : ((before ++ during).filterMap TrafficStep.time?).Pairwise (· ≤ ·))
    (hbefore : ∀ now ∈ before.filterMap TrafficStep.time?, now ≤ t)
    (hduring : ∀ now ∈ during.filterMap TrafficStep.time?, t ≤ now ∧ now ≤ t') (hle : t ≤ t')
    (l : L) :
    (passedIn plan app l
        ((traffic plan app).run ⟨fun l => .construct (r l) (n l), exchanges, phases⟩ before)
        during : ℚ) ≤ r l + n l * (t' - t) := by
  let fresh : Traffic ι L E := ⟨fun l => .construct (r l) (n l), exchanges, phases⟩
  rw [List.filterMap_append, List.pairwise_append] at hclock
  obtain ⟨hclock, hclock', -⟩ := hclock
  -- a time before all steps
  let times := t :: before.filterMap TrafficStep.time?
  have hnonempty : times.toFinset.Nonempty := ⟨t, List.mem_toFinset.mpr List.mem_cons_self⟩
  let earliest := times.toFinset.min' hnonempty
  have hearliest : ∀ now ∈ times, earliest ≤ now :=
    fun now hnow => times.toFinset.min'_le now (List.mem_toFinset.mpr hnow)
  have hused : (fresh.limiters l).UsedUntil earliest := RateLimiter.usedUntil_construct (hr l)
  obtain ⟨hbegun, -⟩ := passedIn_add_levelAt_le plan app hused hclock
    (fun now hnow => ⟨hearliest now (List.mem_cons_of_mem t hnow), hbefore now hnow⟩)
    (hearliest t List.mem_cons_self)
  obtain ⟨hended, hbound⟩ := passedIn_add_levelAt_le plan app hbegun hclock' hduring hle
  obtain ⟨htokens, hsize⟩ := parameters_run plan app fresh before l
  have hlevel := hbegun.levelAt_le
  have hleft := hended.levelAt_nonneg
  rw [htokens] at hlevel
  rw [hsize] at hbound
  change _ ≤ r l at hlevel
  change _ ≤ _ + n l * (t' - t) at hbound
  linarith

/-- Two requests in half a second: five tokens, and one more in every second. -/
theorem passedIn_le_two :
    (passedIn (fun _ => [true]) (fun _ => id) true
        ((traffic (fun _ => [true]) fun _ => id).run twoRequests [.lock true])
        [.consume true 0, .unlock true, .lock false, .consume false (1 / 2)] : ℚ) ≤
      5 + (1 : ℕ) * (1 / 2 - 0) := by
  have hclock : ([0, 1 / 2] : List ℚ).Pairwise (· ≤ ·) := by norm_num
  have hduring : ∀ now ∈ ([0, 1 / 2] : List ℚ), 0 ≤ now ∧ now ≤ 1 / 2 := by norm_num
  exact passedIn_le (fun _ => [true]) (fun _ => id) (r := fun _ => 5) (n := fun _ => 1)
    [.lock true] [.consume true 0, .unlock true, .lock false, .consume false (1 / 2)]
    (fun _ => by norm_num) hclock nofun hduring (by norm_num) true

end

end GinCpp.Middleware
