import GinCpp.Core.BufferPool

/-!
# The memory limit

`acquire` compares the memory that one more buffer would need with the limit.  It does so only when
the pool is empty, so that the buffers of the constructor are never compared, and the product may
wrap.  `withinLimit_iff` says for which parameters neither matters.
-/

namespace GinCpp.Core

open Transition System

namespace Shop

variable {C : Type}

/-- **The memory limit is kept**: the memory that the counter stands for is within it. -/
def WithinLimit (w : Shop C) : Prop :=
  w.pool.totalAllocated.toNat * w.pool.bufferSize.toNat ≤ w.pool.maxMemory.toNat

instance (w : Shop C) : Decidable w.WithinLimit :=
  inferInstanceAs (Decidable (_ ≤ _))

end Shop

/-- A call that leaves the limit as it is. -/
def PoolCall.KeepsLimit {C : Type} : PoolCall C → Prop
  | .acquire _ _ | .release _ _ => True
  | .setMaxMemoryLimit _ => False

/-- The buffers of the constructor are within the limit, and the first product that is not does
not wrap. -/
def LimitFits (bufferSize poolSize maxMemory : UInt64) : Prop :=
  poolSize.toNat * bufferSize.toNat ≤ maxMemory.toNat ∧
    (bufferSize.toNat ≤ 1 ∨
      (maxMemory.toNat / bufferSize.toNat + 1) * bufferSize.toNat < 2 ^ 64)

instance (bufferSize poolSize maxMemory : UInt64) :
    Decidable (LimitFits bufferSize poolSize maxMemory) :=
  inferInstanceAs (Decidable (_ ∧ _))

open Shop

/-! ## Within the limit -/

/-- What the check of `acquire` is worth. -/
theorem within_of_not_atLimit {p : BufferPool} (hlimit : 0 < p.maxMemory) (hnot : ¬ p.AtLimit)
    (hwithin : p.totalAllocated.toNat * p.bufferSize.toNat ≤ p.maxMemory.toNat)
    (hfits : p.bufferSize.toNat ≤ 1 ∨
      (p.maxMemory.toNat / p.bufferSize.toNat + 1) * p.bufferSize.toNat < 2 ^ 64) :
    (p.totalAllocated + 1).toNat * p.bufferSize.toNat ≤ p.maxMemory.toNat := by
  have hcheck : (p.totalAllocated + 1).toNat * p.bufferSize.toNat % 2 ^ 64 ≤ p.maxMemory.toNat := by
    by_contra hexceeds
    refine hnot ⟨hlimit, ?_⟩
    rw [UInt64.lt_iff_toNat_lt, UInt64.toNat_mul]
    omega
  have hlt := (p.totalAllocated + 1).toNat_lt
  have hsmall : (p.totalAllocated + 1).toNat * p.bufferSize.toNat < 2 ^ 64 := by
    rcases hfits with hone | hnowrap
    · calc (p.totalAllocated + 1).toNat * p.bufferSize.toNat
          ≤ (p.totalAllocated + 1).toNat * 1 := Nat.mul_le_mul_left _ hone
        _ < 2 ^ 64 := by omega
    · rcases p.bufferSize.toNat.eq_zero_or_pos with hzero | hpos
      · rw [hzero, Nat.mul_zero]
        omega
      · have hcount : p.totalAllocated.toNat ≤ p.maxMemory.toNat / p.bufferSize.toNat :=
          (Nat.le_div_iff_mul_le hpos).mpr hwithin
        have hmod : (p.totalAllocated + 1).toNat ≤ p.totalAllocated.toNat + 1 := by
          rw [UInt64.toNat_add]
          exact Nat.mod_le _ _
        calc (p.totalAllocated + 1).toNat * p.bufferSize.toNat
            ≤ (p.maxMemory.toNat / p.bufferSize.toNat + 1) * p.bufferSize.toNat :=
              Nat.mul_le_mul_right _ (by omega)
          _ < 2 ^ 64 := hnowrap
  rwa [Nat.mod_eq_of_lt hsmall] at hcheck

/-- The parameters, and the limit kept. -/
structure Kept {C : Type} (bufferSize maxMemory : UInt64) (w : Shop C) : Prop where
  bufferSize : w.pool.bufferSize = bufferSize
  maxMemory : w.pool.maxMemory = maxMemory
  within : w.WithinLimit

/-- A call keeps the limit if the products do not wrap. -/
theorem Kept.step {C : Type} [DecidableEq C] {bufferSize maxMemory : UInt64} {w : Shop C}
    (h : Kept bufferSize maxMemory w) (hlimit : 0 < maxMemory)
    (hfits : bufferSize.toNat ≤ 1 ∨
      (maxMemory.toNat / bufferSize.toNat + 1) * bufferSize.toNat < 2 ^ 64)
    {call : PoolCall C} (hkeeps : call.KeepsLimit) :
    Kept bufferSize maxMemory (w.step call) := by
  obtain ⟨rfl, rfl, hwithin⟩ := h
  have hgrown : ¬ w.pool.AtLimit →
      (w.pool.totalAllocated + 1).toNat * w.pool.bufferSize.toNat ≤ w.pool.maxMemory.toNat :=
    fun hnot => within_of_not_atLimit hlimit hnot hwithin hfits
  cases call with
  | acquire client allocated =>
      unfold Shop.step
      dsimp only
      rcases w.pool.acquire_cases allocated with ⟨b, pool, -, hacquire⟩ |
        ⟨-, -, hacquire⟩ | ⟨-, hnot, b, -, hacquire⟩ | ⟨-, hnot, -, hacquire⟩
      · rw [hacquire]
        exact ⟨rfl, rfl, hwithin⟩
      · rw [hacquire]
        exact ⟨rfl, rfl, hwithin⟩
      · rw [hacquire]
        exact ⟨rfl, rfl, hgrown hnot⟩
      · rw [hacquire]
        exact ⟨rfl, rfl, hgrown hnot⟩
  | release client b =>
      unfold Shop.step BufferPool.release
      dsimp only
      split_ifs with hroom hsome
      · exact ⟨rfl, rfl, hwithin⟩
      · refine ⟨rfl, rfl, le_trans (Nat.mul_le_mul_right _ ?_) hwithin⟩
        -- the counter goes down
        have hle : (1 : UInt64) ≤ w.pool.totalAllocated := by
          rw [UInt64.lt_iff_toNat_lt] at hsome
          rw [UInt64.le_iff_toNat_le]
          exact hsome
        dsimp only
        rw [UInt64.toNat_sub_of_le _ _ hle]
        exact Nat.sub_le _ _
      · exact ⟨rfl, rfl, hwithin⟩
  | setMaxMemoryLimit maxMemory => exact hkeeps.elim

/-! ## Beyond the limit -/

/-- The calls of a run that changes no limit and in which nothing throws. -/
def Smooth {C : Type} (w : Shop C) (call : PoolCall C) : Prop :=
  w.Permits call ∧ call.KeepsLimit ∧ w.Completes call

section

variable {C : Type} [DecidableEq C]

/-- The pool can be emptied. -/
theorem exists_drained (client : C) (w : Shop C) (h : w.Invariant) :
    ∃ calls, (pooling C).Throughout Smooth w calls ∧ ((pooling C).run w calls).Invariant ∧
      ((pooling C).run w calls).pool = { w.pool with pool := [] } := by
  generalize hpool : w.pool.pool = pool
  induction pool generalizing w with
  | nil => exact ⟨[], trivial, h, by rw [run_nil, ← hpool]⟩
  | cons b pool ih =>
      have hacquire : w.pool.acquire none = ({ w.pool with pool }, .buffer b) := by
        unfold BufferPool.acquire
        rw [hpool]
      have hstep := step_acquire hacquire client
      obtain ⟨calls, hsmooth, hinvariant, hdrained⟩ :=
        ih (w.step (.acquire client none)) (hstep ▸ h.handOut hpool client) (by rw [hstep])
      refine ⟨.acquire client none :: calls,
        ⟨⟨nofun, trivial, completes_acquire hacquire client⟩, hsmooth⟩, hinvariant, ?_⟩
      rw [run_cons]
      refine hdrained.trans ?_
      rw [hstep]

/-- As long as the count is not beyond the quotient, the check lets one more buffer pass: the
product is within the limit, or it wraps. -/
theorem not_atLimit_of_wraps {pool : BufferPool} (hsize : 1 < pool.bufferSize.toNat)
    (hwrap : 2 ^ 64 ≤
      (pool.maxMemory.toNat / pool.bufferSize.toNat + 1) * pool.bufferSize.toNat)
    (hcount : pool.totalAllocated.toNat ≤ pool.maxMemory.toNat / pool.bufferSize.toNat)
    (hnext : (pool.totalAllocated + 1).toNat = pool.totalAllocated.toNat + 1) :
    ¬ pool.AtLimit := by
  have hmax := pool.maxMemory.toNat_lt
  rintro ⟨-, hexceeds⟩
  rw [UInt64.lt_iff_toNat_lt, UInt64.toNat_mul, hnext] at hexceeds
  rcases hcount.lt_or_eq with hlt | hlast
  · have hle : (pool.totalAllocated.toNat + 1) * pool.bufferSize.toNat ≤ pool.maxMemory.toNat :=
      (Nat.le_div_iff_mul_le (by omega)).mp hlt
    rw [Nat.mod_eq_of_lt (by omega)] at hexceeds
    omega
  · have hbefore : pool.totalAllocated.toNat * pool.bufferSize.toNat ≤ pool.maxMemory.toNat :=
      (Nat.le_div_iff_mul_le (by omega)).mp hcount
    have hbuffer := pool.bufferSize.toNat_lt
    rw [← hlast] at hwrap
    rw [Nat.add_mul, Nat.one_mul] at hwrap hexceeds
    omega

/-- Where the product wraps, the counter gets beyond the limit. -/
theorem exists_exceeding (client : C) (w : Shop C) (h : w.Invariant) (hempty : w.pool.pool = [])
    (hsize : 1 < w.pool.bufferSize.toNat)
    (hwrap : 2 ^ 64 ≤
      (w.pool.maxMemory.toNat / w.pool.bufferSize.toNat + 1) * w.pool.bufferSize.toNat)
    (hcount : w.pool.totalAllocated.toNat ≤ w.pool.maxMemory.toNat / w.pool.bufferSize.toNat) :
    ∃ calls, (pooling C).Throughout Smooth w calls ∧
      ¬ ((pooling C).run w calls).WithinLimit := by
  have hmax := w.pool.maxMemory.toNat_lt
  have hquotient : w.pool.maxMemory.toNat / w.pool.bufferSize.toNat ≤
      w.pool.maxMemory.toNat / 2 := Nat.div_le_div_left hsize (by omega)
  -- one more buffer can be made, and the check lets it pass
  obtain ⟨b, hb, hfresh⟩ := exists_fresh
    (by rw [h.length_live]; omega : w.live.length + 1 < 2 ^ 64)
  have hone : (1 : UInt64).toNat = 1 := rfl
  have hnext : (w.pool.totalAllocated + 1).toNat = w.pool.totalAllocated.toNat + 1 := by
    rw [UInt64.toNat_add]
    omega
  have hpasses : ¬ w.pool.AtLimit := not_atLimit_of_wraps hsize hwrap hcount hnext
  have hacquire : w.pool.acquire (some b) =
      ({ w.pool with totalAllocated := w.pool.totalAllocated + 1 }, .buffer b) := by
    rcases w.pool.acquire_cases (some b) with ⟨b', pool, hpool, -⟩ | ⟨-, hlimit, -⟩ |
      ⟨-, -, b', hb', hacquire⟩ | ⟨-, -, hnone, -⟩
    · rw [hempty] at hpool
      cases hpool
    · exact absurd hlimit hpasses
    · rw [hacquire, Option.some_inj.mp hb']
    · cases hnone
  have hstep := step_acquire hacquire client
  have hsmooth : Smooth w (.acquire client (some b)) := by
    refine ⟨fun b' hb' => ?_, trivial, completes_acquire hacquire client⟩
    obtain rfl := Option.some_inj.mp hb'
    exact ⟨hb, hfresh⟩
  rcases hcount.lt_or_eq with hlt | hlast
  · obtain ⟨calls, hcalls, hexceeds⟩ := exists_exceeding client (w.step (.acquire client (some b)))
      (hstep ▸ h.grow hempty hb hfresh client) (by rw [hstep]; exact hempty)
      (by rw [hstep]; exact hsize) (by rw [hstep]; exact hwrap)
      (by rw [hstep]; dsimp only; rw [hnext]; exact hlt)
    exact ⟨.acquire client (some b) :: calls, ⟨hsmooth, hcalls⟩, hexceeds⟩
  · refine ⟨[.acquire client (some b)], ⟨hsmooth, trivial⟩, fun hwithin => ?_⟩
    have hfinal : (w.step (.acquire client (some b))).WithinLimit := hwithin
    unfold Shop.WithinLimit at hfinal
    rw [hstep] at hfinal
    dsimp only at hfinal
    rw [hnext, hlast] at hfinal
    omega
termination_by w.pool.maxMemory.toNat / w.pool.bufferSize.toNat - w.pool.totalAllocated.toNat
decreasing_by
  rw [hstep]
  dsimp only
  rw [hnext]
  omega

/-- **When the memory limit is kept.**  In all runs in which nothing throws, exactly if the
parameters fit; and then in all others too. -/
theorem withinLimit_iff (client : C) (bufferSize poolSize maxMemory : UInt64)
    (hlimit : 0 < maxMemory) (buffers : Buffers poolSize) :
    ((∀ calls, (pooling C).Throughout Smooth (opened bufferSize poolSize maxMemory buffers) calls →
        (pooling C).Always WithinLimit (opened bufferSize poolSize maxMemory buffers) calls) ↔
      LimitFits bufferSize poolSize maxMemory) ∧
    (LimitFits bufferSize poolSize maxMemory → ∀ calls,
      (pooling C).Run (opened bufferSize poolSize maxMemory buffers) calls →
        (pooling C).Throughout (fun _ call => call.KeepsLimit)
          (opened bufferSize poolSize maxMemory buffers) calls →
        (pooling C).Always WithinLimit (opened bufferSize poolSize maxMemory buffers) calls) := by
  have henough : LimitFits bufferSize poolSize maxMemory → ∀ calls,
      (pooling C).Run (opened bufferSize poolSize maxMemory buffers) calls →
        (pooling C).Throughout (fun _ call => call.KeepsLimit)
          (opened bufferSize poolSize maxMemory buffers) calls →
        (pooling C).Always WithinLimit (opened bufferSize poolSize maxMemory buffers) calls := by
    intro hfits calls hrun hkeeps
    have hkept : (pooling C).Always (Kept bufferSize maxMemory)
        (opened bufferSize poolSize maxMemory buffers) calls :=
      always_of_invariant (fun _ _ h _ hkeeps => h.step hlimit hfits.2 hkeeps)
        ⟨rfl, rfl, hfits.1⟩ hrun hkeeps
    exact hkept.imp fun _ h => h.within
  refine ⟨⟨fun hall => ?_, fun hfits calls hsmooth => ?_⟩, henough⟩
  · have hfirst := (hall [] trivial).first
    refine ⟨hfirst, ?_⟩
    by_contra hnot
    rw [not_or, not_le, not_lt] at hnot
    have hpos : 0 < bufferSize.toNat := by omega
    obtain ⟨calls, hsmooth, hinvariant, hdrained⟩ := exists_drained client
      (opened bufferSize poolSize maxMemory buffers) (invariant_opened _ _ _ buffers)
    obtain ⟨calls', hsmooth', hexceeds⟩ := exists_exceeding client _ hinvariant (by rw [hdrained])
      (by rw [hdrained]; exact hnot.1) (by rw [hdrained]; exact hnot.2) (by
        rw [hdrained]
        exact (Nat.le_div_iff_mul_le hpos).mpr hfirst)
    refine hexceeds ?_
    rw [← run_append]
    exact (hall (calls ++ calls') (throughout_append.mpr ⟨hsmooth, hsmooth'⟩)).last
  · obtain ⟨hrun, hrest⟩ := throughout_and.mp hsmooth
    exact henough hfits calls hrun (throughout_and.mp hrest).1

end

/-- A pool of one buffer may have a second one of the same size. -/
theorem withinLimit_two :
    (pooling Bool).Always WithinLimit (opened 1024 1 2048 (.single 2048 (by decide)))
      twoClients := by
  have hlimit := withinLimit_iff true 1024 1 2048 (by decide) (.single 2048 (by decide))
  refine hlimit.2 (by decide) twoClients ⟨?_, ?_, ?_, ?_, trivial⟩
    ⟨trivial, trivial, trivial, trivial, trivial⟩
  · exact nofun
  · intro b hb
    obtain rfl := Option.some_inj.mp hb
    decide
  · exact List.mem_cons_of_mem _ List.mem_cons_self
  · exact List.mem_cons_self

/-- The buffer of the constructor is beyond the limit already. -/
theorem not_withinLimit_construct : ¬ (pooling Unit).Always WithinLimit
    (opened 1024 1 512 (.single 4096 (by decide))) [] := by
  change ¬ WithinLimit _
  decide

end GinCpp.Core
