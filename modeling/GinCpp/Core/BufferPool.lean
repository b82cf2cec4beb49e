import GinCpp.Transition.Basic
import Mathlib.Algebra.Group.Nat.Defs
import Mathlib.Data.Fintype.Card
import Mathlib.Data.List.Nodup

/-!
# The buffer pool

`core/buffer_pool.h`, with clients that acquire and release its buffers.  Every member locks the
mutex for its whole body, so that the calls of all threads come one after another.  A buffer is
the address of the vector; the counters are of type `size_t` and wrap.

Whether `std::make_shared` returns is part of a call of `acquire`: the constructor of the vector
throws for sizes beyond `max_size()`, and the allocation may fail.  The counter is incremented
before.
-/

namespace GinCpp.Core

open Transition

/-- The address of an object, 0 for a null pointer. -/
abbrev Address := UInt64

/-- The objects that the constructor makes. -/
structure Buffers (poolSize : UInt64) where
  addresses : List Address
  length_eq : addresses.length = poolSize.toNat
  nodup : addresses.Nodup
  nonnull : 0 ∉ addresses

/-- `BufferPool`, less its allocator.  The back of the deque comes first. -/
structure BufferPool where
  bufferSize : UInt64
  poolSize : UInt64
  maxMemory : UInt64
  totalAllocated : UInt64
  pool : List Address

/-- What a call of `acquire` ends with: a buffer, a null pointer, or an exception. -/
inductive Acquired
  | buffer (b : Address)
  | refused
  | threw
  deriving DecidableEq, Repr

namespace BufferPool

/-- The constructor. -/
def construct (bufferSize poolSize maxMemory : UInt64) (buffers : Buffers poolSize) :
    BufferPool where
  bufferSize
  poolSize
  maxMemory
  totalAllocated := poolSize
  pool := buffers.addresses

/-- The memory limit does not allow one more buffer. -/
def AtLimit (p : BufferPool) : Prop :=
  0 < p.maxMemory ∧ p.maxMemory < (p.totalAllocated + 1) * p.bufferSize

instance (p : BufferPool) : Decidable p.AtLimit :=
  inferInstanceAs
    (Decidable (0 < p.maxMemory ∧ p.maxMemory < (p.totalAllocated + 1) * p.bufferSize))

/-- `acquire`, `allocated` being what `std::make_shared` returns if it does. -/
def acquire (p : BufferPool) (allocated : Option Address) : BufferPool × Acquired :=
  match p.pool with
  | b :: pool => ({ p with pool }, .buffer b)
  | [] =>
      if p.AtLimit then (p, .refused)
      else
        ({ p with totalAllocated := p.totalAllocated + 1 },
          match allocated with
          | some b => .buffer b
          | none => .threw)

/-- The deque has room for one more buffer. -/
def HasRoom (p : BufferPool) : Prop := p.pool.length < p.poolSize.toNat

instance (p : BufferPool) : Decidable p.HasRoom :=
  inferInstanceAs (Decidable (p.pool.length < p.poolSize.toNat))

def release (p : BufferPool) (b : Address) : BufferPool :=
  if p.HasRoom then { p with pool := b :: p.pool }
  else if 0 < p.totalAllocated then { p with totalAllocated := p.totalAllocated - 1 }
  else p

def setMaxMemoryLimit (p : BufferPool) (maxMemory : UInt64) : BufferPool := { p with maxMemory }

/-- What `acquire` does: it reuses a buffer, refuses, makes one, or throws. -/
theorem acquire_cases (p : BufferPool) (allocated : Option Address) :
    (∃ b pool, p.pool = b :: pool ∧ p.acquire allocated = ({ p with pool }, .buffer b)) ∨
    (p.pool = [] ∧ p.AtLimit ∧ p.acquire allocated = (p, .refused)) ∨
    (p.pool = [] ∧ ¬ p.AtLimit ∧ ∃ b, allocated = some b ∧
      p.acquire allocated = ({ p with totalAllocated := p.totalAllocated + 1 }, .buffer b)) ∨
    (p.pool = [] ∧ ¬ p.AtLimit ∧ allocated = none ∧
      p.acquire allocated = ({ p with totalAllocated := p.totalAllocated + 1 }, .threw)) := by
  unfold acquire
  cases hpool : p.pool with
  | cons b pool => exact .inl ⟨b, pool, rfl, rfl⟩
  | nil =>
      by_cases hlimit : p.AtLimit
      · exact .inr (.inl ⟨rfl, hlimit, if_pos hlimit⟩)
      · cases allocated with
        | some b => exact .inr (.inr (.inl ⟨rfl, hlimit, b, rfl, if_neg hlimit⟩))
        | none => exact .inr (.inr (.inr ⟨rfl, hlimit, rfl, if_neg hlimit⟩))

end BufferPool

/-! ## Clients -/

/-- A call of a client. -/
inductive PoolCall (C : Type)
  | acquire (client : C) (allocated : Option Address)
  | release (client : C) (b : Address)
  | setMaxMemoryLimit (maxMemory : UInt64)

/-- A pool and the buffers that its clients hold. -/
structure Shop (C : Type) where
  pool : BufferPool
  held : List (C × Address) := []

namespace Shop

variable {C : Type} (w : Shop C)

/-- The buffers in the pool and with the clients. -/
def live : List Address := w.pool.pool ++ w.held.map Prod.snd

/-- A new buffer is at an address that is not in use, and only what is held is released. -/
def Permits : PoolCall C → Prop
  | .acquire _ allocated => ∀ b ∈ allocated, b ≠ 0 ∧ b ∉ w.live
  | .release client b => (client, b) ∈ w.held
  | .setMaxMemoryLimit _ => True

/-- A new pool, of which no client holds anything. -/
def opened (bufferSize poolSize maxMemory : UInt64) (buffers : Buffers poolSize) : Shop C where
  pool := .construct bufferSize poolSize maxMemory buffers

def step [DecidableEq C] : PoolCall C → Shop C
  | .acquire client allocated =>
      let (pool, acquired) := w.pool.acquire allocated
      match acquired with
      | .buffer b => { pool, held := (client, b) :: w.held }
      | .refused | .threw => { w with pool }
  | .release client b => { pool := w.pool.release b, held := w.held.erase (client, b) }
  | .setMaxMemoryLimit maxMemory => { w with pool := w.pool.setMaxMemoryLimit maxMemory }

end Shop

/-- The pool at work. -/
def pooling (C : Type) [DecidableEq C] : System (Shop C) (PoolCall C) where
  Permits := Shop.Permits
  step w call := w.step call

/-! ## Addresses -/

/-- Objects have distinct addresses other than 0, so there are fewer than 2^64. -/
theorem length_lt_of_nodup {buffers : List Address} (hnodup : buffers.Nodup)
    (hnull : 0 ∉ buffers) : buffers.length < 2 ^ 64 := by
  have hall : ((0 :: buffers).map UInt64.toFin).Nodup :=
    (List.nodup_cons.mpr ⟨hnull, hnodup⟩).map fun _ _ => UInt64.toFin_inj.mp
  have hle := hall.length_le_card
  rw [List.length_map, List.length_cons, Fintype.card_fin] at hle
  exact hle

/-- As long as there are not that many, one is free. -/
theorem exists_fresh {buffers : List Address} (h : buffers.length + 1 < 2 ^ 64) :
    ∃ b, b ≠ 0 ∧ b ∉ buffers := by
  by_contra hnone
  have hall : ∀ x : Fin UInt64.size, x ∈ ((0 :: buffers).map UInt64.toFin).toFinset := by
    intro x
    rw [List.mem_toFinset, List.mem_map]
    refine ⟨UInt64.ofFin x, ?_, rfl⟩
    by_contra hx
    rw [List.mem_cons, not_or] at hx
    exact hnone ⟨_, hx.1, hx.2⟩
  have hcard := (Finset.card_le_card fun x _ => hall x : Finset.univ.card ≤ _).trans
    (List.toFinset_card_le _)
  rw [Finset.card_univ, Fintype.card_fin, List.length_map, List.length_cons] at hcard
  exact absurd h (not_lt.mpr hcard)

/-! ## Accounting -/

namespace Shop

variable {C : Type}

/-- The buffers are accounted for: the counter counts them, the pool is within its size, and
nothing in it is there twice or with a client. -/
structure Accounted (w : Shop C) : Prop where
  total : w.pool.totalAllocated.toNat = w.pool.pool.length + w.held.length
  bounded : w.pool.pool.length ≤ w.pool.poolSize.toNat
  nodup : w.pool.pool.Nodup
  apart : ∀ b ∈ w.pool.pool, ∀ client, (client, b) ∉ w.held

/-- A call hands out no buffer that another client holds, and does not get to the decrement with
nothing to decrement. -/
def Sound (w : Shop C) : PoolCall C → Prop
  | .acquire _ allocated =>
      ∀ b, (w.pool.acquire allocated).2 = .buffer b → ∀ client, (client, b) ∉ w.held
  | .release _ _ => ¬ w.pool.HasRoom → 0 < w.pool.totalAllocated
  | .setMaxMemoryLimit _ => True

/-- A call does not throw. -/
def Completes (w : Shop C) : PoolCall C → Prop
  | .acquire _ allocated => (w.pool.acquire allocated).2 ≠ .threw
  | .release _ _ | .setMaxMemoryLimit _ => True

section

variable {w : Shop C} {allocated : Option Address} {pool : BufferPool} {b : Address}

theorem step_acquire [DecidableEq C] (h : w.pool.acquire allocated = (pool, .buffer b))
    (client : C) :
    w.step (.acquire client allocated) = { pool, held := (client, b) :: w.held } := by
  simp only [step, h]

theorem completes_acquire (h : w.pool.acquire allocated = (pool, .buffer b)) (client : C) :
    w.Completes (.acquire client allocated) := by
  simp [Completes, h]

end

/-- What the accounting rests on. -/
structure Invariant (w : Shop C) : Prop where
  total : w.pool.totalAllocated.toNat = w.pool.pool.length + w.held.length
  bounded : w.pool.pool.length ≤ w.pool.poolSize.toNat
  nodup : w.live.Nodup
  nonnull : 0 ∉ w.live

namespace Invariant

variable {w : Shop C}

theorem length_live (h : w.Invariant) : w.live.length = w.pool.totalAllocated.toNat := by
  rw [h.total, live, List.length_append, List.length_map]

theorem accounted (h : w.Invariant) : w.Accounted where
  total := h.total
  bounded := h.bounded
  nodup := (List.nodup_append'.mp h.nodup).1
  apart _ hb _ hheld :=
    (List.nodup_append'.mp h.nodup).2.2 hb (List.mem_map_of_mem (f := Prod.snd) hheld)

/-- A buffer moves from the pool to a client. -/
theorem handOut (h : w.Invariant) {b : Address} {pool : List Address}
    (hpool : w.pool.pool = b :: pool) (client : C) :
    Invariant { pool := { w.pool with pool }, held := (client, b) :: w.held } := by
  have hperm : (pool ++ b :: w.held.map Prod.snd).Perm w.live := by
    rw [live, hpool]
    exact List.perm_middle
  have htotal := h.total
  have hbounded := h.bounded
  rw [hpool, List.length_cons] at htotal hbounded
  refine ⟨?_, ?_, hperm.nodup_iff.mpr h.nodup, fun hnull => h.nonnull (hperm.mem_iff.mp hnull)⟩
  · dsimp only
    rw [List.length_cons]
    omega
  · dsimp only
    omega

/-- A new buffer is made for a client. -/
theorem grow (h : w.Invariant) (hempty : w.pool.pool = []) {b : Address} (hb : b ≠ 0)
    (hfresh : b ∉ w.live) (client : C) :
    Invariant
      { pool := { w.pool with totalAllocated := w.pool.totalAllocated + 1 },
        held := (client, b) :: w.held } := by
  have hlive : w.live = w.held.map Prod.snd := by rw [live, hempty, List.nil_append]
  have hnodup : (b :: w.live).Nodup := List.nodup_cons.mpr ⟨hfresh, h.nodup⟩
  have hnonnull : 0 ∉ b :: w.live := by
    rw [List.mem_cons, not_or]
    exact ⟨hb.symm, h.nonnull⟩
  have hnowrap := length_lt_of_nodup hnodup hnonnull
  rw [List.length_cons, h.length_live] at hnowrap
  refine ⟨?_, ?_, ?_, ?_⟩
  · have htotal := h.total
    rw [hempty, List.length_nil] at htotal
    dsimp only
    rw [UInt64.toNat_add, hempty, List.length_cons, List.length_nil]
    have hone : (1 : UInt64).toNat = 1 := rfl
    omega
  · exact h.bounded
  · rw [hlive] at hnodup
    rw [live, hempty]
    exact hnodup
  · rw [hlive] at hnonnull
    rw [live, hempty]
    exact hnonnull

variable [DecidableEq C]

theorem perm_erase {client : C} {b : Address} (hheld : (client, b) ∈ w.held) :
    w.live.Perm (w.pool.pool ++ b :: (w.held.erase (client, b)).map Prod.snd) :=
  ((List.perm_cons_erase hheld).map Prod.snd).append_left _

/-- A client releases a buffer. -/
theorem release (h : w.Invariant) {client : C} {b : Address} (hheld : (client, b) ∈ w.held) :
    Invariant { pool := w.pool.release b, held := w.held.erase (client, b) } := by
  have hperm := perm_erase hheld
  have hlength := List.length_erase_of_mem hheld
  have hpos := List.length_pos_of_mem hheld
  have htotal := h.total
  unfold BufferPool.release
  split_ifs with hroom hsome
  · -- the deque keeps it
    have hkept : w.live.Perm (b :: w.pool.pool ++ (w.held.erase (client, b)).map Prod.snd) :=
      hperm.trans List.perm_middle
    refine ⟨?_, hroom, hkept.nodup_iff.mp h.nodup, fun hnull => h.nonnull (hkept.mem_iff.mpr hnull)⟩
    dsimp only
    rw [List.length_cons, hlength]
    omega
  · -- the buffer is freed
    have hfewer : (w.pool.pool ++ (w.held.erase (client, b)).map Prod.snd).Sublist
        (w.pool.pool ++ b :: (w.held.erase (client, b)).map Prod.snd) :=
      (List.sublist_cons_self _ _).append_left _
    refine ⟨?_, h.bounded, (hperm.nodup_iff.mp h.nodup).sublist hfewer,
      fun hnull => h.nonnull (hperm.mem_iff.mpr (hfewer.subset hnull))⟩
    have hone : (1 : UInt64).toNat = 1 := rfl
    have hle : (1 : UInt64) ≤ w.pool.totalAllocated := by
      rw [UInt64.le_iff_toNat_le]
      omega
    dsimp only
    rw [UInt64.toNat_sub_of_le _ _ hle, hlength]
    omega
  · -- a buffer is held, so the counter is not 0
    refine absurd ?_ hsome
    rw [UInt64.lt_iff_toNat_lt]
    have hzero : (0 : UInt64).toNat = 0 := rfl
    omega

/-- Every call that completes preserves the invariant. -/
theorem step (h : w.Invariant) {call : PoolCall C} (hpermits : w.Permits call)
    (hcompletes : w.Completes call) : (w.step call).Invariant := by
  cases call with
  | acquire client allocated =>
      unfold Shop.step
      dsimp only
      rcases w.pool.acquire_cases allocated with ⟨b, pool, hpool, hacquire⟩ |
        ⟨-, -, hacquire⟩ | ⟨hpool, -, b, hallocated, hacquire⟩ | ⟨-, -, -, hacquire⟩
      · rw [hacquire]
        exact h.handOut hpool client
      · rw [hacquire]
        exact h
      · rw [hacquire]
        obtain ⟨hb, hfresh⟩ := hpermits b hallocated
        exact h.grow hpool hb hfresh client
      · exact absurd (congrArg Prod.snd hacquire) hcompletes
  | release client b => exact h.release hpermits
  | setMaxMemoryLimit maxMemory => exact ⟨h.total, h.bounded, h.nodup, h.nonnull⟩

/-- A call that throws has counted a buffer that does not exist. -/
theorem completes_of_accounted (h : w.Invariant) {call : PoolCall C}
    (haccounted : (w.step call).Accounted) : w.Completes call := by
  cases call with
  | acquire client allocated =>
      intro hthrew
      rcases w.pool.acquire_cases allocated with ⟨b, pool, -, hacquire⟩ |
        ⟨-, -, hacquire⟩ | ⟨-, -, b, -, hacquire⟩ | ⟨hpool, -, -, hacquire⟩
      · rw [hacquire] at hthrew
        cases hthrew
      · rw [hacquire] at hthrew
        cases hthrew
      · rw [hacquire] at hthrew
        cases hthrew
      · have htotal := haccounted.total
        unfold Shop.step at htotal
        dsimp only at htotal
        rw [hacquire] at htotal
        dsimp only at htotal
        rw [UInt64.toNat_add, ← h.total] at htotal
        have hlt := w.pool.totalAllocated.toNat_lt
        have hone : (1 : UInt64).toNat = 1 := rfl
        omega
  | release client b => trivial
  | setMaxMemoryLimit maxMemory => trivial

omit [DecidableEq C] in
theorem sound_call (h : w.Invariant) {call : PoolCall C} (hpermits : w.Permits call) :
    w.Sound call := by
  cases call with
  | acquire client allocated =>
      intro b hb client' hheld
      rcases w.pool.acquire_cases allocated with ⟨b', pool, hpool, hacquire⟩ |
        ⟨-, -, hacquire⟩ | ⟨-, -, b', hallocated, hacquire⟩ | ⟨-, -, -, hacquire⟩
      · rw [hacquire] at hb
        obtain rfl := Acquired.buffer.inj hb
        exact h.accounted.apart _ (by simp [hpool]) client' hheld
      · rw [hacquire] at hb
        cases hb
      · rw [hacquire] at hb
        obtain rfl := Acquired.buffer.inj hb
        apply (hpermits _ hallocated).2
        apply List.mem_append_right
        exact List.mem_map_of_mem (f := Prod.snd) hheld
      · rw [hacquire] at hb
        cases hb
  | release client b =>
      intro _
      have hpos : 0 < w.held.length := List.length_pos_of_mem hpermits
      have htotal := h.total
      have hzero : (0 : UInt64).toNat = 0 := rfl
      rw [UInt64.lt_iff_toNat_lt]
      omega
  | setMaxMemoryLimit maxMemory => trivial

end Invariant

theorem invariant_opened (bufferSize poolSize maxMemory : UInt64) (buffers : Buffers poolSize) :
    (opened bufferSize poolSize maxMemory buffers : Shop C).Invariant := by
  have hlive : (opened bufferSize poolSize maxMemory buffers : Shop C).live = buffers.addresses :=
    List.append_nil _
  refine ⟨buffers.length_eq.symm, buffers.length_eq.le, ?_, ?_⟩
  · rw [hlive]
    exact buffers.nodup
  · rw [hlive]
    exact buffers.nonnull

end Shop

open Shop System

/-- **When the buffers are accounted for.**  In every run of a pool with any number of clients, up
to the first call that throws. -/
theorem accounted_iff {C : Type} [DecidableEq C] (bufferSize poolSize maxMemory : UInt64)
    (buffers : Buffers poolSize) (calls : List (PoolCall C))
    (hrun : (pooling C).Run (opened bufferSize poolSize maxMemory buffers) calls) :
    (pooling C).Always Shop.Accounted (opened bufferSize poolSize maxMemory buffers) calls ∧
        (pooling C).Throughout Shop.Sound (opened bufferSize poolSize maxMemory buffers) calls ↔
      (pooling C).Throughout Shop.Completes (opened bufferSize poolSize maxMemory buffers)
        calls := by
  have hstart : (opened bufferSize poolSize maxMemory buffers : Shop C).Invariant :=
    invariant_opened bufferSize poolSize maxMemory buffers
  constructor
  · rintro ⟨haccounted, -⟩
    generalize opened bufferSize poolSize maxMemory buffers = w at hrun hstart haccounted
    induction calls generalizing w with
    | nil => trivial
    | cons call calls ih =>
        have hcompletes := hstart.completes_of_accounted haccounted.2.first
        exact ⟨hcompletes, ih _ hrun.2 (hstart.step hrun.1 hcompletes) haccounted.2⟩
  · intro hcompletes
    have hinvariant : (pooling C).Always Invariant
        (opened bufferSize poolSize maxMemory buffers) calls :=
      always_of_invariant (fun _ _ h hpermits hcompletes => h.step hpermits hcompletes) hstart hrun
        hcompletes
    exact ⟨hinvariant.imp fun _ h => h.accounted,
      throughout_of_always (fun _ _ h hpermits _ => h.sound_call hpermits) hinvariant hrun
        hcompletes⟩

/-- A pool of the one buffer at `b`. -/
def Buffers.single (b : Address) (hb : b ≠ 0) : Buffers 1 :=
  ⟨[b], rfl, List.nodup_singleton b, by simpa using hb.symm⟩

/-- No buffers at all. -/
def Buffers.none : Buffers 0 := ⟨[], rfl, List.nodup_nil, List.not_mem_nil⟩

/-- Two clients, of which the second gets a new buffer; both are released. -/
def twoClients : List (PoolCall Bool) :=
  [.acquire false .none, .acquire true (some 4096), .release false 2048, .release true 4096]

/-- The two clients are accounted for. -/
theorem accounted_twoClients :
    (pooling Bool).Always Shop.Accounted (opened 1024 1 0 (.single 2048 (by decide))) twoClients ∧
      (pooling Bool).Throughout Shop.Sound (opened 1024 1 0 (.single 2048 (by decide)))
        twoClients := by
  refine (accounted_iff 1024 1 0 (.single 2048 (by decide)) twoClients
    ⟨?_, ?_, ?_, ?_, trivial⟩).mpr ⟨?_, ?_, trivial, trivial, trivial⟩
  · exact nofun
  · intro b hb
    obtain rfl := Option.some_inj.mp hb
    decide
  · exact List.mem_cons_of_mem _ List.mem_cons_self
  · exact List.mem_cons_self
  · change (Acquired.buffer 2048) ≠ .threw
    exact nofun
  · change (Acquired.buffer 4096) ≠ .threw
    exact nofun

/-- A vector of 2^63 bytes is beyond `max_size()`: the call throws, and has counted it. -/
theorem not_accounted_tooLarge :
    (pooling Unit).Run (opened (.ofNat (2 ^ 63)) 0 0 .none) [.acquire () .none] ∧
      ¬ (pooling Unit).Always Shop.Accounted (opened (.ofNat (2 ^ 63)) 0 0 .none)
        [.acquire () .none] := by
  refine ⟨⟨nofun, trivial⟩, fun haccounted => ?_⟩
  have htotal := haccounted.last.total
  revert htotal
  decide

end GinCpp.Core
