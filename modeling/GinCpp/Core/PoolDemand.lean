import GinCpp.Core.BufferOwnership
import GinCpp.Transition.Potential

/-!
# How much a pool allocates

A pool never has fewer buffers than it was made with, and no more of them than its clients have held
at one time; and when they have given back everything, it has those that it was made with
(`totalAllocated_bounds`).

So a server needs no more memory for its buffers than its connections have needed at one time, and
a shutdown leaves the pool as it was at the start (`Host.restored`).
-/

namespace GinCpp.Core

open Transition System Shop

namespace Shop

variable {C : Type} {w : Shop C} {call : PoolCall C}

/-- The buffers that clients hold. -/
def demand (w : Shop C) : ℕ := w.held.length

/-- The buffers that there are. -/
def total (w : Shop C) : ℕ := w.pool.totalAllocated.toNat

/-- The pool has as many buffers as it was made with. -/
structure Stocked (w : Shop C) : Prop where
  invariant : w.Invariant
  enough : w.pool.poolSize.toNat ≤ w.total

theorem Stocked.restored (h : w.Stocked) (hnone : w.held = []) :
    w.total = w.pool.poolSize.toNat ∧ w.pool.pool.length = w.pool.poolSize.toNat := by
  have htotal : w.total = w.pool.pool.length + w.held.length := h.invariant.total
  have hbounded := h.invariant.bounded
  have henough := h.enough
  rw [hnone, List.length_nil] at htotal
  omega

variable [DecidableEq C]

@[simp] theorem poolSize_step (w : Shop C) (call : PoolCall C) :
    (w.step call).pool.poolSize = w.pool.poolSize := by
  cases call with
  | acquire client allocated =>
      unfold Shop.step
      dsimp only
      rcases w.pool.acquire_cases allocated with ⟨b, pool, -, hacquire⟩ |
        ⟨-, -, hacquire⟩ | ⟨-, -, b, -, hacquire⟩ | ⟨-, -, -, hacquire⟩
      all_goals rw [hacquire]
  | release client b =>
      show (w.pool.release b).poolSize = _
      unfold BufferPool.release
      split_ifs
      · rfl
      · rfl
      · rfl
  | setMaxMemoryLimit maxMemory => rfl

/-- What a call does to the number of buffers: it stays, or one is made because none is left, or one
is freed because the pool is full. -/
theorem total_step_cases (h : w.Invariant) (hpermits : w.Permits call)
    (hcompletes : w.Completes call) :
    (w.step call).total = w.total ∨
      (w.total ≤ (w.step call).total ∧ (w.step call).total = (w.step call).demand) ∨
      (w.pool.poolSize.toNat ≤ (w.step call).total ∧ (w.step call).total ≤ w.total) := by
  have hafter := (h.step hpermits hcompletes).total
  have hbefore := h.total
  unfold total demand
  cases call with
  | setMaxMemoryLimit maxMemory => exact .inl rfl
  | acquire client allocated =>
      unfold Shop.step at hafter ⊢
      dsimp only at hafter ⊢
      rcases w.pool.acquire_cases allocated with ⟨b, pool, hpool, hacquire⟩ |
        ⟨-, -, hacquire⟩ | ⟨hpool, -, b, -, hacquire⟩ | ⟨-, -, -, hacquire⟩
      · rw [hacquire]
        exact .inl rfl
      · rw [hacquire]
        exact .inl rfl
      · rw [hacquire] at hafter ⊢
        dsimp only at hafter ⊢
        rw [hpool, List.length_nil] at hbefore hafter
        rw [List.length_cons] at hafter ⊢
        exact .inr (.inl ⟨by omega, by omega⟩)
      · exact absurd (congrArg Prod.snd hacquire) hcompletes
  | release client b =>
      have hpos := List.length_pos_of_mem hpermits
      have hlength := List.length_erase_of_mem hpermits
      unfold Shop.step BufferPool.release at hafter ⊢
      dsimp only at hafter ⊢
      rw [hlength] at hafter
      split_ifs at hafter ⊢ with hroom hsome
      · exact .inl rfl
      · refine .inr (.inr ⟨?_, ?_⟩)
        · have hfull := not_lt.mp hroom
          dsimp only at hafter ⊢
          omega
        · dsimp only at hafter ⊢
          omega
      · exact .inl rfl

theorem Stocked.step (h : w.Stocked) (hpermits : w.Permits call)
    (hcompletes : w.Completes call) : (w.step call).Stocked := by
  refine ⟨h.invariant.step hpermits hcompletes, ?_⟩
  have henough := h.enough
  rw [poolSize_step]
  rcases total_step_cases h.invariant hpermits hcompletes with hsame | ⟨hmore, -⟩ | ⟨hfewer, -⟩
  · omega
  · omega
  · exact hfewer

theorem Stocked.total_step_le (h : w.Stocked) (hpermits : w.Permits call)
    (hcompletes : w.Completes call) :
    (w.step call).total ≤ max w.total (w.step call).demand := by
  rcases total_step_cases h.invariant hpermits hcompletes with hsame | ⟨-, hmade⟩ | ⟨-, hfreed⟩
  · omega
  · omega
  · omega

omit [DecidableEq C] in
theorem stocked_opened (bufferSize poolSize maxMemory : UInt64) (buffers : Buffers poolSize) :
    (opened bufferSize poolSize maxMemory buffers : Shop C).Stocked :=
  ⟨invariant_opened bufferSize poolSize maxMemory buffers, Nat.le_refl _⟩

theorem poolSize_run (w : Shop C) (calls : List (PoolCall C)) :
    ((pooling C).run w calls).pool.poolSize = w.pool.poolSize := by
  induction calls generalizing w with
  | nil => rfl
  | cons call calls ih =>
      rw [run_cons, ih]
      exact poolSize_step w call

end Shop

/-- **What a pool allocates**, for any clients, as long as no allocation throws: no less than it was
made with, and no more than was held at one time; nothing is lost when all is given back. -/
theorem totalAllocated_bounds {C : Type} [DecidableEq C]
    (bufferSize poolSize maxMemory : UInt64) (buffers : Buffers poolSize)
    (calls : List (PoolCall C))
    (hrun : (pooling C).Run (opened bufferSize poolSize maxMemory buffers) calls)
    (hcompletes : (pooling C).Throughout Shop.Completes
      (opened bufferSize poolSize maxMemory buffers) calls) :
    let start : Shop C := opened bufferSize poolSize maxMemory buffers
    let w := (pooling C).run start calls
    poolSize.toNat ≤ w.pool.totalAllocated.toNat ∧
      w.pool.totalAllocated.toNat ≤
        max poolSize.toNat ((pooling C).peak (·.held.length) start calls) ∧
      (w.held = [] → w.pool.totalAllocated = poolSize ∧
        w.pool.pool.length = poolSize.toNat) := by
  intro start w
  have halways : (pooling C).Always Stocked start calls :=
    always_of_invariant (fun _ _ h hpermits hcompletes => h.step hpermits hcompletes)
      (stocked_opened bufferSize poolSize maxMemory buffers) hrun hcompletes
  have hstocked : w.Stocked := halways.last
  have hsize : w.pool.poolSize = poolSize := poolSize_run start calls
  have henough := hstocked.enough
  rw [hsize] at henough
  refine ⟨henough, ?_, fun hnone => ?_⟩
  · exact le_max_peak Shop.total Shop.demand
      (fun _ _ h hpermits hcompletes => h.total_step_le hpermits hcompletes) halways hrun
      hcompletes
  · obtain ⟨htotal, hpool⟩ := hstocked.restored hnone
    rw [hsize] at htotal hpool
    exact ⟨UInt64.toNat_inj.mp htotal, hpool⟩

/-- The pool of one buffer, of which the two clients need one more, has one again. -/
theorem totalAllocated_twoClients :
    let start : Shop Bool := opened 1024 1 0 (.single 2048 (by decide))
    let w := (pooling Bool).run start twoClients
    (pooling Bool).peak (·.held.length) start twoClients = 2 ∧
      w.pool.totalAllocated.toNat ≤ max 1 2 ∧ w.pool.totalAllocated = 1 := by
  intro start w
  have hpeak : (pooling Bool).peak (·.held.length) start twoClients = 2 := by decide
  have hpermits : ∀ b ∈ some (4096 : Address), b ≠ 0 ∧ b ∉ (start.step (twoClients.head
      (List.cons_ne_nil _ _))).live := by
    intro b hb
    obtain rfl := Option.some_inj.mp hb
    decide
  obtain ⟨-, hmost, hback⟩ := totalAllocated_bounds 1024 1 0 (.single 2048 (by decide)) twoClients
    ⟨nofun, hpermits, List.mem_cons_of_mem _ List.mem_cons_self, List.mem_cons_self, trivial⟩
    ⟨(nofun : Acquired.buffer 2048 ≠ .threw), (nofun : Acquired.buffer 4096 ≠ .threw), trivial,
      trivial, trivial⟩
  exact ⟨hpeak, hpeak ▸ hmost, (hback rfl).1⟩

/-! ## The pool of a server -/

namespace Host

variable {s : Host} {e : HostEvent}

/-- The calls in an event: a buffer is acquired, or some are released. -/
theorem calls_cases (s : Host) (e : HostEvent) :
    (∃ version allocated, e = .accepted (.ok version) allocated ∧
      s.server.acceptorOpen = true ∧
      s.calls e = [.acquire s.server.tasks.length allocated]) ∨
    ∀ call ∈ s.calls e, ∃ client b, call = .release client b := by
  have hreleases : ∀ (i : ℕ) (t t' : Task), ∀ call ∈ s.releases i t t',
      ∃ client b, call = .release client b :=
    fun i t t' call hcall => ⟨i, s.bufferOf i, List.eq_of_mem_replicate hcall⟩
  cases e with
  | accepted result allocated =>
      cases result with
      | error error => exact .inr nofun
      | ok version =>
          by_cases hopen : s.server.acceptorOpen = true
          · exact .inl ⟨version, allocated, rfl, hopen, if_pos hopen⟩
          · have hnone : s.calls (.accepted (.ok version) allocated) = [] := if_neg hopen
            rw [hnone]
            exact .inr nofun
  | connection i e =>
      refine .inr fun call hcall => ?_
      change call ∈ s.server.tasks[i]?.elim [] _ at hcall
      cases ht : s.server.tasks[i]? with
      | none =>
          rw [ht] at hcall
          cases hcall
      | some t =>
          rw [ht] at hcall
          exact hreleases i t _ call hcall
  | gracefulShutdown order =>
      refine .inr fun call hcall => ?_
      obtain ⟨i, -, hcall⟩ := List.mem_flatMap.mp hcall
      cases ht : s.server.tasks[i]? with
      | none =>
          rw [ht] at hcall
          cases hcall
      | some t =>
          rw [ht] at hcall
          exact hreleases i t _ call hcall

/-- What an event does to the pool is what its calls do, none of which throws. -/
theorem Owned.shop_step (h : s.Owned) (hpermits : s.Permits e) (hbenign : s.Benign e) :
    (s.step e).shop = (pooling ℕ).run s.shop (s.calls e) ∧
      (pooling ℕ).Throughout Shop.Completes s.shop (s.calls e) := by
  rcases calls_cases s e with ⟨version, allocated, rfl, hopen, hcalls⟩ | hreleases
  · obtain ⟨pool, b, hacquire, -⟩ :=
      h.acquire_spec s.server.tasks.length hpermits.2 hbenign.2
    rw [hcalls]
    refine ⟨?_, completes_acquire hacquire _, trivial⟩
    unfold Host.step
    dsimp only
    rw [if_pos hopen, hacquire, hcalls]
  · refine ⟨?_, throughout_of_forall fun call hcall w => ?_⟩
    · cases e with
      | connection i e => rfl
      | gracefulShutdown order => rfl
      | accepted result allocated =>
          cases result with
          | error error => rfl
          | ok version =>
              have hclosed : ¬ s.server.acceptorOpen = true := by
                intro hopen
                have hcalls : s.calls (.accepted (.ok version) allocated) =
                    [.acquire s.server.tasks.length allocated] := if_pos hopen
                rw [hcalls, List.forall_mem_singleton] at hreleases
                obtain ⟨client, b, hrelease⟩ := hreleases
                cases hrelease
              unfold Host.step
              dsimp only
              rw [if_neg hclosed]
    · obtain ⟨client, b, rfl⟩ := hreleases call hcall
      trivial

/-- The pool of a server has what it was made with. -/
structure Furnished (s : Host) : Prop where
  owned : s.Owned
  stocked : s.shop.Stocked
  poolSize : s.shop.pool.poolSize = 128

theorem Furnished.step (h : s.Furnished) (hpermits : s.Permits e) (hbenign : s.Benign e) :
    (s.step e).Furnished := by
  obtain ⟨howned, hdisciplined⟩ := h.owned.step hpermits hbenign
  obtain ⟨hshop, hcompletes⟩ := h.owned.shop_step hpermits hbenign
  refine ⟨howned, ?_, ?_⟩
  · rw [hshop]
    exact (always_of_invariant (fun _ _ h hpermits hcompletes => h.step hpermits hcompletes)
      h.stocked hdisciplined hcompletes).last
  · rw [hshop, poolSize_run, h.poolSize]

theorem furnished_opened (buffers : Buffers 128) : (opened buffers).Furnished :=
  ⟨owned_opened buffers, stocked_opened 8192 128 0 buffers, rfl⟩

/-- The buffers that are held are those of the open connections. -/
theorem Owned.length_held (h : s.Owned) :
    s.shop.held.length = s.server.connections.length := by
  rw [h.held.length_eq, owners, List.length_map, Server.length_numbers]

/-- Released buffers do not make the pool any larger. -/
theorem total_run_releases_le {calls : List (PoolCall ℕ)}
    (hreleases : ∀ call ∈ calls, ∃ client b, call = .release client b) (w : Shop ℕ) :
    ((pooling ℕ).run w calls).total ≤ w.total := by
  induction calls generalizing w with
  | nil => exact Nat.le_refl _
  | cons call calls ih =>
      obtain ⟨⟨client, b, rfl⟩, hrest⟩ := List.forall_mem_cons.mp hreleases
      refine (ih hrest _).trans ?_
      show (w.pool.release b).totalAllocated.toNat ≤ w.pool.totalAllocated.toNat
      unfold BufferPool.release
      split_ifs with hroom hsome
      · exact Nat.le_refl _
      · have hone : (1 : UInt64) ≤ w.pool.totalAllocated := by
          rw [UInt64.le_iff_toNat_le]
          exact UInt64.lt_iff_toNat_lt.mp hsome
        dsimp only
        rw [UInt64.toNat_sub_of_le _ _ hone]
        exact Nat.sub_le _ _
      · exact Nat.le_refl _

/-- A buffer is made only for a connection that finds none. -/
theorem Furnished.total_step_le (h : s.Furnished) (hpermits : s.Permits e)
    (hbenign : s.Benign e) :
    (s.step e).shop.total ≤ max s.shop.total (s.step e).server.connections.length := by
  obtain ⟨howned, hdisciplined⟩ := h.owned.step hpermits hbenign
  obtain ⟨hshop, hcompletes⟩ := h.owned.shop_step hpermits hbenign
  rw [← howned.length_held, hshop]
  rcases calls_cases s e with ⟨version, allocated, rfl, -, hcalls⟩ | hreleases
  · unfold Disciplined at hdisciplined
    rw [hcalls] at hdisciplined hcompletes ⊢
    have hacquire : s.shop.Permits (.acquire s.server.tasks.length allocated) := hdisciplined.1
    exact h.stocked.total_step_le hacquire hcompletes.1
  · exact (total_run_releases_le hreleases s.shop).trans (Nat.le_max_left _ _)

end Host

open Host

/-- **What a server allocates**: in every run, no more buffers than were made at the start or than
there have been open connections at one time; and once it is shut down all 128 are back. -/
theorem buffers_bounds (buffers : Buffers 128) (events : List HostEvent)
    (hrun : hosting.Run (opened buffers) events)
    (hbenign : hosting.Throughout Benign (opened buffers) events) :
    let s := hosting.run (opened buffers) events
    s.shop.pool.totalAllocated.toNat ≤
        max 128 (hosting.peak (·.server.connections.length) (opened buffers) events) ∧
      (s.server.acceptorOpen = false →
        s.shop.pool.totalAllocated = 128 ∧ s.shop.pool.pool.length = 128) := by
  intro s
  have halways : hosting.Always Furnished (opened buffers) events :=
    always_of_invariant (fun _ _ h hpermits hbenign => h.step hpermits hbenign)
      (furnished_opened buffers) hrun hbenign
  have hlast : s.Furnished := halways.last
  refine ⟨?_, fun hclosed => ?_⟩
  · exact le_max_peak (fun s : Host => s.shop.total)
      (fun s : Host => s.server.connections.length)
      (fun _ _ h hpermits hbenign => h.total_step_le hpermits hbenign) halways hrun hbenign
  · have hnone : s.shop.held = [] := by
      rw [← List.length_eq_zero_iff, hlast.owned.length_held, List.length_eq_zero_iff]
      exact hlast.owned.orderly.connections_eq_nil hclosed
    obtain ⟨htotal, hpool⟩ := hlast.stocked.restored hnone
    rw [hlast.poolSize] at htotal hpool
    exact ⟨UInt64.toNat_inj.mp htotal, hpool⟩

theorem buffers_acceptedAndShutDown :
    (hosting.run (opened .low) acceptedAndShutDown).shop.pool.totalAllocated = 128 ∧
      (hosting.run (opened .low) acceptedAndShutDown).shop.pool.pool.length = 128 := by
  refine (buffers_bounds .low acceptedAndShutDown
    ⟨⟨rfl, nofun⟩, ⟨trivial, .refl _⟩, ?_, trivial⟩
    ⟨⟨trivial, nofun⟩, ⟨trivial, trivial⟩, ⟨fun _ _ _ => rfl, trivial⟩, trivial⟩).2 rfl
  exact ⟨⟨Task.stopAll (.started 0 0), rfl, ⟨by decide, nofun⟩, trivial⟩, trivial⟩

end GinCpp.Core
