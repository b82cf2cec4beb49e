import GinCpp.Transition.Potential
import Mathlib.Algebra.Order.BigOperators.Group.Finset
import Mathlib.Data.Fintype.EquivFin
import Mathlib.Data.Fintype.Lattice

/-!
# Nested locks

Each of many tasks acquires locks one after another, as its plan says, works when it has them all,
and releases them in the opposite order.  It may turn back as soon as it has acquired one.  A lock
is held by one task at a time (`exclusive_run`), also by the one that asks for it again.

If all plans ascend in one order of the locks, some task can always go on until all are done
(`Exclusive.exists_enabled`).  No run is longer than the plans allow (`length_le`).  Tasks that all
wait for each other wait for ever (`waiting_run`).
-/

namespace GinCpp.Locks

open Transition System

variable {ι L : Type*}

/-- How far a task is. -/
inductive LockPhase
  /-- In front of a lock of its plan, or of the work. -/
  | entering (position : ℕ)
  /-- It has just acquired the lock. -/
  | deciding (position : ℕ)
  /-- On its way out, with as many locks. -/
  | leaving (depth : ℕ)
  deriving DecidableEq

inductive Move
  | acquire | proceed | refuse | work | release
  deriving DecidableEq

namespace LockPhase

/-- How many locks it holds. -/
def depth : LockPhase → ℕ
  | entering d => d
  | deciding d => d + 1
  | leaving d => d

/-- A task has begun with no lock, and is done with none. -/
def done : LockPhase := leaving 0

def move : Move → LockPhase → LockPhase
  | .acquire, entering d => deciding d
  | .proceed, deciding d => entering (d + 1)
  | .refuse, deciding d => leaving (d + 1)
  | .work, entering d => leaving d
  | .release, leaving d => leaving (d - 1)
  | _, phase => phase

end LockPhase

/-- The locks that a task holds. -/
def held (plan : ι → List L) (s : ι → LockPhase) (i : ι) : List L := (plan i).take (s i).depth

/-- When a task can make a move. -/
def Enabled (plan : ι → List L) (s : ι → LockPhase) (i : ι) : Move → Prop
  | .acquire => ∃ d l, s i = .entering d ∧ (plan i)[d]? = some l ∧ ∀ j, l ∉ held plan s j
  | .proceed => ∃ d, s i = .deciding d
  | .refuse => ∃ d, s i = .deciding d
  | .work => s i = .entering (plan i).length
  | .release => ∃ d, s i = .leaving (d + 1)

variable {plan : ι → List L} {s : ι → LockPhase} {i j : ι} {m : Move} {l : L}

/-- No task holds more locks than its plan has, nor one of them twice, and no two hold the same. -/
structure Exclusive (plan : ι → List L) (s : ι → LockPhase) : Prop where
  depth_le : ∀ i, (s i).depth ≤ (plan i).length
  nodup : ∀ i, (held plan s i).Nodup
  eq : ∀ i j l, l ∈ held plan s i → l ∈ held plan s j → i = j

/-- A move acquires the next lock of the plan, or goes no deeper. -/
theorem depth_step (hmove : Enabled plan s i m) :
    (∃ l, (plan i)[(s i).depth]? = some l ∧ (∀ j, l ∉ held plan s j) ∧
        ((s i).move m).depth = (s i).depth + 1) ∨
      ((s i).move m).depth ≤ (s i).depth := by
  cases m with
  | acquire =>
      obtain ⟨d, l, hphase, hnext, hfree⟩ := hmove
      rw [hphase]
      exact .inl ⟨l, hnext, hfree, rfl⟩
  | proceed =>
      obtain ⟨d, hphase⟩ := hmove
      rw [hphase]
      exact .inr le_rfl
  | refuse =>
      obtain ⟨d, hphase⟩ := hmove
      rw [hphase]
      exact .inr le_rfl
  | work =>
      rw [show s i = .entering (plan i).length from hmove]
      exact .inr le_rfl
  | release =>
      obtain ⟨d, hphase⟩ := hmove
      rw [hphase]
      exact .inr (Nat.le_succ d)

/-- The tasks before their first lock. -/
def start (ι : Type*) : ι → LockPhase := fun _ => .entering 0

theorem exclusive_start (plan : ι → List L) : Exclusive plan (start ι) where
  depth_le _ := Nat.zero_le _
  nodup _ := List.nodup_nil
  eq _ _ _ h := absurd h List.not_mem_nil

/-- A plan that asks for a lock again is never worked off. -/
theorem Exclusive.not_enabled_work (h : Exclusive plan s) (hplan : ¬ (plan i).Nodup) :
    ¬ Enabled plan s i .work := by
  intro hwork
  have hall : held plan s i = plan i := by
    rw [held, show s i = .entering (plan i).length from hwork]
    exact List.take_length
  exact hplan (hall ▸ h.nodup i)

/-! ## No deadlock -/

/-- The rank of the lock that a task asks for, from one on. -/
def wantedRank (plan : ι → List L) (rank : L → ℕ) (s : ι → LockPhase) (i : ι) : ℕ :=
  match s i with
  | .entering d => ((plan i)[d]?).elim 0 fun l => rank l + 1
  | _ => 0

/-- **Where all plans ascend, some task can go on** as long as not all are done. -/
theorem Exclusive.exists_enabled [Finite ι] (h : Exclusive plan s) {rank : L → ℕ}
    (hrank : ∀ i, (plan i).Pairwise (rank · < rank ·)) (hi : s i ≠ .done) :
    ∃ j m, Enabled plan s j m := by
  by_contra hnone
  have hstuck : ∀ j m, ¬ Enabled plan s j m := fun j m hmove => hnone ⟨j, m, hmove⟩
  -- a task that is not done waits for a lock that another one holds
  have hwaits : ∀ j, s j ≠ .done → ∃ d l k, s j = .entering d ∧ (plan j)[d]? = some l ∧
      l ∈ held plan s k := by
    intro j hj
    cases hphase : s j with
    | entering d =>
        have hle : d ≤ (plan j).length := by
          have := h.depth_le j
          rwa [hphase] at this
        rcases hle.lt_or_eq with hlt | rfl
        · have hnext : (plan j)[d]? = some (plan j)[d] := List.getElem?_eq_getElem hlt
          by_cases hfree : ∀ k, (plan j)[d] ∉ held plan s k
          · exact absurd ⟨d, _, hphase, hnext, hfree⟩ (hstuck j .acquire)
          · obtain ⟨k, hk⟩ := not_forall_not.mp hfree
            exact ⟨d, _, k, rfl, hnext, hk⟩
        · exact absurd hphase (hstuck j .work)
    | deciding d => exact absurd ⟨d, hphase⟩ (hstuck j .proceed)
    | leaving d =>
        cases d with
        | zero => exact absurd hphase hj
        | succ d => exact absurd ⟨d, hphase⟩ (hstuck j .release)
  -- the one that holds it waits for a lock of a higher rank
  have hhigher : ∀ j, s j ≠ .done → ∃ k, s k ≠ .done ∧
      wantedRank plan rank s j < wantedRank plan rank s k := by
    intro j hj
    obtain ⟨d, l, k, hphase, hnext, hheld⟩ := hwaits j hj
    have hk : s k ≠ .done := by
      intro hdone
      rw [held, hdone] at hheld
      exact absurd hheld List.not_mem_nil
    obtain ⟨d', l', -, hphase', hnext', -⟩ := hwaits k hk
    refine ⟨k, hk, ?_⟩
    obtain ⟨hlt', hl'⟩ := List.getElem?_eq_some_iff.mp hnext'
    rw [held, hphase'] at hheld
    obtain ⟨n, hn, hln⟩ := List.mem_take_iff_getElem.mp hheld
    have hless : rank l < rank l' := by
      rw [← hln, ← hl']
      exact List.pairwise_iff_getElem.mp (hrank k) n d' _ hlt' (lt_min_iff.mp hn).1
    rw [wantedRank, wantedRank, hphase, hphase']
    dsimp only
    rw [hnext, hnext']
    exact Nat.succ_lt_succ hless
  have hne : Nonempty {j // s j ≠ .done} := ⟨⟨i, hi⟩⟩
  obtain ⟨⟨j, hj⟩, hmax⟩ :=
    Finite.exists_max fun j : {j // s j ≠ .done} => wantedRank plan rank s j
  obtain ⟨k, hk, hlt⟩ := hhigher j hj
  exact absurd (hmax ⟨k, hk⟩) (not_le.mpr hlt)

/-! ## No livelock -/

/-- The moves that are left, at most. -/
def LockPhase.left (size : ℕ) : LockPhase → ℕ
  | .entering d => size + 1 + 2 * (size - d)
  | .deciding d => size + 2 * (size - d)
  | .leaving d => d

theorem left_move_lt (hmove : Enabled plan s i m) (hdepth : (s i).depth ≤ (plan i).length) :
    ((s i).move m).left (plan i).length < (s i).left (plan i).length := by
  cases m with
  | acquire =>
      obtain ⟨d, l, hphase, hnext, -⟩ := hmove
      have hlt := (List.getElem?_eq_some_iff.mp hnext).1
      rw [hphase]
      simp only [LockPhase.move, LockPhase.left]
      omega
  | proceed =>
      obtain ⟨d, hphase⟩ := hmove
      rw [hphase] at hdepth ⊢
      simp only [LockPhase.move, LockPhase.left, LockPhase.depth] at hdepth ⊢
      omega
  | refuse =>
      obtain ⟨d, hphase⟩ := hmove
      rw [hphase] at hdepth ⊢
      simp only [LockPhase.move, LockPhase.left, LockPhase.depth] at hdepth ⊢
      omega
  | work =>
      rw [show s i = .entering (plan i).length from hmove]
      simp only [LockPhase.move, LockPhase.left]
      omega
  | release =>
      obtain ⟨d, hphase⟩ := hmove
      rw [hphase]
      simp only [LockPhase.move, LockPhase.left]
      omega

/-! ## The tasks together -/

section

variable [DecidableEq ι]

/-- The tasks with their locks. -/
def locking (plan : ι → List L) : System (ι → LockPhase) (ι × Move) where
  Permits s step := Enabled plan s step.1 step.2
  step s step := Function.update s step.1 ((s step.1).move step.2)

theorem held_step_of_ne (h : j ≠ i) :
    held plan ((locking plan).step s (i, m)) j = held plan s j := by
  rw [held, held, locking]
  dsimp only
  rw [Function.update_of_ne h]

theorem phase_step : (locking plan).step s (i, m) i = (s i).move m := Function.update_self ..

/-- What a task holds after a move: a lock more that nobody held, or no more than before. -/
theorem held_step (hmove : Enabled plan s i m) :
    (∃ l, held plan ((locking plan).step s (i, m)) i = held plan s i ++ [l] ∧
        ∀ j, l ∉ held plan s j) ∨
      held plan ((locking plan).step s (i, m)) i <+: held plan s i := by
  rw [held, held, phase_step]
  rcases depth_step hmove with ⟨l, hnext, hfree, hdepth⟩ | hdepth
  · obtain ⟨hlt, hl⟩ := List.getElem?_eq_some_iff.mp hnext
    left
    refine ⟨l, ?_, hfree⟩
    rw [hdepth, ← hl]
    exact (List.take_append_getElem hlt).symm
  · exact .inr (List.take_prefix_take_left hdepth)

theorem Exclusive.step (h : Exclusive plan s) (hmove : Enabled plan s i m) :
    Exclusive plan ((locking plan).step s (i, m)) := by
  have hmem : ∀ l, l ∈ held plan ((locking plan).step s (i, m)) i →
      l ∈ held plan s i ∨ ∀ j, l ∉ held plan s j := by
    intro l hl
    rcases held_step hmove with ⟨l', hheld, hfree⟩ | hshorter
    · rw [hheld, List.mem_append, List.mem_singleton] at hl
      rcases hl with hl | rfl
      · exact .inl hl
      · exact .inr hfree
    · exact .inl (hshorter.subset hl)
  constructor
  · intro k
    by_cases hk : k = i
    · subst hk
      rw [phase_step]
      rcases depth_step hmove with ⟨l, hnext, -, hdepth⟩ | hdepth
      · rw [hdepth]
        exact (List.getElem?_eq_some_iff.mp hnext).1
      · exact hdepth.trans (h.depth_le k)
    · have hsame : (locking plan).step s (i, m) k = s k := Function.update_of_ne hk ..
      rw [hsame]
      exact h.depth_le k
  · intro k
    by_cases hk : k = i
    · subst hk
      rcases held_step hmove with ⟨l, hheld, hfree⟩ | hshorter
      · rw [hheld]
        exact List.nodup_append'.mpr ⟨h.nodup k, List.nodup_singleton l,
          List.disjoint_singleton.mpr (hfree k)⟩
      · exact hshorter.sublist.nodup (h.nodup k)
    · rw [held_step_of_ne hk]
      exact h.nodup k
  · intro k k' l hk hk'
    by_cases hki : k = i <;> by_cases hki' : k' = i
    · rw [hki, hki']
    · subst hki
      rw [held_step_of_ne hki'] at hk'
      rcases hmem l hk with hold | hfree
      · exact h.eq k k' l hold hk'
      · exact absurd hk' (hfree k')
    · subst hki'
      rw [held_step_of_ne hki] at hk
      rcases hmem l hk' with hold | hfree
      · exact h.eq k k' l hk hold
      · exact absurd hk (hfree k)
    · rw [held_step_of_ne hki] at hk
      rw [held_step_of_ne hki'] at hk'
      exact h.eq k k' l hk hk'

/-- **A lock is held by one task at a time.** -/
theorem exclusive_run {steps : List (ι × Move)} (hrun : (locking plan).Run (start ι) steps) :
    (locking plan).Always (Exclusive plan) (start ι) steps :=
  always_of_invariant (fun _ _ h hpermits _ => h.step hpermits) (exclusive_start plan) hrun
    (throughout_of_forall (Q := fun _ _ => True) fun _ _ _ => trivial)

/-- **Tasks that wait for locks of each other stay where they are.** -/
theorem waiting_run {W : Set ι} {steps : List (ι × Move)}
    (hwaits : ∀ i ∈ W, ∃ d l, s i = .entering d ∧ (plan i)[d]? = some l ∧
      ∃ j ∈ W, l ∈ held plan s j)
    (hrun : (locking plan).Run s steps) : ∀ i ∈ W, (locking plan).run s steps i = s i := by
  have hstep : ∀ t (step : ι × Move), (∀ i ∈ W, t i = s i) → (locking plan).Permits t step → True →
      ∀ i ∈ W, (locking plan).step t step i = s i := by
    intro t ⟨k, m⟩ hsame hmove _ i hi
    have hne : i ≠ k := by
      rintro rfl
      obtain ⟨d, l, hphase, hnext, j, hj, hheld⟩ := hwaits i hi
      rw [← hsame i hi] at hphase
      have hmove : Enabled plan t i m := hmove
      cases m with
      | acquire =>
          obtain ⟨d', l', hphase', hnext', hfree⟩ := hmove
          obtain rfl : d' = d := LockPhase.entering.inj (hphase'.symm.trans hphase)
          obtain rfl : l' = l := Option.some.inj (hnext'.symm.trans hnext)
          refine hfree j ?_
          rwa [held, hsame j hj]
      | proceed =>
          obtain ⟨d', hphase'⟩ := hmove
          exact absurd (hphase.symm.trans hphase') LockPhase.noConfusion
      | refuse =>
          obtain ⟨d', hphase'⟩ := hmove
          exact absurd (hphase.symm.trans hphase') LockPhase.noConfusion
      | work =>
          have hphase' : t i = .entering (plan i).length := hmove
          have hlt := (List.getElem?_eq_some_iff.mp hnext).1
          exact absurd (LockPhase.entering.inj (hphase.symm.trans hphase')) hlt.ne
      | release =>
          obtain ⟨d', hphase'⟩ := hmove
          exact absurd (hphase.symm.trans hphase') LockPhase.noConfusion
    exact (Function.update_of_ne hne ..).trans (hsame i hi)
  exact (always_of_invariant hstep (fun _ _ => rfl) hrun
    (throughout_of_forall fun _ _ _ => trivial)).last

/-- **A run is no longer than the plans allow**: three moves for each lock and one for the work. -/
theorem length_le [Fintype ι] {steps : List (ι × Move)}
    (hrun : (locking plan).Run (start ι) steps) :
    steps.length ≤ ∑ i, (3 * (plan i).length + 1) := by
  have hless : ∀ s (step : ι × Move), Exclusive plan s → (locking plan).Permits s step → True →
      ∑ i, ((locking plan).step s step i).left (plan i).length <
        ∑ i, (s i).left (plan i).length := by
    intro s ⟨i, m⟩ h hmove _
    have hself : ((locking plan).step s (i, m) i).left (plan i).length <
        (s i).left (plan i).length := by
      rw [phase_step]
      exact left_move_lt hmove (h.depth_le i)
    refine Finset.sum_lt_sum (fun j _ => ?_) ⟨i, Finset.mem_univ i, hself⟩
    by_cases hj : j = i
    · exact hj ▸ hself.le
    · have hsame : (locking plan).step s (i, m) j = s j := Function.update_of_ne hj ..
      rw [hsame]
  have hlength := length_add_potential_le (fun s : ι → LockPhase => ∑ i, (s i).left (plan i).length)
    hless (exclusive_run hrun) hrun (throughout_of_forall fun _ _ _ => trivial)
  have hstart : ∑ i, (start ι i).left (plan i).length = ∑ i, (3 * (plan i).length + 1) := by
    refine Finset.sum_congr rfl fun i _ => ?_
    simp only [start, LockPhase.left]
    omega
  omega

end

end GinCpp.Locks
