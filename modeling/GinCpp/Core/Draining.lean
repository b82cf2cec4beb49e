import GinCpp.Core.ThreadPool
import GinCpp.Transition.Potential
import Mathlib.Algebra.Order.BigOperators.Group.Finset
import Mathlib.Data.Fintype.Card

/-!
# How a thread pool drains

Left to itself, a thread pool comes to rest, and when it does, every task has been executed.

* `work_le`: in a run of `n` workers, the steps of the workers and the notifications number at most
  seven for each worker, nine for each task that is enqueued and three for each spurious wake-up.
  The bound is a potential: a task in the queue is worth five steps, a notification four, a worker
  what it has to do before it sleeps, and the destructor three for each worker that it can wake.
* `executed_of_idle`: wherever no worker can go on and no notification is pending, the queue is
  empty and every task has been executed, once.  Neither the mutex nor a wake-up that is lost to the
  destructor leaves a task behind.
* `exists_idle`: from every state that is reached the pool can come to rest by itself.
-/

namespace GinCpp.Core

open Transition System

/-- What the pool does by itself, once the tasks are enqueued. -/
def PoolStep.isWork {τ : Type*} {n : ℕ} : PoolStep τ n → Bool
  | testFlag _ | lock _ | test _ | sleep _ | dequeue _ | finish _ | notifyOne _ => true
  | wake _ | enqueue _ _ | setStop | notifyAll => false

def PoolStep.isEnqueue {τ : Type*} {n : ℕ} : PoolStep τ n → Bool
  | enqueue _ _ => true
  | _ => false

/-- A spurious wake-up. -/
def PoolStep.isWake {τ : Type*} {n : ℕ} : PoolStep τ n → Bool
  | wake _ => true
  | _ => false

/-- How many steps a worker has to take before it sleeps, apart from new tasks. -/
def Worker.rank {τ : Type*} : Worker τ → ℕ
  | running _ => 5
  | looping => 4
  | locking => 3
  | testing => 2
  | holding | missed => 1
  | asleep | returned => 0

namespace ThreadPool

variable {τ : Type*} {n : ℕ} (s : ThreadPool τ n)

/-- The steps that the workers have before them. -/
def ranks : ℕ := ∑ w, (s.workers w).rank

/-- The workers that the destructor can still wake, by the three steps of each. -/
def toWake : ℕ := if s.destructor = .joining then 0 else 3 * n

/-- The work that is left. -/
def potential : ℕ := s.ranks + 5 * s.tasks.length + 4 * s.notifications + s.toWake

variable {s} {s' : ThreadPool τ n} {e : PoolStep τ n} {v w : Fin n} {worker : Worker τ}

theorem ranks_move (w : Fin n) (worker : Worker τ) :
    (s.move w worker).ranks + (s.workers w).rank = s.ranks + worker.rank :=
  sum_move Worker.rank w worker

/-- The potential where one worker goes on. -/
theorem potential_move (hw : s.workers w = worker) (worker' : Worker τ) :
    (s.move w worker').potential + worker.rank = s.potential + worker'.rank := by
  have hranks := ranks_move (s := s) w worker'
  rw [hw] at hranks
  show (s.move w worker').ranks + 5 * s.tasks.length + 4 * s.notifications + s.toWake + _ = _
  unfold potential
  omega

theorem potential_move_lt {worker' : Worker τ} (hw : s.workers w = worker)
    (hrank : worker'.rank < worker.rank) :
    (s.move w worker').potential < s.potential := by
  have hmove := potential_move hw worker'
  omega

theorem rank_woken_le (worker : Worker τ) : worker.woken.rank ≤ worker.rank + 3 := by
  cases worker with
  | asleep => exact Nat.le_refl 3
  | _ => exact Nat.le_add_right _ 3

theorem rank_le_rank_woken (worker : Worker τ) : worker.rank ≤ worker.woken.rank := by
  cases worker with
  | asleep => exact Nat.zero_le 3
  | _ => exact Nat.le_refl _

/-- The destructor wakes each worker at most once. -/
theorem ranks_notifyAll_le : (s.step .notifyAll).ranks ≤ s.ranks + 3 * n := by
  calc (s.step .notifyAll).ranks
      ≤ ∑ w, ((s.workers w).rank + 3) := Finset.sum_le_sum fun w _ => rank_woken_le _
    _ = s.ranks + 3 * n := by
        rw [Finset.sum_add_distrib, Finset.sum_const, Finset.card_univ, Fintype.card_fin,
          Nat.mul_comm]
        rfl

/-- The destructor wakes with what was kept for it. -/
theorem potential_notifyAll_le (hcalled : s.destructor = .flagSet) :
    (s.step .notifyAll).potential ≤ s.potential := by
  have hranks := ranks_notifyAll_le (s := s)
  have hbefore : s.toWake = 3 * n := by simp [toWake, hcalled]
  have hafter : (s.step .notifyAll).toWake = 0 := if_pos rfl
  show (s.step .notifyAll).ranks + 5 * s.tasks.length + 4 * s.notifications + _ ≤ _
  unfold potential
  omega

/-- The work that a step brings. -/
def gain (e : PoolStep τ n) : ℕ := 9 * e.isEnqueue.toNat + 3 * e.isWake.toNat

/-- A worker takes a task, which pays for its execution. -/
theorem potential_take_lt {task : τ} {tasks : List τ} (hw : s.workers w = .holding)
    (htasks : s.tasks = task :: tasks) :
    ({ s.move w (.running task) with
      mutex := none, tasks := tasks, taken := s.taken ++ [task] } : ThreadPool τ n).potential <
      s.potential := by
  have hranks := ranks_move (s := s) w (.running task)
  rw [hw, Worker.rank, Worker.rank] at hranks
  have hlength : s.tasks.length = tasks.length + 1 := by rw [htasks, List.length_cons]
  show (s.move w (.running task)).ranks + 5 * tasks.length + 4 * s.notifications + s.toWake < _
  unfold potential
  omega

/-- A notification is issued, to a sleeper if there is one. -/
theorem potential_notifyOne_lt {woken : Option (Fin n)} (hpermits : s.Permits (.notifyOne woken)) :
    (s.step (.notifyOne woken)).potential < s.potential := by
  cases woken with
  | none =>
      have hpending : 0 < s.notifications := hpermits.1
      show s.ranks + 5 * s.tasks.length + 4 * (s.notifications - 1) + s.toWake < _
      unfold potential
      omega
  | some w =>
      have hpending : 0 < s.notifications := hpermits.1
      have hranks := ranks_move (s := s) w .locking
      rw [hpermits.2, Worker.rank, Worker.rank] at hranks
      show (s.move w .locking).ranks + 5 * s.tasks.length + 4 * (s.notifications - 1) +
        s.toWake < _
      unfold potential
      omega

/-- Work uses the potential up. -/
theorem potential_step_lt (h : s.Located) (hpermits : s.Permits e) (hwork : e.isWork) :
    (s.step e).potential < s.potential := by
  cases e with
  | testFlag w =>
      have hgoes : s.step (.testFlag w) = s.move w .locking := by
        simp [step, h.stopFlags]
      rw [hgoes]
      exact potential_move_lt hpermits (Nat.lt_succ_self 3)
  | lock w => exact potential_move_lt hpermits.1 (Nat.lt_succ_self 2)
  | test w =>
      show (s.move w (if s.stop || !s.tasks.isEmpty then .holding else .missed)).potential < _
      apply potential_move_lt hpermits
      split
      · exact Nat.lt_succ_self 1
      · exact Nat.lt_succ_self 1
  | sleep w => exact potential_move_lt hpermits (Nat.lt_succ_self 0)
  | dequeue w =>
      rcases h.dequeue_cases hpermits with ⟨-, -, hstep⟩ | ⟨task, tasks, htasks, hstep⟩
      · rw [hstep]
        exact potential_move_lt hpermits (Nat.lt_succ_self 0)
      · rw [hstep]
        exact potential_take_lt hpermits htasks
  | finish w =>
      obtain ⟨task, hw⟩ := hpermits
      rw [step_finish hw]
      exact potential_move_lt hw (Nat.lt_succ_self 4)
  | notifyOne woken => exact potential_notifyOne_lt hpermits
  | wake w => cases hwork
  | enqueue caller task => cases hwork
  | setStop => cases hwork
  | notifyAll => cases hwork

/-- **The potential pays for the work**, step by step. -/
theorem potential_step_le (h : s.Located) (hpermits : s.Permits e) :
    (s.step e).potential + e.isWork.toNat ≤ s.potential + gain e := by
  by_cases hwork : e.isWork
  · have hless := potential_step_lt h hpermits hwork
    have hone : e.isWork.toNat = 1 := by rw [hwork, Bool.toNat_true]
    omega
  · cases e with
    | wake w =>
        have hmove := potential_move (s := s) hpermits .locking
        exact hmove.le
    | enqueue caller task =>
        show s.ranks + 5 * (s.tasks ++ [task]).length + 4 * (s.notifications + 1) + s.toWake ≤
          s.potential + 9
        rw [List.length_append, List.length_singleton]
        unfold potential
        omega
    | setStop =>
        have hnot : s.destructor = .notCalled := hpermits
        have hwake : (s.step .setStop).toWake = s.toWake := by simp [toWake, step, hnot]
        show s.ranks + 5 * s.tasks.length + 4 * s.notifications + (s.step .setStop).toWake ≤
          s.potential
        exact hwake ▸ Nat.le_refl _
    | notifyAll => exact potential_notifyAll_le hpermits
    | _ => exact absurd rfl hwork

theorem potential_init : potential ({} : ThreadPool τ n) = 7 * n := by
  have hranks : ranks ({} : ThreadPool τ n) = n * 4 := by
    show ∑ _w : Fin n, 4 = n * 4
    rw [Finset.sum_const, Finset.card_univ, Fintype.card_fin]
    rfl
  have hwake : toWake ({} : ThreadPool τ n) = 3 * n := rfl
  show ranks _ + 5 * 0 + 4 * 0 + toWake _ = _
  omega

/-! ## Where it comes to rest -/

/-- A task in the queue is seen to: a notification is pending, or a worker is awake. -/
def Attended (s : ThreadPool τ n) : Prop :=
  s.tasks ≠ [] → 0 < s.notifications ∨ ∃ w, 0 < (s.workers w).rank

theorem rank_pos (hasleep : worker ≠ .asleep) (hreturned : worker ≠ .returned) :
    0 < worker.rank := by
  cases worker with
  | asleep => exact absurd rfl hasleep
  | returned => exact absurd rfl hreturned
  | _ => exact Nat.succ_pos _

namespace Attended

/-- A worker goes on and is still awake. -/
theorem of_move (worker : Worker τ)
    (hworkers : s'.workers = (s.move w worker).workers) (hrank : 0 < worker.rank) :
    s'.Attended := by
  intro _
  refine .inr ⟨w, ?_⟩
  rw [hworkers, workers_move]
  exact hrank

theorem of_tasks_eq_nil (htasks : s.tasks = []) : s.Attended := fun hne => absurd htasks hne

/-- A notification that finds nobody asleep is not needed: not all workers have returned. -/
theorem notifyOne_none (haccounted : s.Accounted) (hpermits : s.Permits (.notifyOne none)) :
    (s.step (.notifyOne none)).Attended := by
  intro htasks
  have hreturned : ¬ ∀ w, s.workers w = .returned := fun hall => htasks (haccounted.drained hall)
  obtain ⟨w, hw⟩ := not_forall.mp hreturned
  exact .inr ⟨w, rank_pos (hpermits.2 w) hw⟩

/-- **No wake-up is lost on a task.** -/
theorem step (h : s.Attended) (hlocated : s.Located) (haccounted : s.Accounted)
    (hpermits : s.Permits e) : (s.step e).Attended := by
  cases e with
  | testFlag w =>
      have hgoes : s.step (.testFlag w) = s.move w .locking := by
        simp [ThreadPool.step, hlocated.stopFlags]
      rw [hgoes]
      exact of_move .locking rfl (Nat.succ_pos 2)
  | lock w => exact of_move (s := s) (w := w) .testing rfl (Nat.succ_pos 1)
  | test w =>
      apply of_move (s := s) (w := w) _ rfl
      split
      · exact Nat.one_pos
      · exact Nat.one_pos
  | sleep w =>
      -- nobody enqueues between the test and the sleep, which are under the mutex
      have hmissed := hlocated.of_assertion hpermits
      exact of_tasks_eq_nil hmissed.2
  | wake w => exact of_move (s := s) (w := w) .locking rfl (Nat.succ_pos 2)
  | dequeue w =>
      rcases hlocated.dequeue_cases hpermits with ⟨-, htasks, hstep⟩ | ⟨task, tasks, -, hstep⟩
      · rw [hstep]
        exact of_tasks_eq_nil htasks
      · rw [hstep]
        exact of_move (s := s) (w := w) (.running task) rfl (Nat.succ_pos 4)
  | finish w =>
      obtain ⟨task, hw⟩ := hpermits
      rw [step_finish hw]
      exact of_move (s := s) (w := w) .looping rfl (Nat.succ_pos 3)
  | enqueue caller task => exact fun _ => .inl (Nat.succ_pos _)
  | notifyOne woken =>
      cases woken with
      | none => exact notifyOne_none haccounted hpermits
      | some w => exact of_move (s := s) (w := w) .locking rfl (Nat.succ_pos 2)
  | setStop => exact h
  | notifyAll =>
      intro htasks
      refine (h htasks).imp_right ?_
      rintro ⟨w, hw⟩
      exact ⟨w, hw.trans_le (rank_le_rank_woken _)⟩

end Attended

/-- What is kept by every step. -/
structure Sound (s : ThreadPool τ n) : Prop where
  located : s.Located
  accounted : s.Accounted
  attended : s.Attended

theorem sound_init : Sound ({} : ThreadPool τ n) :=
  ⟨located_init, accounted_init, Attended.of_tasks_eq_nil rfl⟩

theorem Sound.step (h : s.Sound) (hn : 0 < n) (hpermits : s.Permits e) : (s.step e).Sound :=
  ⟨h.located.step hpermits, h.accounted.step h.located hn hpermits,
    h.attended.step h.located h.accounted hpermits⟩

/-- Nothing can be done by the pool itself. -/
abbrev Idle (s : ThreadPool τ n) : Prop := (working τ n).Quiescent (fun e => e.isWork) s

/-- The mutex is never with a worker that waits for something else. -/
theorem Idle.mutex_eq_none (hidle : s.Idle) (h : s.Located) : s.mutex = none := by
  by_contra hheld
  obtain ⟨w, hw⟩ := Option.ne_none_iff_exists'.mp hheld
  have hassertion := h.workers w
  cases hworker : s.workers w with
  | testing => exact hidle (.test w) rfl hworker
  | holding => exact hidle (.dequeue w) rfl hworker
  | missed => exact hidle (.sleep w) rfl hworker
  | returned =>
      rw [hworker] at hassertion
      exact hassertion.1 hw
  | _ =>
      rw [hworker] at hassertion
      exact hassertion hw

/-- A pool that is idle has put its workers to sleep, or they have returned. -/
theorem Idle.resting (hidle : s.Idle) (h : s.Located) (w : Fin n) :
    s.workers w = .asleep ∨ s.workers w = .returned := by
  cases hworker : s.workers w with
  | asleep => exact .inl rfl
  | returned => exact .inr rfl
  | looping => exact (hidle (.testFlag w) rfl hworker).elim
  | locking => exact (hidle (.lock w) rfl ⟨hworker, hidle.mutex_eq_none h⟩).elim
  | testing => exact (hidle (.test w) rfl hworker).elim
  | holding => exact (hidle (.dequeue w) rfl hworker).elim
  | missed => exact (hidle (.sleep w) rfl hworker).elim
  | running task => exact (hidle (.finish w) rfl ⟨task, hworker⟩).elim

theorem Idle.notifications_eq_zero (hidle : s.Idle) : s.notifications = 0 := by
  by_contra hpending
  have hpositive := Nat.pos_of_ne_zero hpending
  by_cases hasleep : ∃ w, s.workers w = .asleep
  · obtain ⟨w, hw⟩ := hasleep
    exact hidle (.notifyOne (some w)) rfl ⟨hpositive, hw⟩
  · exact hidle (.notifyOne none) rfl ⟨hpositive, not_exists.mp hasleep⟩

/-- **An idle pool has done everything.** -/
theorem Idle.executed (hidle : s.Idle) (h : s.Sound) :
    s.tasks = [] ∧ s.executed.Perm s.enqueued := by
  have hasleep := hidle.resting h.located
  have htasks : s.tasks = [] := by
    by_contra hne
    rcases h.attended hne with hpending | ⟨w, hw⟩
    · have := hidle.notifications_eq_zero
      omega
    · rcases hasleep w with hworker | hworker
      · simp [hworker, Worker.rank] at hw
      · simp [hworker, Worker.rank] at hw
  have hrunning : s.running = 0 := by
    refine Finset.sum_eq_zero fun w _ => ?_
    rcases hasleep w with hworker | hworker
    · rw [hworker, Worker.task]
    · rw [hworker, Worker.task]
  refine ⟨htasks, ?_⟩
  rw [← Multiset.coe_eq_coe]
  calc (s.executed : Multiset τ)
      = s.executed + s.running := by rw [hrunning, add_zero]
    _ = s.taken := h.accounted.executed
    _ = s.enqueued := by rw [h.accounted.queue, htasks, List.append_nil]

end ThreadPool

open ThreadPool

variable {τ : Type*} {n : ℕ}

theorem sound_always {steps : List (PoolStep τ n)} (hn : 0 < n)
    (hrun : (working τ n).Run {} steps) : (working τ n).Always Sound {} steps :=
  always_of_invariant (fun _ _ h hpermits _ => h.step hn hpermits) sound_init hrun hrun

theorem sum_gain (steps : List (PoolStep τ n)) :
    (steps.map gain).sum =
      9 * steps.countP PoolStep.isEnqueue + 3 * steps.countP PoolStep.isWake := by
  unfold gain
  induction steps with
  | nil => rfl
  | cons e steps ih =>
      rw [List.map_cons, List.sum_cons, ih, List.countP_cons, List.countP_cons]
      cases e.isEnqueue <;> cases e.isWake <;> simp <;> omega

/-- **The pool does not run on.** -/
theorem work_le (steps : List (PoolStep τ n)) (hrun : (working τ n).Run {} steps) :
    steps.countP PoolStep.isWork ≤
      7 * n + 9 * steps.countP PoolStep.isEnqueue + 3 * steps.countP PoolStep.isWake := by
  have hstep : ∀ (s : ThreadPool τ n) (e : PoolStep τ n), s.Located → s.Permits e → s.Permits e →
      (s.step e).potential + e.isWork.toNat ≤ s.potential + gain e := fun _ _ h hpermits _ =>
    potential_step_le h hpermits
  have hpaid := potential_run_le potential _ gain hstep (located_always hrun) hrun hrun
  rw [sum_map_toNat_eq_countP, sum_gain, potential_init] at hpaid
  omega

theorem work_le_stoppedWhileQueued :
    stoppedWhileQueued.countP PoolStep.isWork ≤
      7 * 1 + 9 * stoppedWhileQueued.countP PoolStep.isEnqueue +
        3 * stoppedWhileQueued.countP PoolStep.isWake :=
  work_le stoppedWhileQueued run_stoppedWhileQueued

/-- **No task is left behind.** -/
theorem executed_of_idle (steps : List (PoolStep τ n)) (hn : 0 < n)
    (hrun : (working τ n).Run {} steps) (hidle : ((working τ n).run {} steps).Idle) :
    ((working τ n).run {} steps).tasks = [] ∧
      ((working τ n).run {} steps).executed.Perm ((working τ n).run {} steps).enqueued ∧
      ∀ w, ((working τ n).run {} steps).workers w = .asleep ∨
        ((working τ n).run {} steps).workers w = .returned := by
  have hsound := (sound_always hn hrun).last
  obtain ⟨htasks, hexecuted⟩ := hidle.executed hsound
  exact ⟨htasks, hexecuted, hidle.resting hsound.located⟩

theorem idle_stoppedWhileQueued : ((working ℕ 1).run {} stoppedWhileQueued).Idle := by
  have hreturned : ∀ w, ((working ℕ 1).run {} stoppedWhileQueued).workers w = .returned := by
    intro w
    rw [Subsingleton.elim w 0]
    rfl
  intro e hwork hpermits
  cases e with
  | testFlag w => cases (hreturned w).symm.trans hpermits
  | lock w => cases (hreturned w).symm.trans hpermits.1
  | test w => cases (hreturned w).symm.trans hpermits
  | sleep w => cases (hreturned w).symm.trans hpermits
  | dequeue w => cases (hreturned w).symm.trans hpermits
  | finish w =>
      obtain ⟨task, hw⟩ := hpermits
      cases (hreturned w).symm.trans hw
  | notifyOne woken =>
      cases woken with
      | none => exact absurd hpermits.1 (Nat.lt_irrefl 0)
      | some w => exact absurd hpermits.1 (Nat.lt_irrefl 0)
  | _ => cases hwork

theorem executed_stoppedWhileQueued :
    ((working ℕ 1).run {} stoppedWhileQueued).tasks = [] ∧
      ((working ℕ 1).run {} stoppedWhileQueued).executed.Perm
        ((working ℕ 1).run {} stoppedWhileQueued).enqueued ∧
      ∀ w, ((working ℕ 1).run {} stoppedWhileQueued).workers w = .asleep ∨
        ((working ℕ 1).run {} stoppedWhileQueued).workers w = .returned :=
  executed_of_idle stoppedWhileQueued Nat.one_pos run_stoppedWhileQueued idle_stoppedWhileQueued

/-- Whatever has happened, the pool can come to rest by itself, and has executed every task then. -/
theorem exists_executed (steps : List (PoolStep τ n)) (hn : 0 < n)
    (hrun : (working τ n).Run {} steps) :
    ∃ rest, (∀ e ∈ rest, e.isWork) ∧ (working τ n).Run {} (steps ++ rest) ∧
      ((working τ n).run {} (steps ++ rest)).executed.Perm
        ((working τ n).run {} (steps ++ rest)).enqueued := by
  have hsound := (sound_always hn hrun).last
  obtain ⟨rest, hwork, hrest, hidle⟩ := exists_quiescent (S := working τ n)
    (fun e => e.isWork) ThreadPool.potential
    (fun _ _ (h : Sound _) hpermits => h.step hn hpermits)
    (fun _ _ h hpermits hwork => potential_step_lt h.located hpermits hwork) hsound
  have hall : (working τ n).Run {} (steps ++ rest) := throughout_append.mpr ⟨hrun, hrest⟩
  have hend := (sound_always hn hall).last
  rw [← run_append] at hidle
  exact ⟨rest, hwork, hall, (Idle.executed hidle hend).2⟩

end GinCpp.Core
