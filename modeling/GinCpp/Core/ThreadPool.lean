import GinCpp.Transition.Basic
import Mathlib.Algebra.BigOperators.Group.Finset.Basic
import Mathlib.Algebra.Order.Group.Multiset
import Mathlib.Data.Fintype.Basic

/-!
# The thread pool

The workers, the callers of `enqueue` and the destructor of a `ThreadPool` take their steps in any
order.  What is done under the mutex is a single step where nothing else can come in between; the
wait of a worker is several, since the destructor sets `stop_` and notifies without the mutex.

Every task that is enqueued before the destructor is called, or by a running task, is executed
exactly once (`exactlyOnce_always`).
-/

namespace GinCpp.Core

open Transition System

/-- Where a worker is in `worker_thread`. -/
inductive Worker (τ : Type*)
  /-- About to test its stop flag. -/
  | looping
  /-- Waiting for the mutex, before the wait or on its way out of a sleep in it. -/
  | locking
  /-- With the mutex, about to evaluate the predicate of the wait. -/
  | testing
  /-- With the mutex, the predicate found true. -/
  | holding
  /-- With the mutex, the predicate found false. -/
  | missed
  | asleep
  /-- Executing a task, without the mutex. -/
  | running (task : τ)
  | returned

/-- How far the destructor has come. -/
inductive Destructor
  | notCalled
  /-- It has set `stop_`. -/
  | flagSet
  /-- It has notified all and joins the workers. -/
  | joining
  deriving DecidableEq

namespace Worker

variable {τ : Type*}

/-- The task that is being executed. -/
def task : Worker τ → Multiset τ
  | running task => {task}
  | looping | locking | testing | holding | missed | asleep | returned => 0

/-- What a notification does to a worker. -/
def woken : Worker τ → Worker τ
  | asleep => locking
  | w => w

end Worker

/-- A `ThreadPool` of `n` workers, with the queue, the mutex and a record of its tasks. -/
structure ThreadPool (τ : Type*) (n : ℕ) where
  stopFlags : Fin n → Bool := fun _ => false
  workers : Fin n → Worker τ := fun _ => .looping
  tasks : List τ := []
  /-- The worker that has the mutex. -/
  mutex : Option (Fin n) := none
  destructor : Destructor := .notCalled
  /-- Calls of `enqueue` that have not notified yet. -/
  notifications : ℕ := 0
  /-- The tasks in the order in which they were put in the queue. -/
  enqueued : List τ := []
  /-- The tasks in the order in which they were taken out of it. -/
  taken : List τ := []
  /-- The tasks that have ended. -/
  executed : List τ := []

/-- A step of a worker, of a caller of `enqueue` or of the destructor. -/
inductive PoolStep (τ : Type*) (n : ℕ)
  | testFlag (w : Fin n)
  | lock (w : Fin n)
  | test (w : Fin n)
  | sleep (w : Fin n)
  /-- A spurious wake-up. -/
  | wake (w : Fin n)
  | dequeue (w : Fin n)
  | finish (w : Fin n)
  /-- The caller is the task of a worker or somebody outside of the pool. -/
  | enqueue (caller : Option (Fin n)) (task : τ)
  | notifyOne (woken : Option (Fin n))
  | setStop
  | notifyAll

namespace ThreadPool

variable {τ : Type*} {n : ℕ} (s : ThreadPool τ n)

def stop : Bool := s.destructor ≠ .notCalled

/-- The tasks that are being executed. -/
def running : Multiset τ := ∑ w, (s.workers w).task

/-- A worker goes on to another place. -/
def move (w : Fin n) (worker : Worker τ) : ThreadPool τ n :=
  { s with workers := Function.update s.workers w worker }

/-- When a step can be taken.  Nobody outside of the pool enqueues once the destructor is called. -/
def Permits : PoolStep τ n → Prop
  | .testFlag w => s.workers w = .looping
  | .lock w => s.workers w = .locking ∧ s.mutex = none
  | .test w => s.workers w = .testing
  | .sleep w => s.workers w = .missed
  | .wake w => s.workers w = .asleep
  | .dequeue w => s.workers w = .holding
  | .finish w => ∃ task, s.workers w = .running task
  | .enqueue none _ => s.mutex = none ∧ s.destructor = .notCalled
  | .enqueue (some w) _ => s.mutex = none ∧ ∃ task, s.workers w = .running task
  | .notifyOne none => 0 < s.notifications ∧ ∀ w, s.workers w ≠ .asleep
  | .notifyOne (some w) => 0 < s.notifications ∧ s.workers w = .asleep
  | .setStop => s.destructor = .notCalled
  | .notifyAll => s.destructor = .flagSet

def step : PoolStep τ n → ThreadPool τ n
  | .testFlag w => s.move w (if s.stopFlags w then .returned else .locking)
  | .lock w => { s.move w .testing with mutex := some w }
  | .test w => s.move w (if s.stop || !s.tasks.isEmpty then .holding else .missed)
  | .sleep w => { s.move w .asleep with mutex := none }
  | .wake w => s.move w .locking
  | .dequeue w =>
      if s.stop && s.tasks.isEmpty then
        { s.move w .returned with mutex := none }
      else
        match s.tasks with
        | task :: tasks =>
            { s.move w (.running task) with
              mutex := none, tasks := tasks, taken := s.taken ++ [task] }
        | [] => s -- `front` of an empty queue
  | .finish w =>
      match s.workers w with
      | .running task => { s.move w .looping with executed := s.executed ++ [task] }
      | _ => s
  | .enqueue _ task =>
      { s with
        tasks := s.tasks ++ [task]
        enqueued := s.enqueued ++ [task]
        notifications := s.notifications + 1 }
  | .notifyOne none => { s with notifications := s.notifications - 1 }
  | .notifyOne (some w) => { s.move w .locking with notifications := s.notifications - 1 }
  | .setStop => { s with destructor := .flagSet }
  | .notifyAll =>
      { s with destructor := .joining, workers := fun w => (s.workers w).woken }

end ThreadPool

/-- A pool in use. -/
def working (τ : Type*) (n : ℕ) : System (ThreadPool τ n) (PoolStep τ n) where
  Permits := ThreadPool.Permits
  step := ThreadPool.step

namespace ThreadPool

variable {τ : Type*} {n : ℕ}

/-! ## What a worker can rely on -/

/-- What holds where a worker is, whatever the others do. -/
def Assertion (s : ThreadPool τ n) (w : Fin n) : Worker τ → Prop
  | .looping | .locking | .asleep | .running _ => s.mutex ≠ some w
  | .testing => s.mutex = some w
  | .holding => s.mutex = some w ∧ (s.stop = true ∨ s.tasks ≠ [])
  | .missed => s.mutex = some w ∧ s.tasks = []
  | .returned => s.mutex ≠ some w ∧ s.stop = true

/-- Every worker is where it can be, and no stop flag is set. -/
structure Located (s : ThreadPool τ n) : Prop where
  workers : ∀ w, s.Assertion w (s.workers w)
  stopFlags : ∀ w, s.stopFlags w = false

variable {s s' : ThreadPool τ n} {e : PoolStep τ n} {v w : Fin n} {worker : Worker τ}

theorem workers_move (w : Fin n) (worker : Worker τ) :
    (s.move w worker).workers w = worker := Function.update_self ..

theorem workers_move_of_ne (h : v ≠ w) : (s.move w worker).workers v = s.workers v :=
  Function.update_of_ne h ..

theorem step_finish {task : τ} (hw : s.workers w = .running task) :
    s.step (.finish w) =
      { s.move w .looping with executed := s.executed ++ [task] } := by
  unfold step
  dsimp only
  rw [hw]

/-- The assertion of a worker is not disturbed by steps under the mutex of another, nor by the
destructor. -/
theorem Assertion.mono (h : s.Assertion w worker)
    (hmutex : s'.mutex = some w ↔ s.mutex = some w)
    (htasks : s.mutex = some w → s'.tasks = s.tasks) (hstop : s.stop = true → s'.stop = true) :
    s'.Assertion w worker := by
  cases worker with
  | looping => exact fun hown => h (hmutex.mp hown)
  | locking => exact fun hown => h (hmutex.mp hown)
  | asleep => exact fun hown => h (hmutex.mp hown)
  | running task => exact fun hown => h (hmutex.mp hown)
  | testing => exact hmutex.mpr h
  | holding =>
      refine ⟨hmutex.mpr h.1, h.2.imp hstop fun hne => ?_⟩
      rw [htasks h.1]
      exact hne
  | missed => exact ⟨hmutex.mpr h.1, (htasks h.1).trans h.2⟩
  | returned => exact ⟨fun hown => h.1 (hmutex.mp hown), hstop h.2⟩

theorem Assertion.woken (h : s.Assertion w worker) : s.Assertion w worker.woken := by
  cases worker with
  | _ => exact h

namespace Located

/-- One worker goes on, and the others are not disturbed. -/
theorem move (h : s.Located) (hworkers : s'.workers = (s.move w worker).workers)
    (hflags : s'.stopFlags = s.stopFlags) (hworker : s'.Assertion w worker)
    (hmutex : ∀ v, v ≠ w → (s'.mutex = some v ↔ s.mutex = some v))
    (htasks : ∀ v, v ≠ w → s.mutex = some v → s'.tasks = s.tasks)
    (hstop : s.stop = true → s'.stop = true) : s'.Located := by
  refine ⟨fun v => ?_, fun v => ?_⟩
  · rw [hworkers]
    by_cases hv : v = w
    · subst hv
      rw [workers_move]
      exact hworker
    · rw [workers_move_of_ne hv]
      exact (h.workers v).mono (hmutex v hv) (htasks v hv) hstop
  · rw [hflags]
    exact h.stopFlags v

theorem of_assertion (h : s.Located) (hw : s.workers w = worker) : s.Assertion w worker :=
  hw ▸ h.workers w

/-- A worker that leaves the wait returns, or takes the first task: the queue is not empty then. -/
theorem dequeue_cases (h : s.Located) (hw : s.workers w = .holding) :
    (s.stop = true ∧ s.tasks = [] ∧
        s.step (.dequeue w) = { s.move w .returned with mutex := none }) ∨
      ∃ task tasks, s.tasks = task :: tasks ∧
        s.step (.dequeue w) = { s.move w (.running task) with
          mutex := none, tasks := tasks, taken := s.taken ++ [task] } := by
  obtain ⟨-, hready⟩ := h.of_assertion hw
  unfold ThreadPool.step
  dsimp only
  cases htasks : s.tasks with
  | nil =>
      have hstop := hready.resolve_right fun hne => hne htasks
      exact .inl ⟨hstop, rfl, by rw [hstop]; rfl⟩
  | cons task tasks => exact .inr ⟨task, tasks, rfl, by rw [List.isEmpty_cons, Bool.and_false]; rfl⟩

/-- **What a worker can rely on** is kept by every step. -/
theorem step (h : s.Located) (hpermits : s.Permits e) : (s.step e).Located := by
  cases e with
  | testFlag w =>
      have hown := h.of_assertion hpermits
      refine h.move rfl rfl ?_ (fun _ _ => Iff.rfl) (fun _ _ _ => rfl) id
      rw [h.stopFlags]
      exact hown
  | lock w =>
      -- the mutex was free, so the assertions of the others say that it is not theirs
      refine h.move rfl rfl rfl (fun v hv => ?_) (fun _ _ _ => rfl) id
      rw [hpermits.2]
      exact iff_of_false (fun hown => hv (Option.some_inj.mp hown).symm) nofun
  | test w =>
      have hown : s.mutex = some w := h.of_assertion hpermits
      refine h.move rfl rfl ?_ (fun _ _ => Iff.rfl) (fun _ _ _ => rfl) id
      split
      · next htrue =>
        have hready : s.stop = true ∨ s.tasks ≠ [] := by simpa using htrue
        exact ⟨hown, hready⟩
      · next hfalse =>
        have hempty : s.stop = false ∧ s.tasks = [] := by simpa using hfalse
        exact ⟨hown, hempty.2⟩
  | sleep w =>
      have hown := (h.of_assertion hpermits).1
      refine h.move rfl rfl nofun (fun v hv => ?_) (fun _ _ _ => rfl) id
      rw [hown]
      exact iff_of_false nofun fun h => hv (Option.some_inj.mp h).symm
  | wake w =>
      exact h.move rfl rfl (h.of_assertion hpermits) (fun _ _ => Iff.rfl)
        (fun _ _ _ => rfl) id
  | dequeue w =>
      -- the worker has the mutex, so the queue that changes is nobody else's
      have hown := (h.of_assertion hpermits).1
      have hother : ∀ v, v ≠ w → s.mutex ≠ some v := fun v hv hv' =>
        hv (Option.some_inj.mp (hv'.symm.trans hown))
      rcases h.dequeue_cases hpermits with ⟨hstop, -, hstep⟩ | ⟨task, tasks, -, hstep⟩
      · rw [hstep]
        exact h.move rfl rfl ⟨nofun, hstop⟩ (fun v hv => iff_of_false nofun (hother v hv))
          (fun _ _ _ => rfl) id
      · rw [hstep]
        exact h.move rfl rfl nofun (fun v hv => iff_of_false nofun (hother v hv))
          (fun v hv hown => absurd hown (hother v hv)) id
  | finish w =>
      obtain ⟨task, hw⟩ := hpermits
      have hown := h.of_assertion hw
      rw [step_finish hw]
      exact h.move rfl rfl hown (fun _ _ => Iff.rfl) (fun _ _ _ => rfl) id
  | enqueue caller task =>
      have hfree : s.mutex = none := by
        cases caller with
        | none => exact hpermits.1
        | some w => exact hpermits.1
      refine ⟨fun v => (h.workers v).mono Iff.rfl (fun hown => ?_) id, h.stopFlags⟩
      cases hfree.symm.trans hown
  | notifyOne woken =>
      cases woken with
      | none => exact ⟨fun v => (h.workers v).mono Iff.rfl (fun _ => rfl) id, h.stopFlags⟩
      | some w =>
          exact h.move rfl rfl (h.of_assertion hpermits.2) (fun _ _ => Iff.rfl)
            (fun _ _ _ => rfl) id
  | setStop =>
      exact ⟨fun v => (h.workers v).mono Iff.rfl (fun _ => rfl) fun _ => rfl, h.stopFlags⟩
  | notifyAll =>
      refine ⟨fun v => ?_, h.stopFlags⟩
      exact (h.workers v).woken.mono Iff.rfl (fun _ => rfl) fun _ => rfl

end Located

/-! ## What becomes of the tasks -/

/-- **Exactly once.**  Counted as often as they were enqueued: no task is executed more than once,
the tasks are taken in the order in which they were put in the queue, and once all workers have
returned every task has been executed. -/
structure ExactlyOnce (s : ThreadPool τ n) : Prop where
  once : (s.executed : Multiset τ) + s.running ≤ s.enqueued
  order : s.taken <+: s.enqueued
  all : (∀ w, s.workers w = .returned) → s.executed.Perm s.enqueued

/-- Where the tasks are: in the queue, with a worker, or executed. -/
structure Accounted (s : ThreadPool τ n) : Prop where
  queue : s.enqueued = s.taken ++ s.tasks
  executed : (s.executed : Multiset τ) + s.running = s.taken
  drained : (∀ w, s.workers w = .returned) → s.tasks = []

/-- Where one worker goes on, a sum over the workers changes by its summand. -/
theorem sum_move {M : Type*} [AddCommMonoid M] (f : Worker τ → M) (w : Fin n)
    (worker : Worker τ) :
    ∑ v, f ((s.move w worker).workers v) + f (s.workers w) =
      ∑ v, f (s.workers v) + f worker := by
  have hsplit : ∀ s : ThreadPool τ n, ∑ v, f (s.workers v) =
      f (s.workers w) + ∑ v ∈ Finset.univ.erase w, f (s.workers v) := fun s =>
    (Finset.add_sum_erase _ (fun v => f (s.workers v)) (Finset.mem_univ w)).symm
  have hothers : ∑ v ∈ Finset.univ.erase w, f ((s.move w worker).workers v) =
      ∑ v ∈ Finset.univ.erase w, f (s.workers v) := by
    apply Finset.sum_congr rfl
    intro v hv
    rw [workers_move_of_ne (Finset.ne_of_mem_erase hv)]
  rw [hsplit (s.move w worker), hsplit s, hothers, workers_move]
  ac_rfl

theorem running_move (w : Fin n) (worker : Worker τ) :
    (s.move w worker).running + (s.workers w).task = s.running + worker.task :=
  sum_move Worker.task w worker

/-- A step that neither begins nor ends a task. -/
theorem running_move_of_task_eq (h : (s.workers w).task = worker.task) :
    (s.move w worker).running = s.running := by
  have hmove := running_move (s := s) w worker
  rw [h] at hmove
  exact add_right_cancel hmove

theorem not_all_returned (hw : s.workers w = worker) (hworker : worker ≠ .returned) :
    ¬ ∀ v, s.workers v = .returned :=
  fun hall => hworker (hw.symm.trans (hall w))

namespace Accounted

/-- A worker goes on without a task. -/
theorem move (h : s.Accounted) (hworkers : s'.workers = (s.move w worker).workers)
    (hqueue : s'.enqueued = s.enqueued ∧ s'.taken = s.taken ∧ s'.tasks = s.tasks)
    (hexecuted : s'.executed = s.executed) (htask : (s.workers w).task = worker.task)
    (hworker : worker = .returned → s.tasks = []) : s'.Accounted := by
  obtain ⟨henqueued, htaken, htasks⟩ := hqueue
  have hrunning : s'.running = s.running := by
    rw [← running_move_of_task_eq htask]
    unfold running
    rw [hworkers]
  refine ⟨?_, ?_, fun hall => ?_⟩
  · rw [henqueued, htaken, htasks]
    exact h.queue
  · rw [hexecuted, hrunning, htaken]
    exact h.executed
  · rw [htasks]
    apply hworker
    rw [← hall w, hworkers, workers_move]

/-- A worker takes the first task and leaves the wait with it. -/
theorem take {task : τ} {tasks : List τ} (h : s.Accounted) (hw : s.workers w = .holding)
    (htasks : s.tasks = task :: tasks) :
    Accounted { s.move w (.running task) with
      mutex := none, tasks := tasks, taken := s.taken ++ [task] } := by
  have hmove : (s.move w (.running task)).running = s.running + {task} := by
    have := running_move (s := s) w (.running task)
    rwa [hw, Worker.task, Worker.task, add_zero] at this
  refine ⟨?_, ?_, fun hall => ?_⟩
  · show s.enqueued = s.taken ++ [task] ++ tasks
    rw [h.queue, htasks, List.append_assoc, List.singleton_append]
  · show (s.executed : Multiset τ) + (s.move w (.running task)).running = _
    calc (s.executed : Multiset τ) + (s.move w (.running task)).running
        = s.executed + (s.running + {task}) := by rw [hmove]
      _ = s.taken + {task} := by rw [← add_assoc, h.executed]
      _ = ↑(s.taken ++ [task]) := rfl
  · exact absurd hall (not_all_returned (workers_move w _) nofun)

/-- The task of a worker ends. -/
theorem finish {task : τ} (h : s.Accounted) (hw : s.workers w = .running task) :
    Accounted { s.move w .looping with executed := s.executed ++ [task] } := by
  have hmove : (s.move w .looping).running + {task} = s.running := by
    have := running_move (s := s) w .looping
    rwa [hw, Worker.task, Worker.task, add_zero] at this
  refine ⟨h.queue, ?_, fun hall => ?_⟩
  · show (↑(s.executed ++ [task]) : Multiset τ) + (s.move w .looping).running = s.taken
    calc (↑(s.executed ++ [task]) : Multiset τ) + (s.move w .looping).running
        = s.executed + ((s.move w .looping).running + {task}) := by
          rw [← Multiset.coe_add, add_assoc, add_comm (Multiset.ofList [task])]
          rfl
      _ = s.taken := by rw [hmove, h.executed]
  · exact absurd hall (not_all_returned (workers_move w _) nofun)

/-- A call of `enqueue` finds a worker that has not returned. -/
theorem not_all_returned_of_enqueue {caller : Option (Fin n)} {task : τ} (hlocated : s.Located)
    (hn : 0 < n) (hpermits : s.Permits (.enqueue caller task)) :
    ¬ ∀ v, s.workers v = .returned := by
  intro hall
  cases caller with
  | none =>
      -- a worker returns only when `stop_` is set, and nobody outside enqueues then
      have hstop := (hlocated.of_assertion (hall ⟨0, hn⟩)).2
      unfold stop at hstop
      rw [hpermits.2] at hstop
      cases hstop
  | some w =>
      obtain ⟨-, task, hw⟩ := hpermits
      exact not_all_returned hw nofun hall

theorem enqueue {caller : Option (Fin n)} {task : τ} (h : s.Accounted) (hlocated : s.Located)
    (hn : 0 < n) (hpermits : s.Permits (.enqueue caller task)) :
    (s.step (.enqueue caller task)).Accounted := by
  refine ⟨?_, h.executed, fun hall => ?_⟩
  · show s.enqueued ++ [task] = s.taken ++ (s.tasks ++ [task])
    rw [h.queue, List.append_assoc]
  · exact (not_all_returned_of_enqueue hlocated hn hpermits hall).elim

/-- A notification wakes workers, and none of them has a task. -/
theorem notifyAll (h : s.Accounted) : (s.step .notifyAll).Accounted := by
  have htask : ∀ worker : Worker τ, worker.woken.task = worker.task := by
    intro worker
    cases worker <;> rfl
  have hrunning : (s.step .notifyAll).running = s.running :=
    Finset.sum_congr rfl fun v _ => htask (s.workers v)
  refine ⟨h.queue, hrunning ▸ h.executed, fun hall => h.drained fun v => ?_⟩
  have hv : (s.workers v).woken = .returned := hall v
  cases hworker : s.workers v with
  | returned => rfl
  | _ =>
      rw [hworker] at hv
      cases hv

/-- **Where the tasks are** after a step. -/
theorem step (h : s.Accounted) (hlocated : s.Located) (hn : 0 < n) (hpermits : s.Permits e) :
    (s.step e).Accounted := by
  cases e with
  | testFlag w =>
      have hw : s.workers w = .looping := hpermits
      have hgoes : s.step (.testFlag w) = s.move w .locking := by
        unfold ThreadPool.step
        dsimp only
        rw [hlocated.stopFlags]
        rfl
      rw [hgoes]
      exact h.move rfl ⟨rfl, rfl, rfl⟩ rfl (by rw [hw]; rfl) nofun
  | lock w => exact h.move rfl ⟨rfl, rfl, rfl⟩ rfl (by rw [hpermits.1]; rfl) nofun
  | test w =>
      have hw : s.workers w = .testing := hpermits
      refine h.move rfl ⟨rfl, rfl, rfl⟩ rfl ?_ ?_
      · rw [hw]
        split <;> rfl
      · split <;> exact nofun
  | sleep w =>
      have hw : s.workers w = .missed := hpermits
      exact h.move rfl ⟨rfl, rfl, rfl⟩ rfl (by rw [hw]; rfl) nofun
  | wake w =>
      have hw : s.workers w = .asleep := hpermits
      exact h.move rfl ⟨rfl, rfl, rfl⟩ rfl (by rw [hw]; rfl) nofun
  | dequeue w =>
      have hw : s.workers w = .holding := hpermits
      rcases hlocated.dequeue_cases hw with ⟨-, hempty, hstep⟩ | ⟨task, tasks, htasks, hstep⟩
      · -- it returns, and leaves nothing behind
        rw [hstep]
        exact h.move rfl ⟨rfl, rfl, rfl⟩ rfl (by rw [hw]; rfl) fun _ => hempty
      · rw [hstep]
        exact h.take hw htasks
  | finish w =>
      obtain ⟨task, hw⟩ := hpermits
      rw [step_finish hw]
      exact h.finish hw
  | enqueue caller task => exact h.enqueue hlocated hn hpermits
  | notifyOne woken =>
      cases woken with
      | none => exact ⟨h.queue, h.executed, h.drained⟩
      | some w => exact h.move rfl ⟨rfl, rfl, rfl⟩ rfl (by rw [hpermits.2]; rfl) nofun
  | setStop => exact ⟨h.queue, h.executed, h.drained⟩
  | notifyAll => exact h.notifyAll

theorem exactlyOnce (h : s.Accounted) : s.ExactlyOnce := by
  refine ⟨?_, ⟨s.tasks, h.queue.symm⟩, fun hall => ?_⟩
  · rw [h.executed, h.queue, ← Multiset.coe_add]
    exact Multiset.le_add_right _ _
  · have hidle : s.running = 0 := Finset.sum_eq_zero fun v _ => by rw [hall v]; rfl
    rw [← Multiset.coe_eq_coe, h.queue, h.drained hall, List.append_nil, ← h.executed, hidle,
      add_zero]

end Accounted

theorem located_init : Located ({} : ThreadPool τ n) := ⟨fun _ => nofun, fun _ => rfl⟩

theorem accounted_init : Accounted ({} : ThreadPool τ n) := by
  refine ⟨rfl, ?_, fun _ => rfl⟩
  exact (zero_add _).trans (Finset.sum_eq_zero fun v _ => rfl)

end ThreadPool

open ThreadPool

variable {τ : Type*} {n : ℕ}

theorem located_always {steps : List (PoolStep τ n)} (hrun : (working τ n).Run {} steps) :
    (working τ n).Always Located {} steps :=
  always_of_invariant (fun _ _ h hpermits _ => h.step hpermits) located_init hrun hrun

/-- **Every task is executed exactly once**, whatever the order of the steps. -/
theorem exactlyOnce_always (steps : List (PoolStep τ n)) (hn : 0 < n)
    (hrun : (working τ n).Run {} steps) : (working τ n).Always ExactlyOnce {} steps := by
  have hsound : (working τ n).Always (fun s => s.Located ∧ s.Accounted) {} steps :=
    always_of_invariant
      (fun s e h hpermits _ => ⟨h.1.step hpermits, h.2.step h.1 hn hpermits⟩)
      ⟨located_init, accounted_init⟩ hrun hrun
  exact hsound.imp fun _ h => h.2.exactlyOnce

/-- One worker misses a task, is notified of it and executes it, and then finds the pool stopped. -/
def stoppedWhileQueued : List (PoolStep ℕ 1) :=
  [.testFlag 0, .lock 0, .test 0, .sleep 0, .enqueue none 7, .setStop, .notifyOne (some 0),
    .notifyAll, .lock 0, .test 0, .dequeue 0, .finish 0, .testFlag 0, .lock 0, .test 0, .dequeue 0]

theorem run_stoppedWhileQueued : (working ℕ 1).Run {} stoppedWhileQueued :=
  ⟨rfl, ⟨rfl, rfl⟩, rfl, rfl, ⟨rfl, rfl⟩, rfl, ⟨Nat.one_pos, rfl⟩, rfl, ⟨rfl, rfl⟩, rfl, rfl,
    ⟨7, rfl⟩, rfl, ⟨rfl, rfl⟩, rfl, rfl, trivial⟩

theorem exactlyOnce_stoppedWhileQueued :
    (working ℕ 1).Always ExactlyOnce {} stoppedWhileQueued :=
  exactlyOnce_always _ Nat.one_pos run_stoppedWhileQueued

end GinCpp.Core
