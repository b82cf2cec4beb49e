import GinCpp.Core.ThreadPool

/-!
# Lost wake-ups

`~ThreadPool` sets `stop_` and notifies without the mutex, unlike `enqueue`, which changes the
predicate of the wait under it.  A worker that has found the predicate false and is not asleep yet
does not hear of it.

If there is no such worker when the destructor notifies, no worker is left asleep; if there is one,
the run can go on so that it sleeps for good (`stranded_iff_untimely`).
-/

namespace GinCpp.Core

open Transition System

namespace ThreadPool

variable {τ : Type*} {n : ℕ}

/-- The destructor has notified and joins, a worker sleeps, and no notification is left to be
issued: none by the calls of `enqueue` so far, and there is no task that could make another. -/
structure Stranded (s : ThreadPool τ n) : Prop where
  joining : s.destructor = .joining
  asleep : ∃ w, s.workers w = .asleep
  notifications : s.notifications = 0
  idle : ∀ w task, s.workers w ≠ .running task
  tasks : s.tasks = []

/-- When the destructor notifies, no worker is between its test and its sleep. -/
def Timely (s : ThreadPool τ n) : PoolStep τ n → Prop
  | .notifyAll => ∀ w, s.workers w ≠ .missed
  | _ => True

/-- Once the destructor has notified, nobody sleeps or is about to. -/
def Awake (s : ThreadPool τ n) : Prop :=
  s.destructor = .joining → ∀ w, s.workers w ≠ .missed ∧ s.workers w ≠ .asleep

variable {s s' : ThreadPool τ n} {e : PoolStep τ n} {w : Fin n} {worker : Worker τ}

/-! ## Timely notifications -/

namespace Awake

theorem move (h : s.Awake) (hworkers : s'.workers = (s.move w worker).workers)
    (hdestructor : s'.destructor = s.destructor)
    (hworker : s.destructor = .joining → worker ≠ .missed ∧ worker ≠ .asleep) : s'.Awake := by
  intro hjoining v
  have hjoining : s.destructor = .joining := hdestructor.symm.trans hjoining
  rw [hworkers]
  by_cases hv : v = w
  · subst hv
    rw [workers_move]
    exact hworker hjoining
  · rw [workers_move_of_ne hv]
    exact h hjoining v

/-- A timely notification reaches every sleeper, and nobody goes to sleep after it. -/
theorem step (h : s.Awake) (hlocated : s.Located) (hpermits : s.Permits e) (htimely : s.Timely e) :
    (s.step e).Awake := by
  cases e with
  | testFlag w =>
      refine h.move rfl rfl fun _ => ?_
      split
      · exact ⟨nofun, nofun⟩
      · exact ⟨nofun, nofun⟩
  | lock w => exact h.move rfl rfl fun _ => ⟨nofun, nofun⟩
  | test w =>
      refine h.move rfl rfl fun hjoining => ?_
      -- `stop_` is set, so the predicate is true
      have hstop : s.stop = true := by
        unfold stop
        rw [hjoining]
        rfl
      rw [hstop, Bool.true_or]
      exact ⟨nofun, nofun⟩
  | sleep w =>
      intro hjoining
      exact absurd hpermits (h hjoining w).1
  | wake w => exact h.move rfl rfl fun _ => ⟨nofun, nofun⟩
  | dequeue w =>
      rcases hlocated.dequeue_cases hpermits with ⟨-, -, hstep⟩ | ⟨task, tasks, -, hstep⟩
      · rw [hstep]
        exact h.move rfl rfl fun _ => ⟨nofun, nofun⟩
      · rw [hstep]
        exact h.move rfl rfl fun _ => ⟨nofun, nofun⟩
  | finish w =>
      obtain ⟨task, hw⟩ := hpermits
      rw [step_finish hw]
      exact h.move rfl rfl fun _ => ⟨nofun, nofun⟩
  | enqueue caller task => exact h
  | notifyOne woken =>
      cases woken with
      | none => exact h
      | some w => exact h.move rfl rfl fun _ => ⟨nofun, nofun⟩
  | setStop => exact nofun
  | notifyAll =>
      intro _ v
      change (s.workers v).woken ≠ .missed ∧ (s.workers v).woken ≠ .asleep
      have hmissed := htimely v
      cases hv : s.workers v with
      | missed => exact absurd hv hmissed
      | _ => exact ⟨nofun, nofun⟩

theorem not_stranded (h : s.Awake) : ¬ s.Stranded := by
  intro hstranded
  obtain ⟨w, hw⟩ := hstranded.asleep
  exact (h hstranded.joining w).2 hw

end Awake

/-! ## A notification that is missed -/

/-- The destructor has notified, nobody sleeps, and a worker is about to. -/
structure Missing (s : ThreadPool τ n) (w : Fin n) : Prop where
  joining : s.destructor = .joining
  missed : s.workers w = .missed
  awake : ∀ v, s.workers v ≠ .asleep
  tasks : s.tasks = []

/-- The calls of `enqueue` that are under way notify, and nobody hears them. -/
theorem Missing.notify (h : s.Missing w) :
    ∃ steps, (working τ n).Run s steps ∧ ((working τ n).run s steps).Missing w ∧
      ((working τ n).run s steps).notifications = 0 := by
  induction hnotifications : s.notifications generalizing s with
  | zero => exact ⟨[], trivial, h, hnotifications⟩
  | succ k ih =>
      have hnext : (s.step (.notifyOne none)).Missing w := ⟨h.joining, h.missed, h.awake, h.tasks⟩
      obtain ⟨steps, hrun, hend⟩ := ih hnext (Nat.sub_eq_of_eq_add hnotifications)
      have hpermits : s.Permits (.notifyOne none) :=
        ⟨hnotifications ▸ Nat.succ_pos k, h.awake⟩
      exact ⟨.notifyOne none :: steps, ⟨hpermits, hrun⟩, hend⟩

/-- The tasks that are being executed end. -/
theorem Missing.finish (h : s.Missing w) (hnotifications : s.notifications = 0) :
    ∃ steps, (working τ n).Run s steps ∧ ((working τ n).run s steps).Missing w ∧
      ((working τ n).run s steps).notifications = 0 ∧
      ∀ v task, ((working τ n).run s steps).workers v ≠ .running task := by
  induction hcard : s.running.card generalizing s with
  | zero =>
      refine ⟨[], trivial, h, hnotifications, fun v task hv => ?_⟩
      have hv : s.workers v = .running task := hv
      have hmove := congrArg Multiset.card (running_move (s := s) v .looping)
      rw [hv, Worker.task, Worker.task, Multiset.card_add, Multiset.card_add, hcard,
        Multiset.card_singleton] at hmove
      cases hmove
  | succ k ih =>
      by_cases hrunning : ∃ v task, s.workers v = .running task
      · obtain ⟨v, task, hv⟩ := hrunning
        have hmove := congrArg Multiset.card (running_move (s := s) v .looping)
        rw [hv, Worker.task, Worker.task, Multiset.card_add, Multiset.card_add, hcard,
          Multiset.card_singleton, Multiset.card_zero] at hmove
        have hne : w ≠ v := by
          rintro rfl
          cases h.missed.symm.trans hv
        have hnext : (s.step (.finish v)).Missing w := by
          rw [step_finish hv]
          refine ⟨h.joining, (workers_move_of_ne hne).trans h.missed, fun u => ?_, h.tasks⟩
          change (s.move v .looping).workers u ≠ .asleep
          by_cases hu : u = v
          · subst hu
            rw [workers_move]
            exact fun hlooping => by cases hlooping
          · rw [workers_move_of_ne hu]
            exact h.awake u
        obtain ⟨steps, hrun, hend⟩ := ih hnext (by rw [step_finish hv]; exact hnotifications)
          (by rw [step_finish hv]; exact Nat.succ_injective hmove)
        exact ⟨.finish v :: steps, ⟨⟨task, hv⟩, hrun⟩, hend⟩
      · exact ⟨[], trivial, h, hnotifications, fun v task hv => hrunning ⟨v, task, hv⟩⟩

/-- **A notification that is missed strands a worker** if the others do nothing but end. -/
theorem Missing.strands (h : s.Missing w) :
    ∃ steps, (working τ n).Run s steps ∧ ((working τ n).run s steps).Stranded := by
  obtain ⟨notifying, hnotifying, hmissing, hnone⟩ := h.notify
  obtain ⟨finishing, hfinishing, hmissing, hnone, hidle⟩ := hmissing.finish hnone
  rw [← run_append] at hmissing hnone hidle
  refine ⟨(notifying ++ finishing) ++ [.sleep w], ?_, ?_⟩
  · have hrun := throughout_append.mpr ⟨hnotifying, hfinishing⟩
    exact throughout_append.mpr ⟨hrun, hmissing.missed, trivial⟩
  · rw [run_append]
    refine ⟨hmissing.joining, ⟨w, workers_move w .asleep⟩, hnone, fun v task => ?_, hmissing.tasks⟩
    change (move _ w .asleep).workers v ≠ _
    by_cases hv : v = w
    · subst hv
      rw [workers_move]
      exact nofun
    · rw [workers_move_of_ne hv]
      exact hidle v task

/-- A notification that is not timely. -/
theorem Located.missing (h : s.Located) (htimely : ¬ s.Timely e) :
    e = .notifyAll ∧ ∃ w, (s.step e).Missing w := by
  cases e with
  | notifyAll =>
      obtain ⟨w, hw⟩ := not_forall_not.mp htimely
      refine ⟨rfl, w, rfl, ?_, fun v => ?_, (h.of_assertion hw).2⟩
      · change (s.workers w).woken = .missed
        rw [hw]
        rfl
      · change (s.workers v).woken ≠ .asleep
        cases s.workers v <;> exact nofun
  | _ => exact absurd trivial htimely

end ThreadPool

open ThreadPool

variable {τ : Type*} {n : ℕ}

/-- **When a worker can be stranded.**  Never in a run in which the notification of the destructor
is timely; and where it is not, the run can go on from it so that a worker is. -/
theorem stranded_iff_untimely (steps : List (PoolStep τ n)) (hrun : (working τ n).Run {} steps) :
    ((working τ n).Throughout Timely {} steps →
        (working τ n).Always (fun s => ¬ s.Stranded) {} steps) ∧
      (¬ (working τ n).Throughout Timely {} steps →
        ∃ before after more, steps = before ++ .notifyAll :: after ∧
          (working τ n).Run {} (before ++ .notifyAll :: more) ∧
          ((working τ n).run {} (before ++ .notifyAll :: more)).Stranded) := by
  constructor
  · intro htimely
    have hawake : (working τ n).Always (fun s => s.Located ∧ s.Awake) {} steps :=
      always_of_invariant
        (fun s e h hpermits ht => ⟨h.1.step hpermits, h.2.step h.1 hpermits ht⟩)
        ⟨located_init, nofun⟩ hrun htimely
    exact hawake.imp fun _ h => h.2.not_stranded
  · intro htimely
    obtain ⟨before, e, after, rfl, he⟩ := exists_of_not_throughout htimely
    obtain ⟨hbefore, hpermits, -⟩ := throughout_append.mp hrun
    obtain ⟨rfl, w, hmissing⟩ := (located_always hbefore).last.missing he
    obtain ⟨more, hmore, hstranded⟩ := hmissing.strands
    refine ⟨before, after, more, rfl, throughout_append.mpr ⟨hbefore, hpermits, hmore⟩, ?_⟩
    rw [run_append]
    exact hstranded

/-- The destructor sets `stop_` and notifies between the test of the worker and its sleep. -/
def notifiedBeforeSleep : List (PoolStep ℕ 1) :=
  let w := Fin.last 0
  [.testFlag w, .lock w, .test w, .setStop, .notifyAll, .sleep w]

theorem run_notifiedBeforeSleep : (working ℕ 1).Run {} notifiedBeforeSleep :=
  ⟨rfl, ⟨rfl, rfl⟩, rfl, rfl, rfl, rfl, trivial⟩

theorem stranded_notifiedBeforeSleep :
    (working ℕ 1).Run {} notifiedBeforeSleep ∧
      ((working ℕ 1).run {} notifiedBeforeSleep).Stranded := by
  refine ⟨run_notifiedBeforeSleep, rfl, ⟨Fin.last 0, rfl⟩, rfl, fun w task => ?_, rfl⟩
  cases w using Fin.cases with
  | zero => exact nofun
  | succ w => exact w.elim0

theorem stranded_iff_untimely_notifiedBeforeSleep :
    ((working ℕ 1).Throughout Timely {} notifiedBeforeSleep →
        (working ℕ 1).Always (fun s => ¬ s.Stranded) {} notifiedBeforeSleep) ∧
      (¬ (working ℕ 1).Throughout Timely {} notifiedBeforeSleep →
        ∃ before after more, notifiedBeforeSleep = before ++ .notifyAll :: after ∧
          (working ℕ 1).Run {} (before ++ .notifyAll :: more) ∧
          ((working ℕ 1).run {} (before ++ .notifyAll :: more)).Stranded) :=
  stranded_iff_untimely _ run_notifiedBeforeSleep

end GinCpp.Core
