import GinCpp.Core.ThreadPool

/-!
# Moving a thread pool

The move constructor and the move assignment of a `ThreadPool` copy `stop_`, set that of the source
and join its workers.  They notify nobody, move neither tasks nor workers, and leave the joined
threads in `workers_`, where the destructor of the source finds them.

A move loses nothing where there is nothing to lose: the source has no workers and an empty queue
(`lossless_of_careful`).
-/

namespace GinCpp.Core

open Transition System

/-- An object that is a `ThreadPool`, before and during its lifetime. -/
inductive Life
  | unborn
  | alive
  /-- Its destructor has been called. -/
  | ending
  deriving DecidableEq

/-- Some pools, `n p` being the number of threads in `workers_` of the pool `p`. -/
structure Pools (τ : Type*) {ι : Type*} (n : ι → ℕ) where
  /-- `stop_` is set by a move as well; `destructor` is `flagSet` then. -/
  pools : (p : ι) → ThreadPool τ (n p) := fun _ => {}
  life : ι → Life := fun _ => .unborn
  /-- The threads that have not been joined. -/
  joinable : (p : ι) → Fin (n p) → Bool := fun _ _ => true
  /-- How far the loop of a move from the pool has come. -/
  moving : ι → Option ℕ := fun _ => none
  /-- How far the loop of the destructor has come. -/
  joined : ι → ℕ := fun _ => 0
  /-- The pools that were moved to a pool, with what was in their queues. -/
  sources : ι → List (ι × List τ) := fun _ => []

/-- A step of a pool, of its destructor, or of a move. -/
inductive PoolsStep (τ : Type*) {ι : Type*} (n : ι → ℕ)
  | construct (p : ι)
  | work (p : ι) (e : PoolStep τ (n p))
  /-- One turn of the loop in the destructor. -/
  | joinDestroyed (p : ι)
  | moveConstruct (source dest : ι)
  | moveAssign (source dest : ι)
  /-- One turn of the loop in a move from a pool, or its end. -/
  | joinMoved (p : ι)

/-- `stop_` is assigned. -/
def ThreadPool.assignStop {τ : Type*} {k : ℕ} (s : ThreadPool τ k) (stop : Bool) : ThreadPool τ k :=
  { s with destructor := if stop then .flagSet else .notCalled }

namespace Pools

variable {τ ι : Type*} [DecidableEq ι] {n : ι → ℕ} (s : Pools τ n)

/-- The tasks of a pool and its workers may go on while it is moved from, and others may enqueue. -/
def WorkPermits (p : ι) : PoolStep τ (n p) → Prop
  | .enqueue none _ => (s.pools p).mutex = none ∧ s.life p = .alive
  | .setStop => s.life p = .alive ∧ s.moving p = none
  | .notifyAll => s.life p = .ending ∧ (s.pools p).destructor = .flagSet
  | e => s.life p ≠ .unborn ∧ (s.pools p).Permits e

/-- A move begins.  A `join` returns when its thread has; it is an error on a thread that is not
joinable, which the move looks for and the destructor does not. -/
def Permits : PoolsStep τ n → Prop
  | .construct p => s.life p = .unborn
  | .work p e => s.WorkPermits p e
  | .joinDestroyed p => s.life p = .ending ∧ (s.pools p).destructor = .joining ∧
      ∃ w : Fin (n p), w.val = s.joined p ∧ s.joinable p w = true ∧
        (s.pools p).workers w = .returned
  | .moveConstruct source dest =>
      s.life source = .alive ∧ s.moving source = none ∧ s.life dest = .unborn ∧ n dest = 0
  | .moveAssign source dest =>
      source ≠ dest ∧ s.life source = .alive ∧ s.moving source = none ∧ s.life dest = .alive ∧
        s.moving dest = none
  | .joinMoved p => ∃ k, s.moving p = some k ∧
      ∀ w : Fin (n p), w.val = k → s.joinable p w = true → (s.pools p).workers w = .returned

/-- The thread at a place in `workers_` is joined. -/
def join (p : ι) (k : ℕ) : (q : ι) → Fin (n q) → Bool :=
  Function.update s.joinable p fun w => s.joinable p w && decide (w.val ≠ k)

/-- What both moves do before their loop. -/
def beginMove (source dest : ι) : Pools τ n :=
  { s with
    pools := Function.update
      (Function.update s.pools dest ((s.pools dest).assignStop (s.pools source).stop))
      source ((s.pools source).assignStop true)
    moving := Function.update s.moving source (some 0)
    sources := Function.update s.sources dest
      ((source, (s.pools source).tasks) :: s.sources dest) }

def step : PoolsStep τ n → Pools τ n
  | .construct p => { s with life := Function.update s.life p .alive }
  | .work p e =>
      { s with
        pools := Function.update s.pools p ((s.pools p).step e)
        life := match e with
          | .setStop => Function.update s.life p .ending
          | _ => s.life }
  | .joinDestroyed p =>
      { s with
        joinable := s.join p (s.joined p)
        joined := Function.update s.joined p (s.joined p + 1) }
  | .moveConstruct source dest =>
      { s.beginMove source dest with life := Function.update s.life dest .alive }
  | .moveAssign source dest => s.beginMove source dest
  | .joinMoved p =>
      match s.moving p with
      | none => s
      | some k =>
          { s with
            joinable := s.join p k
            moving := Function.update s.moving p (if k < n p then some (k + 1) else none) }

/-! ## What a move may not do -/

/-- A move joins a worker that sleeps, and no notification is to come: none of the calls of
`enqueue` so far, and no task is executed that could make another. -/
def Stuck (p : ι) (w : Fin (n p)) : Prop :=
  s.moving p = some w.val ∧ s.joinable p w = true ∧ (s.pools p).workers w = .asleep ∧
    (s.pools p).notifications = 0 ∧ ∀ v task, (s.pools p).workers v ≠ .running task

/-- The destructor has returned. -/
def Destroyed (p : ι) : Prop :=
  s.life p = .ending ∧ (s.pools p).destructor = .joining ∧ s.joined p = n p

/-- **Moving loses no work and no worker.** -/
structure Lossless : Prop where
  awake : ∀ p w, ¬ s.Stuck p w
  /-- The tasks of a pool with workers, or of one that another pool was moved to. -/
  executed : ∀ p, 0 < n p ∨ s.sources p ≠ [] → s.Destroyed p →
    (s.pools p).executed.Perm (s.pools p).enqueued
  /-- The tasks that were queued in a pool that was moved. -/
  handedOver : ∀ p, s.Destroyed p → ∀ source ∈ s.sources p,
    (source.2 : Multiset τ) ≤ (s.pools source.1).executed + (s.pools p).executed
  joinable : ∀ p w, s.life p = .ending → (s.pools p).destructor = .joining →
    w.val = s.joined p → s.joinable p w = true

/-- A pool that is moved has no workers and an empty queue, and does not stop those of another.  The
pool that it is moved to has workers, or it has an empty queue and is given no task. -/
def Careful : PoolsStep τ n → Prop
  | .moveConstruct source _ => n source = 0 ∧ (s.pools source).tasks = []
  | .moveAssign source dest => (n source = 0 ∧ (s.pools source).tasks = []) ∧
      ((n dest = 0 ∧ (s.pools dest).tasks = []) ∨
        (0 < n dest ∧ (s.pools source).stop = false))
  | .work p (.enqueue _ _) => 0 < n p ∨ s.sources p = []
  | _ => True

end Pools

/-- Some pools in use. -/
def moving (τ : Type*) {ι : Type*} [DecidableEq ι] (n : ι → ℕ) :
    System (Pools τ n) (PoolsStep τ n) where
  Permits := Pools.Permits
  step := Pools.step

/-! ## One pool -/

namespace ThreadPool

variable {τ : Type*} {k : ℕ} {s : ThreadPool τ k} {e : PoolStep τ k} {v w : Fin k}
  {worker : Worker τ}

theorem workers_move_returned (hw : s.workers w = .returned) (hv : s.workers v ≠ .returned) :
    (s.move v worker).workers w = .returned := by
  have hne : w ≠ v := by
    rintro rfl
    exact hv hw
  rw [workers_move_of_ne hne, hw]

/-- A worker that has returned does nothing more. -/
theorem returned_step (hpermits : s.Permits e) (hw : s.workers w = .returned) :
    (s.step e).workers w = .returned := by
  cases e with
  | testFlag v => exact workers_move_returned hw fun hv => by cases hpermits.symm.trans hv
  | lock v => exact workers_move_returned hw fun hv => by cases hpermits.1.symm.trans hv
  | test v => exact workers_move_returned hw fun hv => by cases hpermits.symm.trans hv
  | sleep v => exact workers_move_returned hw fun hv => by cases hpermits.symm.trans hv
  | wake v => exact workers_move_returned hw fun hv => by cases hpermits.symm.trans hv
  | dequeue v =>
      have hv : s.workers v ≠ .returned := fun hv => by cases hpermits.symm.trans hv
      unfold step
      dsimp only
      split
      · exact workers_move_returned hw hv
      · split
        · exact workers_move_returned hw hv
        · exact hw
  | finish v =>
      obtain ⟨task, hrunning⟩ := hpermits
      rw [step_finish hrunning]
      exact workers_move_returned hw fun hv => by cases hrunning.symm.trans hv
  | enqueue caller task => exact hw
  | notifyOne woken =>
      cases woken with
      | none => exact hw
      | some v => exact workers_move_returned hw fun hv => by cases hpermits.2.symm.trans hv
  | setStop => exact hw
  | notifyAll =>
      show (s.workers w).woken = .returned
      rw [hw]
      rfl

/-- Only the destructor and a move touch `stop_`. -/
theorem destructor_step (hset : e ≠ .setStop) (hnotify : e ≠ .notifyAll) :
    (s.step e).destructor = s.destructor := by
  cases e with
  | dequeue v =>
      unfold step
      dsimp only
      split
      · rfl
      · split <;> rfl
  | finish v =>
      unfold step
      dsimp only
      split <;> rfl
  | notifyOne woken => cases woken <;> rfl
  | setStop => exact absurd rfl hset
  | notifyAll => exact absurd rfl hnotify
  | _ => rfl

/-- Nothing changes where `stop_` is not set and not to be set. -/
theorem assignStop_of_notCalled (h : s.destructor = .notCalled) : s.assignStop false = s := by
  cases s
  cases h
  rfl

/-- A pool without workers. -/
theorem located_of_zero (h : k = 0) (s : ThreadPool τ k) : s.Located := by
  subst h
  exact ⟨fun w => w.elim0, fun w => w.elim0⟩

/-- Without workers nothing is done with the tasks, but more of them may be enqueued. -/
theorem step_of_zero (hk : k = 0) (e : PoolStep τ k) :
    (∃ caller task, e = .enqueue caller task) ∨
      ((s.step e).tasks = s.tasks ∧ (s.step e).enqueued = s.enqueued ∧
        (s.step e).executed = s.executed) := by
  subst hk
  cases e with
  | enqueue caller task => exact .inl ⟨caller, task, rfl⟩
  | setStop => exact .inr ⟨rfl, rfl, rfl⟩
  | notifyAll => exact .inr ⟨rfl, rfl, rfl⟩
  | notifyOne woken =>
      cases woken with
      | none => exact .inr ⟨rfl, rfl, rfl⟩
      | some w => exact w.elim0
  | testFlag w => exact w.elim0
  | lock w => exact w.elim0
  | test w => exact w.elim0
  | sleep w => exact w.elim0
  | wake w => exact w.elim0
  | dequeue w => exact w.elim0
  | finish w => exact w.elim0

/-- Nothing has been taken out of the queue. -/
structure Untaken (s : ThreadPool τ k) : Prop where
  queue : s.enqueued = s.tasks
  executed : s.executed = []

theorem Untaken.step (h : s.Untaken) (hk : k = 0) (e : PoolStep τ k) : (s.step e).Untaken := by
  rcases step_of_zero (s := s) hk e with ⟨caller, task, rfl⟩ | ⟨htasks, henqueued, hexecuted⟩
  · exact ⟨congrArg (· ++ [task]) h.queue, h.executed⟩
  · exact ⟨henqueued.trans (h.queue.trans htasks.symm), hexecuted.trans h.executed⟩

end ThreadPool

namespace Pools

open ThreadPool

variable {τ ι : Type*} {n : ι → ℕ} {s : Pools τ n} {p q : ι}

/-- **What careful moves keep**: a pool with workers is never moved, and only its destructor stops
it; one without workers is given no task once another was moved to it. -/
structure Sound (s : Pools τ n) : Prop where
  located : ∀ p, (s.pools p).Located
  accounted : ∀ p, 0 < n p → (s.pools p).Accounted
  untaken : ∀ p, n p = 0 → (s.pools p).Untaken
  empty : ∀ p, n p = 0 → s.life p = .unborn ∨ s.sources p ≠ [] → (s.pools p).tasks = []
  unstopped : ∀ p, 0 < n p → s.life p ≠ .ending → (s.pools p).destructor = .notCalled
  unmoved : ∀ p, 0 < n p → s.moving p = none
  joined : ∀ p w, s.joinable p w = true ∨ w.val < s.joined p
  returned : ∀ p w, w.val < s.joined p → (s.pools p).workers w = .returned
  sources : ∀ p, ∀ source ∈ s.sources p, source.2 = []

theorem Sound.lossless (h : s.Sound) : s.Lossless where
  awake p w := by
    intro hstuck
    have hmoving := hstuck.1
    rw [h.unmoved p w.pos] at hmoving
    cases hmoving
  executed p hcared hdestroyed := by
    rcases Nat.eq_zero_or_pos (n p) with hzero | hpos
    · have hmoved : s.sources p ≠ [] := hcared.resolve_left (by omega)
      have huntaken := h.untaken p hzero
      rw [huntaken.executed, huntaken.queue, h.empty p hzero (.inr hmoved)]
    · refine (h.accounted p hpos).exactlyOnce.all fun w => h.returned p w ?_
      rw [hdestroyed.2.2]
      exact w.isLt
  handedOver p _ source hsource := by
    rw [h.sources p source hsource]
    exact Multiset.zero_le _
  joinable p w _ _ hw := (h.joined p w).resolve_right (by omega)

theorem sound_init : ({} : Pools τ n).Sound where
  located _ := located_init
  accounted _ _ := accounted_init
  untaken _ _ := ⟨rfl, rfl⟩
  empty _ _ _ := rfl
  unstopped _ _ _ := rfl
  unmoved _ _ := rfl
  joined _ _ := .inl rfl
  returned _ _ hlt := absurd hlt (Nat.not_lt_zero _)
  sources _ := nofun

/-- A pool with workers does what it does without moves. -/
theorem Sound.permits (h : s.Sound) {e : PoolStep τ (n p)} (hpermits : s.WorkPermits p e)
    (hn : 0 < n p) : (s.pools p).Permits e := by
  have halive : s.life p = .alive → (s.pools p).destructor = .notCalled := by
    intro hlife
    refine h.unstopped p hn ?_
    rw [hlife]
    exact nofun
  cases e with
  | enqueue caller task =>
      cases caller with
      | none => exact ⟨hpermits.1, halive hpermits.2⟩
      | some w => exact hpermits.2
  | setStop => exact halive hpermits.1
  | notifyAll => exact hpermits.2
  | _ => exact hpermits.2

/-- An object that has not come to life does nothing. -/
theorem WorkPermits.born {e : PoolStep τ (n p)} (h : s.WorkPermits p e) : s.life p ≠ .unborn := by
  intro hlife
  cases e with
  | enqueue caller task =>
      cases caller with
      | none => cases hlife.symm.trans h.2
      | some w => exact h.1 hlife
  | setStop => cases hlife.symm.trans h.1
  | notifyAll => cases hlife.symm.trans h.1
  | _ => exact h.1 hlife

variable [DecidableEq ι]

theorem pools_work (p : ι) (e : PoolStep τ (n p)) :
    (s.step (.work p e)).pools p = (s.pools p).step e := Function.update_self ..

theorem pools_work_of_ne (h : q ≠ p) (e : PoolStep τ (n p)) :
    (s.step (.work p e)).pools q = s.pools q := Function.update_of_ne h ..

/-- A pool whose destructor is not called is as alive as before. -/
theorem life_work {e : PoolStep τ (n p)} (h : (s.step (.work p e)).life q ≠ .ending) :
    s.life q ≠ .ending ∧ (q = p → e ≠ .setStop) := by
  cases e with
  | setStop =>
      have hne : q ≠ p := by
        rintro rfl
        exact h (Function.update_self ..)
      have hlife : (s.step (.work p .setStop)).life q = s.life q := Function.update_of_ne hne ..
      exact ⟨hlife ▸ h, fun heq => absurd heq hne⟩
  | _ => exact ⟨h, fun _ => nofun⟩

theorem life_work_eq_unborn {e : PoolStep τ (n p)}
    (h : (s.step (.work p e)).life q = .unborn) : s.life q = .unborn := by
  cases e with
  | setStop =>
      by_cases hq : q = p
      · subst hq
        cases (Function.update_self ..).symm.trans h
      · exact (Function.update_of_ne hq ..).symm.trans h
  | _ => exact h

/-- One step of one pool. -/
theorem Sound.work (h : s.Sound) {e : PoolStep τ (n p)} (hpermits : s.WorkPermits p e)
    (hcareful : s.Careful (.work p e)) : (s.step (.work p e)).Sound := by
  constructor
  case located =>
      intro q
      by_cases hq : q = p
      · subst hq
        rw [pools_work]
        rcases Nat.eq_zero_or_pos (n q) with hzero | hpos
        · exact located_of_zero hzero _
        · exact (h.located q).step (h.permits hpermits hpos)
      · rw [pools_work_of_ne hq]
        exact h.located q
  case accounted =>
      intro q hpos
      by_cases hq : q = p
      · subst hq
        rw [pools_work]
        exact (h.accounted q hpos).step (h.located q) hpos (h.permits hpermits hpos)
      · rw [pools_work_of_ne hq]
        exact h.accounted q hpos
  case untaken =>
      intro q hzero
      by_cases hq : q = p
      · subst hq
        rw [pools_work]
        exact (h.untaken q hzero).step hzero e
      · rw [pools_work_of_ne hq]
        exact h.untaken q hzero
  case empty =>
      intro q hzero hcase
      have hbefore := h.empty q hzero (hcase.imp_left life_work_eq_unborn)
      by_cases hq : q = p
      · subst hq
        rw [pools_work]
        rcases step_of_zero (s := s.pools q) hzero e with ⟨caller, task, rfl⟩ | ⟨htasks, -⟩
        · -- it is alive, and nothing was moved to it
          have hmoved : s.sources q = [] := hcareful.resolve_left (by omega)
          rcases hcase with hunborn | hsources
          · exact absurd (life_work_eq_unborn hunborn) hpermits.born
          · exact absurd hmoved hsources
        · exact htasks.trans hbefore
      · rw [pools_work_of_ne hq]
        exact hbefore
  case unstopped =>
      intro q hpos hlife
      obtain ⟨hbefore, hset⟩ := life_work hlife
      have hunstopped := h.unstopped q hpos hbefore
      by_cases hq : q = p
      · subst hq
        have hnotify : e ≠ .notifyAll := by
          rintro rfl
          exact hbefore hpermits.1
        rw [pools_work, destructor_step (hset rfl) hnotify]
        exact hunstopped
      · rw [pools_work_of_ne hq]
        exact hunstopped
  case unmoved => exact h.unmoved
  case joined => exact h.joined
  case returned =>
      intro q w hlt
      have hreturned := h.returned q w hlt
      by_cases hq : q = p
      · subst hq
        rw [pools_work]
        exact returned_step (h.permits hpermits w.pos) hreturned
      · rw [pools_work_of_ne hq]
        exact hreturned
  case sources => exact h.sources

/-- A thread is joined. -/
theorem join_cases (p : ι) (k : ℕ) (q : ι) (w : Fin (n q)) :
    s.join p k q w = s.joinable q w ∨ (q = p ∧ w.val = k) := by
  unfold join
  by_cases hq : q = p
  · subst hq
    by_cases hw : w.val = k
    · exact Or.inr ⟨rfl, hw⟩
    · exact Or.inl (by simp [hw])
  · exact Or.inl (by rw [Function.update_of_ne hq])

theorem Sound.joinDestroyed (h : s.Sound) (hpermits : s.Permits (.joinDestroyed p)) :
    (s.step (.joinDestroyed p)).Sound := by
  obtain ⟨-, -, last, hlast, -, hreturned⟩ := hpermits
  have hself : (s.step (.joinDestroyed p)).joined p = s.joined p + 1 := Function.update_self ..
  have hother : ∀ q ≠ p, (s.step (.joinDestroyed p)).joined q = s.joined q :=
    fun q hq => Function.update_of_ne hq ..
  refine ⟨h.located, h.accounted, h.untaken, h.empty, h.unstopped, h.unmoved, fun q w => ?_,
    fun q w hlt => ?_, h.sources⟩
  · rcases join_cases (s := s) p (s.joined p) q w with hsame | ⟨rfl, hw⟩
    · refine (h.joined q w).imp hsame.trans fun hlt => ?_
      by_cases hq : q = p
      · subst hq
        omega
      · rw [hother q hq]
        exact hlt
    · right
      omega
  · by_cases hq : q = p
    · subst hq
      rcases Nat.lt_or_ge w.val (s.joined q) with hbefore | hge
      · exact h.returned q w hbefore
      · have hw : w = last := Fin.ext (by omega)
        rw [hw]
        exact hreturned
    · rw [hother q hq] at hlt
      exact h.returned q w hlt

/-- A careful move changes no pool that has workers. -/
theorem Sound.pools_beginMove {source dest : ι} (h : s.Sound) (hzero : n source = 0)
    (hdest : n dest = 0 ∨ ((s.pools source).stop = false ∧ s.life dest ≠ .ending)) (q : ι) :
    (s.beginMove source dest).pools q = s.pools q ∨
      (n q = 0 ∧ ∃ stop, (s.beginMove source dest).pools q = (s.pools q).assignStop stop) := by
  by_cases hsource : q = source
  · subst hsource
    exact Or.inr ⟨hzero, true, Function.update_self ..⟩
  · have hinner : (s.beginMove source dest).pools q = Function.update s.pools dest
        ((s.pools dest).assignStop (s.pools source).stop) q := Function.update_of_ne hsource ..
    by_cases hq : q = dest
    · subst hq
      rw [hinner, Function.update_self]
      rcases Nat.eq_zero_or_pos (n q) with hnone | hpos
      · exact Or.inr ⟨hnone, _, rfl⟩
      · obtain ⟨hstop, hlife⟩ := hdest.resolve_left (Nat.ne_of_gt hpos)
        rw [hstop]
        exact Or.inl (assignStop_of_notCalled (h.unstopped q hpos hlife))
    · rw [hinner]
      exact Or.inl (Function.update_of_ne hq ..)

theorem Sound.beginMove {source dest : ι} (h : s.Sound)
    (hsource : n source = 0 ∧ (s.pools source).tasks = [])
    (hdest : (n dest = 0 ∧ (s.pools dest).tasks = []) ∨
      (0 < n dest ∧ (s.pools source).stop = false ∧ s.life dest ≠ .ending)) :
    (s.beginMove source dest).Sound := by
  have hpools := h.pools_beginMove hsource.1 (hdest.imp And.left And.right)
  have htasks : ∀ q, ((s.beginMove source dest).pools q).tasks = (s.pools q).tasks := by
    intro q
    rcases hpools q with hsame | ⟨-, stop, hstop⟩
    · rw [hsame]
    · rw [hstop]
      rfl
  constructor
  case located =>
      intro q
      rcases hpools q with hsame | ⟨hnone, -⟩
      · rw [hsame]
        exact h.located q
      · exact located_of_zero hnone _
  case accounted =>
      intro q hpos
      rw [(hpools q).resolve_right fun hnone => by omega]
      exact h.accounted q hpos
  case untaken =>
      intro q hzero
      have huntaken := h.untaken q hzero
      rcases hpools q with hsame | ⟨-, stop, hstop⟩
      · rw [hsame]
        exact huntaken
      · rw [hstop]
        exact ⟨huntaken.queue, huntaken.executed⟩
  case empty =>
      intro q hzero hcase
      rw [htasks q]
      by_cases hq : q = dest
      · subst hq
        exact (hdest.resolve_right fun hpos => by omega).2
      · have hsame : (s.beginMove source dest).sources q = s.sources q :=
          Function.update_of_ne hq ..
        exact h.empty q hzero (hsame ▸ hcase)
  case unstopped =>
      intro q hpos hlife
      rw [(hpools q).resolve_right fun hnone => by omega]
      exact h.unstopped q hpos hlife
  case unmoved =>
      intro q hpos
      have hq : q ≠ source := by
        rintro rfl
        omega
      exact (Function.update_of_ne hq ..).trans (h.unmoved q hpos)
  case joined => exact h.joined
  case returned =>
      intro q w hlt
      rw [(hpools q).resolve_right fun hnone => by have := w.pos; omega]
      exact h.returned q w hlt
  case sources =>
      intro q entry hentry
      by_cases hq : q = dest
      · subst hq
        have hcons : (s.beginMove source q).sources q =
            (source, (s.pools source).tasks) :: s.sources q := Function.update_self ..
        rw [hcons] at hentry
        rcases List.mem_cons.mp hentry with rfl | hold
        · exact hsource.2
        · exact h.sources q entry hold
      · have hsame : (s.beginMove source dest).sources q = s.sources q :=
          Function.update_of_ne hq ..
        exact h.sources q entry (hsame ▸ hentry)

/-- An object comes to life. -/
theorem Sound.born (h : s.Sound) (hborn : n p = 0 ∨ s.life p ≠ .ending) :
    Sound { s with life := Function.update s.life p .alive } := by
  have hlife : ∀ q ≠ p, Function.update s.life p .alive q = s.life q := fun q hq =>
    Function.update_of_ne hq ..
  refine ⟨h.located, h.accounted, h.untaken, fun q hzero hcase => ?_, fun q hpos hending => ?_,
    h.unmoved, h.joined, h.returned, h.sources⟩
  · refine h.empty q hzero (hcase.imp_left fun hunborn => ?_)
    by_cases hq : q = p
    · subst hq
      cases (Function.update_self ..).symm.trans hunborn
    · exact (hlife q hq).symm.trans hunborn
  · refine h.unstopped q hpos ?_
    by_cases hq : q = p
    · subst hq
      exact hborn.resolve_left (Nat.ne_of_gt hpos)
    · exact hlife q hq ▸ hending

/-- The loop of a move has nothing to join. -/
theorem Sound.joinMoved (h : s.Sound) (hpermits : s.Permits (.joinMoved p)) :
    (s.step (.joinMoved p)).Sound := by
  obtain ⟨k, hmoving, -⟩ := hpermits
  have hzero : n p = 0 := by
    by_contra hne
    rw [h.unmoved p (Nat.pos_of_ne_zero hne)] at hmoving
    cases hmoving
  have hstep : s.step (.joinMoved p) = { s with
      joinable := s.join p k
      moving := Function.update s.moving p (if k < n p then some (k + 1) else none) } := by
    unfold Pools.step
    dsimp only
    rw [hmoving]
  rw [hstep]
  refine ⟨h.located, h.accounted, h.untaken, h.empty, h.unstopped, fun q hpos => ?_,
    fun q w => ?_, h.returned, h.sources⟩
  · have hq : q ≠ p := by
      rintro rfl
      omega
    exact (Function.update_of_ne hq ..).trans (h.unmoved q hpos)
  · rcases join_cases (s := s) p k q w with hsame | ⟨rfl, -⟩
    · exact (h.joined q w).imp_left hsame.trans
    · exact absurd w.pos (by omega)

/-- **One step.** -/
theorem Sound.step (h : s.Sound) {e : PoolsStep τ n} (hpermits : s.Permits e)
    (hcareful : s.Careful e) : (s.step e).Sound := by
  cases e with
  | construct p =>
      have hlife : s.life p = .unborn := hpermits
      exact h.born (Or.inr (by rw [hlife]; exact nofun))
  | work p e => exact h.work hpermits hcareful
  | joinDestroyed p => exact h.joinDestroyed hpermits
  | moveConstruct source dest =>
      obtain ⟨-, -, hunborn, hdest⟩ := hpermits
      have hempty := h.empty dest hdest (Or.inl hunborn)
      exact (h.beginMove hcareful (Or.inl ⟨hdest, hempty⟩)).born (Or.inl hdest)
  | moveAssign source dest =>
      obtain ⟨hsource, hdest⟩ := hcareful
      have hlife : s.life dest ≠ .ending := by
        rw [hpermits.2.2.2.1]
        exact nofun
      exact h.beginMove hsource (hdest.imp_right fun hpos => ⟨hpos.1, hpos.2, hlife⟩)
  | joinMoved p => exact h.joinMoved hpermits

end Pools

open Pools

/-- **When moving thread pools loses nothing.**  In a run of any pools, whatever the order of the
steps: if every pool that is moved has no workers and an empty queue and does not stop those of
another, and every pool without workers that one is moved to has an empty queue and is given no
task. -/
theorem lossless_of_careful {τ ι : Type*} [DecidableEq ι] {n : ι → ℕ} (steps : List (PoolsStep τ n))
    (hrun : (moving τ n).Run {} steps) (hcareful : (moving τ n).Throughout Careful {} steps) :
    (moving τ n).Always Lossless {} steps := by
  have hsound : (moving τ n).Always Sound {} steps :=
    always_of_invariant (fun _ _ h hpermits hcareful => h.step hpermits hcareful) sound_init hrun
      hcareful
  exact hsound.imp fun _ h => h.lossless

/-- One pool with one worker, and one without. -/
def oneWorker : Bool → ℕ := fun p => bif p then 1 else 0

def worker : Fin (oneWorker true) := ⟨0, Nat.one_pos⟩

/-- The pool without workers is assigned to the other, which is given a task then. -/
def movedEmpty : List (PoolsStep ℕ oneWorker) :=
  [.construct false, .construct true, .moveAssign false true, .joinMoved false,
    .work true (.enqueue none 7)]

theorem run_movedEmpty : (moving ℕ oneWorker).Run {} movedEmpty :=
  ⟨rfl, rfl, ⟨nofun, rfl, rfl, rfl, rfl⟩, ⟨0, rfl, fun w => w.elim0⟩, ⟨rfl, rfl⟩, trivial⟩

theorem lossless_movedEmpty : (moving ℕ oneWorker).Always Lossless {} movedEmpty := by
  have hassign : ∀ s : Pools ℕ oneWorker, (s.pools false).tasks = [] →
      (s.pools false).stop = false → s.Careful (.moveAssign false true) := fun s htasks hstop =>
    ⟨⟨rfl, htasks⟩, .inr ⟨Nat.one_pos, hstop⟩⟩
  exact lossless_of_careful movedEmpty run_movedEmpty
    ⟨trivial, trivial, hassign _ rfl rfl, trivial, .inl Nat.one_pos, trivial⟩

/-- A pool is moved while its worker waits for a task. -/
def movedAsleep : List (PoolsStep ℕ oneWorker) :=
  [.construct true, .work true (.testFlag worker), .work true (.lock worker),
    .work true (.test worker), .work true (.sleep worker), .moveConstruct true false]

theorem run_movedAsleep : (moving ℕ oneWorker).Run {} movedAsleep :=
  ⟨rfl, ⟨nofun, rfl⟩, ⟨nofun, rfl, rfl⟩, ⟨nofun, rfl⟩, ⟨nofun, rfl⟩, ⟨rfl, rfl, rfl, rfl⟩, trivial⟩

/-- The move waits for the worker, and nobody will notify it. -/
theorem not_lossless_movedAsleep :
    (moving ℕ oneWorker).Run {} movedAsleep ∧
      ¬ (moving ℕ oneWorker).Always Lossless {} movedAsleep := by
  refine ⟨run_movedAsleep, fun halways => ?_⟩
  refine halways.last.awake true worker ⟨rfl, rfl, rfl, rfl, fun v task hrunning => ?_⟩
  obtain rfl : v = worker := Fin.ext (Nat.lt_one_iff.mp v.isLt)
  cases hrunning

end GinCpp.Core
