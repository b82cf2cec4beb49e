import GinCpp.Locks.Basic
import GinCpp.Middleware.RateLimiter

/-!
# Rate limiters and their locks

`RateLimiter::operator()` locks the mutex of the limiter and calls `next` while it has it.  So a
thread that serves a request holds the locks of all the limiters that it has passed, in the order
of its pipeline, until the rest of the chain has returned.  A thread that locks a mutex once more
is taken to wait for itself.

Requests that pass limiters in an order that all pipelines agree on are all answered, and soon
(`served`).  Behind a limiter there is one request at a time, and a pipeline with one limiter twice
never comes to its application (`alone_behind`).  Where pipelines begin with limiters in orders that
go round, their requests can come to wait for each other for ever (`deadlock_of_cycle`).
-/

namespace GinCpp.Middleware

open Locks Transition System Utils

variable {ι L E : Type}

/-- The limiters, and the requests on their way through their pipelines. -/
structure Traffic (ι L E : Type) where
  limiters : L → RateLimiter
  exchanges : ι → Exchange E
  phases : ι → LockPhase

/-- What the thread of a request does next. -/
inductive TrafficStep (ι : Type)
  /-- The lock guard is made. -/
  | lock (i : ι)
  | consume (i : ι) (now : ℚ)
  /-- The application, behind all limiters. -/
  | application (i : ι)
  /-- `operator()` returns. -/
  | unlock (i : ι)

/-- The time of a step at a limiter. -/
def TrafficStep.time? : TrafficStep ι → Option ℚ
  | .consume _ now => some now
  | .lock _ | .application _ | .unlock _ => none

/-- The limiter whose mutex a request has just locked. -/
def limiterOf (plan : ι → List L) (phases : ι → LockPhase) (i : ι) : Option L :=
  match phases i with
  | .deciding position => (plan i)[position]?
  | _ => none

/-- A request that has locked a mutex has locked that of a limiter of its pipeline. -/
theorem exists_limiterOf {plan : ι → List L} {phases : ι → LockPhase} {i : ι}
    (h : Exclusive plan phases) (hmove : Enabled plan phases i .proceed) :
    ∃ l, limiterOf plan phases i = some l := by
  obtain ⟨position, hphase⟩ := hmove
  have hlt : position < (plan i).length := by
    have := h.depth_le i
    rwa [hphase] at this
  refine ⟨(plan i)[position], ?_⟩
  rw [limiterOf, hphase]
  exact List.getElem?_eq_getElem hlt

theorem held_of_entering_one {plan : ι → List L} {phases : ι → LockPhase} {i : ι} {l : L}
    (hphase : phases i = .entering 1) (hplan : (plan i)[0]? = some l) :
    held plan phases i = [l] := by
  rw [held, hphase, LockPhase.depth, List.take_one, List.head?_eq_getElem?, hplan]
  rfl

/-- The requests, each with the limiters of its pipeline in their order and an application. -/
def traffic [DecidableEq ι] [DecidableEq L] (plan : ι → List L)
    (app : ι → Exchange E → Exchange E) : System (Traffic ι L E) (TrafficStep ι) where
  Permits s
    | .lock i => Enabled plan s.phases i .acquire
    | .consume i _ => Enabled plan s.phases i .proceed
    | .application i => Enabled plan s.phases i .work
    | .unlock i => Enabled plan s.phases i .release
  step s
    | .lock i => { s with phases := Function.update s.phases i ((s.phases i).move .acquire) }
    | .consume i now =>
        match limiterOf plan s.phases i with
        | some l =>
            let (passed, limiter) := (s.limiters l).consume now
            { limiters := Function.update s.limiters l limiter
              exchanges := if passed then s.exchanges else
                Function.update s.exchanges i (RateLimiter.tooManyRequests (s.exchanges i))
              phases := Function.update s.phases i
                ((s.phases i).move (if passed then .proceed else .refuse)) }
        | none => s
    | .application i =>
        { s with
          exchanges := Function.update s.exchanges i (app i (s.exchanges i))
          phases := Function.update s.phases i ((s.phases i).move .work) }
    | .unlock i => { s with phases := Function.update s.phases i ((s.phases i).move .release) }

section

variable [DecidableEq ι] [DecidableEq L] {plan : ι → List L} {app : ι → Exchange E → Exchange E}
  {limiters : L → RateLimiter} {exchanges : ι → Exchange E} {s : Traffic ι L E}
  {action : TrafficStep ι} {steps : List (TrafficStep ι)}

/-- A request whose turn it is at a limiter. -/
theorem step_consume {i : ι} {now : ℚ} {l : L} (hl : limiterOf plan s.phases i = some l) :
    (traffic plan app).step s (.consume i now) =
      { limiters := Function.update s.limiters l ((s.limiters l).consume now).2
        exchanges := if ((s.limiters l).consume now).1 then s.exchanges else
          Function.update s.exchanges i (RateLimiter.tooManyRequests (s.exchanges i))
        phases := Function.update s.phases i
          ((s.phases i).move (if ((s.limiters l).consume now).1 then .proceed else .refuse)) } := by
  simp only [traffic, hl]

/-- Every step is a move. -/
theorem exists_move (h : Exclusive plan s.phases) (hpermits : (traffic plan app).Permits s action) :
    ∃ move, (locking plan).Permits s.phases move ∧
      ((traffic plan app).step s action).phases = (locking plan).step s.phases move := by
  cases action with
  | lock i => exact ⟨(i, .acquire), hpermits, rfl⟩
  | application i => exact ⟨(i, .work), hpermits, rfl⟩
  | unlock i => exact ⟨(i, .release), hpermits, rfl⟩
  | consume i now =>
      obtain ⟨l, hl⟩ := exists_limiterOf h hpermits
      refine ⟨(i, if ((s.limiters l).consume now).1 then .proceed else .refuse), ?_, ?_⟩
      · change Enabled plan s.phases i _
        split_ifs
        · exact hpermits
        · exact hpermits
      · rw [step_consume hl]
        rfl

/-- A run is one of the locks. -/
theorem exists_locking_run (h : Exclusive plan s.phases) (hrun : (traffic plan app).Run s steps) :
    ∃ moves, moves.length = steps.length ∧ (locking plan).Run s.phases moves ∧
      (locking plan).run s.phases moves = ((traffic plan app).run s steps).phases :=
  exists_run_of_simulates (f := Traffic.phases) (fun _ _ h hpermits => h.step hpermits)
    (fun _ _ h hpermits => exists_move h hpermits) h hrun

theorem exclusive_traffic (hrun : (traffic plan app).Run ⟨limiters, exchanges, start ι⟩ steps) :
    Exclusive plan ((traffic plan app).run ⟨limiters, exchanges, start ι⟩ steps).phases := by
  obtain ⟨moves, -, hmoves, hlast⟩ := exists_locking_run (exclusive_start plan) hrun
  rw [← hlast]
  exact (exclusive_run hmoves).last

/-! ## What the requests get -/

/-- A request is as it came until the application has worked on it or a limiter has refused it. -/
def Answered (app : Exchange E → Exchange E) (arrived : Exchange E) : LockPhase → Exchange E → Prop
  | .leaving _, s => s = app arrived ∨ s = RateLimiter.tooManyRequests arrived
  | _, s => s = arrived

/-- One request goes on, and the others stay. -/
theorem answered_update {phases : ι → LockPhase} {current : ι → Exchange E} {j : ι}
    {phase : LockPhase} {exchange : Exchange E}
    (h : ∀ i, Answered (app i) (exchanges i) (phases i) (current i))
    (hj : Answered (app j) (exchanges j) phase exchange) (i : ι) :
    Answered (app i) (exchanges i) (Function.update phases j phase i)
      (Function.update current j exchange i) := by
  rcases eq_or_ne i j with rfl | hne
  · rwa [Function.update_self, Function.update_self]
  · rw [Function.update_of_ne hne, Function.update_of_ne hne]
    exact h i

/-- One request goes on as it is. -/
theorem answered_move {phases : ι → LockPhase} {current : ι → Exchange E} {j : ι}
    {phase : LockPhase} (h : ∀ i, Answered (app i) (exchanges i) (phases i) (current i))
    (hj : Answered (app j) (exchanges j) phase (current j)) (i : ι) :
    Answered (app i) (exchanges i) (Function.update phases j phase i) (current i) := by
  have hupdate := answered_update h hj i
  rwa [Function.update_eq_self] at hupdate

theorem answered_step (h : ∀ i, Answered (app i) (exchanges i) (s.phases i) (s.exchanges i))
    (hpermits : (traffic plan app).Permits s action) :
    ∀ i, Answered (app i) (exchanges i) (((traffic plan app).step s action).phases i)
      (((traffic plan app).step s action).exchanges i) := by
  cases action with
  | lock j =>
      obtain ⟨d, l, hphase, -⟩ := hpermits
      have hj := h j
      rw [hphase] at hj
      refine answered_move h ?_
      rw [hphase]
      exact hj
  | consume j now =>
      obtain ⟨d, hphase⟩ := hpermits
      have hj := h j
      rw [hphase] at hj
      have hj : s.exchanges j = exchanges j := hj
      cases hlimiter : limiterOf plan s.phases j with
      | none =>
          simp only [traffic, hlimiter]
          exact h
      | some l =>
          rw [step_consume hlimiter, hphase]
          dsimp only
          cases ((s.limiters l).consume now).1 with
          | true => exact answered_move h hj
          | false => exact answered_update h (.inr (by rw [hj]))
  | application j =>
      have hphase : s.phases j = .entering (plan j).length := hpermits
      have hj := h j
      rw [hphase] at hj
      have hj : s.exchanges j = exchanges j := hj
      refine answered_update h ?_
      rw [hphase, hj]
      exact .inl rfl
  | unlock j =>
      obtain ⟨d, hphase⟩ := hpermits
      have hj := h j
      rw [hphase] at hj
      refine answered_move h ?_
      rw [hphase]
      exact hj

theorem answered_run (hrun : (traffic plan app).Run ⟨limiters, exchanges, start ι⟩ steps) (i : ι) :
    Answered (app i) (exchanges i)
      (((traffic plan app).run ⟨limiters, exchanges, start ι⟩ steps).phases i)
      (((traffic plan app).run ⟨limiters, exchanges, start ι⟩ steps).exchanges i) := by
  have hstep : ∀ s action,
      (∀ i, Answered (app i) (exchanges i) (s.phases i) (s.exchanges i)) →
        (traffic plan app).Permits s action → True →
          ∀ i, Answered (app i) (exchanges i) (((traffic plan app).step s action).phases i)
            (((traffic plan app).step s action).exchanges i) :=
    fun _ _ h hpermits _ => answered_step h hpermits
  refine (always_of_invariant hstep ?_ hrun
    (throughout_of_forall fun _ _ _ => trivial)).last i
  exact fun _ => rfl

/-- Two requests, and two new limiters. -/
def twoRequests : Traffic Bool Bool Unit where
  limiters _ := .construct 5 1
  exchanges _ := ⟨{ httpVersionMajor := 1, httpVersionMinor := 1 }, { status := .ok }, ()⟩
  phases := start Bool

/-- What a task could do is a step of its thread. -/
theorem exists_permitted {j : ι} {m : Move} (h : Enabled plan s.phases j m) :
    ∃ action, (traffic plan app).Permits s action := by
  cases m with
  | acquire => exact ⟨.lock j, h⟩
  | proceed => exact ⟨.consume j 0, h⟩
  | refuse => exact ⟨.consume j 0, h⟩
  | work => exact ⟨.application j, h⟩
  | release => exact ⟨.unlock j, h⟩

/-- **Requests that pass limiters in an order that all pipelines agree on are all answered.**  The
threads together take a bounded number of steps, and they stop only when each of the requests is
done, with the answer of its application or of a limiter. -/
theorem served [Fintype ι] {rank : L → ℕ} (hrank : ∀ i, (plan i).Pairwise (rank · < rank ·))
    (hrun : (traffic plan app).Run ⟨limiters, exchanges, start ι⟩ steps) :
    steps.length ≤ ∑ i, (3 * (plan i).length + 1) ∧
      ((∃ action, (traffic plan app).Permits
          ((traffic plan app).run ⟨limiters, exchanges, start ι⟩ steps) action) ∨
        ∀ i, ((traffic plan app).run ⟨limiters, exchanges, start ι⟩ steps).phases i = .done ∧
          (((traffic plan app).run ⟨limiters, exchanges, start ι⟩ steps).exchanges i =
              app i (exchanges i) ∨
            ((traffic plan app).run ⟨limiters, exchanges, start ι⟩ steps).exchanges i =
              RateLimiter.tooManyRequests (exchanges i))) := by
  constructor
  · obtain ⟨moves, hlength, hmoves, -⟩ := exists_locking_run (exclusive_start plan) hrun
    rw [← hlength]
    exact length_le hmoves
  · by_cases hdone : ∀ i,
        ((traffic plan app).run ⟨limiters, exchanges, start ι⟩ steps).phases i = .done
    · refine .inr fun i => ⟨hdone i, ?_⟩
      have hanswered := answered_run hrun i
      rwa [hdone i] at hanswered
    · obtain ⟨i, hi⟩ := not_forall.mp hdone
      obtain ⟨j, m, hmove⟩ := (exclusive_traffic hrun).exists_enabled hrank hi
      exact .inl (exists_permitted hmove)

/-- Two requests, one of which has passed the first of two limiters. -/
theorem served_two :
    let S : System (Traffic Bool Bool Unit) (TrafficStep Bool) :=
      traffic (fun _ => [false, true]) fun _ => id
    let s := S.run twoRequests [.lock true, .consume true 0]
    2 ≤ ∑ _i : Bool, (3 * 2 + 1) ∧
      ((∃ action, S.Permits s action) ∨ ∀ i, s.phases i = .done ∧
        (s.exchanges i = id (twoRequests.exchanges i) ∨
          s.exchanges i = RateLimiter.tooManyRequests (twoRequests.exchanges i))) := by
  intro S
  have hrun : S.Run twoRequests [.lock true, .consume true 0] :=
    ⟨⟨0, false, rfl, rfl, fun _ => List.not_mem_nil⟩, ⟨0, rfl⟩, trivial⟩
  have hrank : ∀ _i : Bool, [false, true].Pairwise (Bool.toNat · < Bool.toNat ·) := by decide
  exact served hrank hrun

/-- **Behind a limiter there is one request at a time**, until it is answered; and a request with
one limiter twice in its pipeline never comes to its application. -/
theorem alone_behind (hrun : (traffic plan app).Run ⟨limiters, exchanges, start ι⟩ steps) :
    (∀ i j l,
        l ∈ held plan ((traffic plan app).run ⟨limiters, exchanges, start ι⟩ steps).phases i →
        l ∈ held plan ((traffic plan app).run ⟨limiters, exchanges, start ι⟩ steps).phases j →
        i = j) ∧
      ∀ i, ¬ (plan i).Nodup →
        ¬ (traffic plan app).Permits
          ((traffic plan app).run ⟨limiters, exchanges, start ι⟩ steps) (.application i) := by
  have h := exclusive_traffic hrun
  exact ⟨h.eq, fun i hplan => h.not_enabled_work hplan⟩

/-- Two requests with one limiter twice in their pipelines. -/
theorem alone_behind_twice :
    let S : System (Traffic Bool Bool Unit) (TrafficStep Bool) :=
      traffic (fun _ => [true, true]) fun _ => id
    let s := S.run twoRequests [.lock true]
    (∀ i j l, l ∈ held (fun _ => [true, true]) s.phases i →
        l ∈ held (fun _ => [true, true]) s.phases j → i = j) ∧
      ∀ i, ¬ [true, true].Nodup → ¬ S.Permits s (.application i) := by
  intro S
  have hrun : S.Run twoRequests [.lock true] :=
    ⟨⟨0, true, rfl, rfl, fun _ => List.not_mem_nil⟩, trivial⟩
  exact alone_behind hrun

/-! ## Orders that go round -/

variable (app) in
/-- A request passes the first limiter of its pipeline, if it is free and lets it pass. -/
theorem run_enter {i : ι} {l : L} {now : ℚ} (hphase : s.phases i = .entering 0)
    (hplan : (plan i)[0]? = some l) (hfree : ∀ j, l ∉ held plan s.phases j)
    (hpass : ((s.limiters l).consume now).1 = true) :
    (traffic plan app).Run s [.lock i, .consume i now] ∧
      ((traffic plan app).run s [.lock i, .consume i now]).phases =
        Function.update s.phases i (.entering 1) ∧
      ∀ l', l' ≠ l →
        ((traffic plan app).run s [.lock i, .consume i now]).limiters l' = s.limiters l' := by
  have hlock : (s.phases i).move .acquire = .deciding 0 := by rw [hphase]; rfl
  have hlocked : ((traffic plan app).step s (.lock i)).phases i = .deciding 0 :=
    (Function.update_self ..).trans hlock
  have hlimiter : limiterOf plan ((traffic plan app).step s (.lock i)).phases i = some l := by
    rw [limiterOf, hlocked]
    exact hplan
  have hrun : (traffic plan app).run s [.lock i, .consume i now] =
      { limiters := Function.update s.limiters l ((s.limiters l).consume now).2
        exchanges := s.exchanges
        phases := Function.update s.phases i (.entering 1) } := by
    have hmove : (((traffic plan app).step s (.lock i)).phases i).move .proceed = .entering 1 := by
      rw [hlocked]
      rfl
    have hphases : Function.update ((traffic plan app).step s (.lock i)).phases i (.entering 1) =
        Function.update s.phases i (.entering 1) := Function.update_idem ..
    have hpassed :
        ((((traffic plan app).step s (.lock i)).limiters l).consume now).1 = true := hpass
    rw [run_cons, run_cons, run_nil, step_consume hlimiter]
    rw [if_pos hpassed, if_pos hpassed, hmove, hphases]
    rfl
  refine ⟨⟨⟨0, l, hphase, hplan, hfree⟩, ⟨0, hlocked⟩, trivial⟩, ?_, ?_⟩
  · rw [hrun]
  · intro l' hl'
    rw [hrun]
    exact Function.update_of_ne hl' ..

variable (app exchanges) in
/-- The requests of a set all pass their first limiters, which differ, the earliest first. -/
theorem exists_all_enter {first : ι → L} {ring : Finset ι} {now : ι → ℚ}
    (hplan : ∀ i ∈ ring, (plan i)[0]? = some (first i)) (hfirst : Set.InjOn first ring)
    (hpass : ∀ i ∈ ring, ((limiters (first i)).consume (now i)).1 = true) :
    ∃ steps, (traffic plan app).Run ⟨limiters, exchanges, start ι⟩ steps ∧
      (steps.filterMap TrafficStep.time?).Pairwise (· ≤ ·) ∧
      (∀ time ∈ steps.filterMap TrafficStep.time?, ∃ i ∈ ring, time = now i) ∧
      (∀ i, ((traffic plan app).run ⟨limiters, exchanges, start ι⟩ steps).phases i =
        if i ∈ ring then .entering 1 else .entering 0) ∧
      ∀ l, (∀ i ∈ ring, first i ≠ l) →
        ((traffic plan app).run ⟨limiters, exchanges, start ι⟩ steps).limiters l = limiters l := by
  induction ring using Finset.induction_on_max_value now with
  | empty =>
      exact ⟨[], trivial, .nil, nofun, fun i => (if_neg (Finset.notMem_empty i)).symm,
        fun _ _ => rfl⟩
  | insert i ring hi hlatest ih =>
      obtain ⟨steps, hrun, hclock, htimes, hphases, hlimiters⟩ := ih
        (fun j hj => hplan j (Finset.mem_insert_of_mem hj))
        (hfirst.mono (Finset.coe_subset.mpr (Finset.subset_insert i ring)))
        (fun j hj => hpass j (Finset.mem_insert_of_mem hj))
      have hdiffer : ∀ j ∈ ring, first j ≠ first i := by
        intro j hj hsame
        exact hi (hfirst (Finset.mem_insert_of_mem hj) (Finset.mem_insert_self i ring) hsame ▸ hj)
      have hfree : ∀ j, first i ∉ held plan
          ((traffic plan app).run ⟨limiters, exchanges, start ι⟩ steps).phases j := by
        intro j hheld
        by_cases hj : j ∈ ring
        · rw [held_of_entering_one ((hphases j).trans (if_pos hj))
            (hplan j (Finset.mem_insert_of_mem hj)), List.mem_singleton] at hheld
          exact hdiffer j hj hheld.symm
        · rw [held, hphases j, if_neg hj] at hheld
          exact absurd hheld List.not_mem_nil
      have hpasses : ((((traffic plan app).run ⟨limiters, exchanges, start ι⟩ steps).limiters
          (first i)).consume (now i)).1 = true := by
        rw [hlimiters (first i) hdiffer]
        exact hpass i (Finset.mem_insert_self i ring)
      obtain ⟨hmore, hphases', hlimiters'⟩ := run_enter app
        ((hphases i).trans (if_neg hi)) (hplan i (Finset.mem_insert_self i ring)) hfree hpasses
      have happend :
          (steps ++ [TrafficStep.lock i, .consume i (now i)]).filterMap TrafficStep.time? =
            steps.filterMap TrafficStep.time? ++ [now i] := List.filterMap_append
      have hboth : (traffic plan app).Run ⟨limiters, exchanges, start ι⟩
          (steps ++ [.lock i, .consume i (now i)]) := throughout_append.mpr ⟨hrun, hmore⟩
      refine ⟨_, hboth, ?_, ?_, fun j => ?_, fun l hl => ?_⟩
      · rw [happend, List.pairwise_append]
        refine ⟨hclock, List.pairwise_singleton _ _, fun time htime last hlast => ?_⟩
        obtain ⟨j, hj, rfl⟩ := htimes time htime
        rw [List.mem_singleton.mp hlast]
        exact hlatest j hj
      · intro time htime
        rw [happend, List.mem_append, List.mem_singleton] at htime
        rcases htime with htime | rfl
        · obtain ⟨j, hj, hsame⟩ := htimes time htime
          exact ⟨j, Finset.mem_insert_of_mem hj, hsame⟩
        · exact ⟨i, Finset.mem_insert_self i ring, rfl⟩
      · rw [run_append, hphases', Function.update_apply, hphases j]
        rcases eq_or_ne j i with rfl | hne
        · rw [if_pos rfl, if_pos (Finset.mem_insert_self j ring)]
        · simp [hne]
      · rw [run_append, hlimiters' l (hl i (Finset.mem_insert_self i ring)).symm]
        exact hlimiters l fun j hj => hl j (Finset.mem_insert_of_mem hj)

/-- **Pipelines that begin with limiters in orders that go round can stop each other for ever**:
on a clock that does not run backwards every request of the set passes its first limiter and waits
for the one that another request of the set has passed, and none of them is ever answered. -/
theorem deadlock_of_cycle {first second : ι → L} {ring : Finset ι}
    (hplan : ∀ i ∈ ring, [first i, second i] <+: plan i) (hfirst : Set.InjOn first ring)
    (hcycle : ∀ i ∈ ring, ∃ j ∈ ring, second i = first j)
    (hpass : ∀ i ∈ ring, ∃ now, ((limiters (first i)).consume now).1 = true) :
    ∃ steps, (traffic plan app).Run ⟨limiters, exchanges, start ι⟩ steps ∧
      (steps.filterMap TrafficStep.time?).Pairwise (· ≤ ·) ∧
      ∀ more, (traffic plan app).Run ⟨limiters, exchanges, start ι⟩ (steps ++ more) →
        ∀ i ∈ ring,
          ((traffic plan app).run ⟨limiters, exchanges, start ι⟩ (steps ++ more)).phases i ≠
              .done ∧
            ((traffic plan app).run ⟨limiters, exchanges, start ι⟩ (steps ++ more)).exchanges i =
              exchanges i := by
  have hzero : ∀ i ∈ ring, (plan i)[0]? = some (first i) := by
    intro i hi
    obtain ⟨rest, hrest⟩ := hplan i hi
    rw [← hrest]
    rfl
  choose! now hnow using hpass
  obtain ⟨steps, hrun, hclock, -, hphases, -⟩ := exists_all_enter app exchanges hzero hfirst hnow
  refine ⟨steps, hrun, hclock, fun more hmore i hi => ?_⟩
  have hwaits : ∀ i ∈ (ring : Set ι), ∃ d l,
      ((traffic plan app).run ⟨limiters, exchanges, start ι⟩ steps).phases i = .entering d ∧
        (plan i)[d]? = some l ∧ ∃ j ∈ (ring : Set ι),
          l ∈ held plan ((traffic plan app).run ⟨limiters, exchanges, start ι⟩ steps).phases j := by
    intro i hi
    obtain ⟨rest, hrest⟩ := hplan i hi
    obtain ⟨j, hj, hsame⟩ := hcycle i hi
    refine ⟨1, second i, (hphases i).trans (if_pos hi), ?_, j, hj, ?_⟩
    · rw [← hrest]
      rfl
    · rw [held_of_entering_one ((hphases j).trans (if_pos hj)) (hzero j hj), List.mem_singleton]
      exact hsame
  have hstays : ((traffic plan app).run ⟨limiters, exchanges, start ι⟩ (steps ++ more)).phases i =
      .entering 1 := by
    obtain ⟨moves, -, hmoves, hlast⟩ :=
      exists_locking_run (exclusive_traffic hrun) (throughout_append.mp hmore).2
    rw [run_append, ← hlast, waiting_run hwaits hmoves i hi, hphases i]
    exact if_pos hi
  have hanswered := answered_run hmore i
  rw [hstays] at hanswered
  refine ⟨?_, hanswered⟩
  rw [hstays]
  exact LockPhase.noConfusion

/-- Two requests that pass two limiters in opposite orders. -/
theorem deadlock_of_cycle_two :
    let S : System (Traffic Bool Bool Unit) (TrafficStep Bool) :=
      traffic (fun i => [i, !i]) fun _ => id
    ∃ steps, S.Run twoRequests steps ∧ (steps.filterMap TrafficStep.time?).Pairwise (· ≤ ·) ∧
      ∀ more, S.Run twoRequests (steps ++ more) →
        ∀ i ∈ (Finset.univ : Finset Bool), (S.run twoRequests (steps ++ more)).phases i ≠ .done ∧
          (S.run twoRequests (steps ++ more)).exchanges i = twoRequests.exchanges i := by
  have hplan : ∀ i ∈ (Finset.univ : Finset Bool), [id i, !i] <+: [i, !i] :=
    fun i _ => List.prefix_rfl
  have hcycle : ∀ i ∈ (Finset.univ : Finset Bool), ∃ j ∈ Finset.univ, (!i) = id j :=
    fun i _ => ⟨!i, Finset.mem_univ _, rfl⟩
  have hpass : (RateLimiter.construct 5 1).passesOn (fun _ => 0) 0 = true := by
    have hlevel := TokenBucket.level_construct_zero (t := fun _ => 0) 5 (1 : ℕ)
    rw [RateLimiter.passesOn_construct, TokenBucket.passes_iff]
    exact le_of_le_of_eq (by norm_num) hlevel.symm
  exact deadlock_of_cycle hplan Function.injective_id.injOn hcycle fun _ _ => ⟨0, hpass⟩

end

end GinCpp.Middleware
