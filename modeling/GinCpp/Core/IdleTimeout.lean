import GinCpp.Core.Timeout

/-!
# The idle timeout

`start_idle_timer`, `start_read_timer` and `start_write_timer` share one timer, and each replaces
the wait of the one before.  The handler of a write starts the idle timer of a connection that is
kept alive, and then reads on, which starts the read timer: the wait that governs the time between
two requests is the one for reading (`governed_iff`).
-/

namespace GinCpp.Core

open Transition Http

/-- What a connection is at. -/
inductive Phase
  /-- Nothing of the first request has been received. -/
  | awaitingFirst
  /-- A part of a request has been received. -/
  | receiving
  /-- A response is written. -/
  | answering
  /-- The response has been written, and nothing was received since. -/
  | awaitingNext
  deriving DecidableEq, Repr

/-- A connection at the event loop, and what it is at. -/
structure Vigil where
  task : Task
  phase : Phase := .awaitingFirst

/-- A connection with timeouts of its own. -/
def Connection.configured (major minor : Int) (idle reading writing : ℕ) : Connection :=
  { construct major minor with
    idleTimeoutMs := idle, readTimeoutMs := reading, writeTimeoutMs := writing }

namespace Vigil

variable (s : Vigil)

def phaseAfter : LoopEvent → Phase
  | .handler (.readDone (.ok b)) =>
      let (_, request, result) := s.task.conn.parser.parse s.task.conn.request b.bytes
      if (statusFor request result).isSome then .answering else .receiving
  | .handler (.readDone (.error .other)) => .answering
  | .handler (.writeDone none) => .awaitingNext
  | _ => s.phase

def step (e : LoopEvent) : Vigil where
  task := s.task.step e
  phase := s.phaseAfter e

/-- `ConnectionManager::start` of a connection. -/
def started (c : Connection) : Vigil := { task := Task.become { conn := c } c.start }

/-- The wait that was armed last. -/
def lastArmed : Option Call := s.task.conn.calls.reverse.find? Call.arms

/-- **The idle timeout governs idle time**: between two requests the connection is idle and its wait
is the one for that, and the wait for reading is for nothing but receiving a request. -/
structure Governed : Prop where
  idle : s.phase = .awaitingNext → s.task.conn.keepAlive = true → s.task.socketOpen = true →
    s.task.conn.state = .idle ∧ s.task.armed = some .idle ∧
      s.lastArmed = some (.armTimer s.task.conn.idleTimeoutMs .idle)
  reading : s.task.armed = some .reading → s.phase = .awaitingFirst ∨ s.phase = .receiving

/-- No connection is kept for another request. -/
def NotReused : LoopEvent → Prop
  | .handler (.writeDone none) => s.task.conn.keepAlive = false
  | _ => True

end Vigil

/-- One connection at the event loop, and what it is at. -/
def vigil : System Vigil LoopEvent where
  Permits s := s.task.Permits
  step := Vigil.step

namespace Connection

variable (c : Connection) {b : Block} {status : StatusCode}

/-- A complete request is answered. -/
theorem does_onRead_answered
    (h : statusFor (c.parser.parse c.request b.bytes).2.1
      (c.parser.parse c.request b.bytes).2.2 = some status) :
    c.Does [.cancelTimer, .armTimer c.writeTimeoutMs .writing,
      .asyncWrite (.stockResponse status)] .writing c.buffer (c.onRead none b.bytes) := by
  unfold onRead
  dsimp only
  split
  · next status' hstatus =>
    cases h.symm.trans hstatus
    exact ⟨by simp [doWrite, startWriteTimer, call, transitionState], rfl, rfl⟩
  · next hnone => cases h.symm.trans hnone

end Connection

namespace Task

variable {t : Task} {e : Event} {ops : List Call} {state : ConnState} {buffer : Bool}

/-- What the calls of a handler do to the rest of the task. -/
theorem step_handler (h : t.conn.Does ops state buffer (t.conn.handle e)) :
    t.step (.handler e) = ops.foldl perform { t.dequeue e with conn := t.conn.handle e } := by
  have hcalls : (t.conn.handle e).calls = (t.dequeue e).conn.calls ++ ops := by
    rw [conn_dequeue, h.calls]
  exact become_eq hcalls

theorem step_managerStop :
    t.step .managerStop =
      (Call.eraseFromManager :: t.conn.closing).foldl perform
        { t with conn := t.conn.managerStop } :=
  become_eq t.conn.does_managerStop.calls

/-- The connection is closed for good: no wait is pending, and the socket is closed. -/
def Shut (t : Task) : Prop := t.armed = none ∧ t.socketOpen = false

theorem shut_closing (c : Connection) (t : Task) : (c.closing.foldl perform t).Shut := by
  unfold Connection.closing
  split <;> exact ⟨rfl, rfl⟩

theorem shut_of_closing {c : Connection} (h : t.conn.Does (ops ++ c.closing) state buffer
    (t.conn.handle e)) : (t.step (.handler e)).Shut := by
  rw [step_handler h, List.foldl_append]
  exact shut_closing c _

theorem shut_managerStop : (t.step .managerStop).Shut := by
  rw [step_managerStop, List.foldl_cons]
  exact shut_closing t.conn _

/-- A timeout closes the connection, or does nothing. -/
theorem shut_timerExpired (t : Task) (guard : ConnState) :
    (t.step (.handler (.timerExpired guard))).Shut ∨
      ((t.step (.handler (.timerExpired guard))).armed = t.armed ∧
        (t.step (.handler (.timerExpired guard))).socketOpen = t.socketOpen) := by
  by_cases hguard : t.conn.state = guard
  · left
    rw [step_handler (e := .timerExpired guard) (t.conn.does_onTimer hguard), List.foldl_append]
    exact ⟨rfl, rfl⟩
  · right
    have hstale : t.conn.Does [] t.conn.state t.conn.buffer
        (t.conn.handle (.timerExpired guard)) := by
      rw [Connection.handle, Connection.onTimer_stale _ hguard]
      exact ⟨(List.append_nil _).symm, rfl, rfl⟩
    rw [step_handler hstale]
    exact ⟨rfl, rfl⟩

end Task

namespace Vigil

variable {s : Vigil} {e : LoopEvent} {es : List LoopEvent}

/-- Nothing but the receiving of a request is timed by the read timer, and after the last response
the socket is closed. -/
structure Unused (s : Vigil) : Prop where
  reading : s.task.armed = some .reading → s.phase = .awaitingFirst ∨ s.phase = .receiving
  closed : s.phase = .awaitingNext → s.task.socketOpen = false

theorem Unused.governed (h : s.Unused) : s.Governed := by
  refine ⟨fun hphase _ hopen => ?_, h.reading⟩
  rw [h.closed hphase] at hopen
  cases hopen

theorem unused_of_shut (h : s.task.Shut) : s.Unused := by
  refine ⟨fun harmed => ?_, fun _ => h.2⟩
  rw [h.1] at harmed
  cases harmed

theorem task_step : (s.step e).task = s.task.step e := rfl

theorem phase_step : (s.step e).phase = s.phaseAfter e := rfl

/-- The phase after a read that brought something. -/
theorem phaseAfter_readDone (b : Block) :
    s.phaseAfter (.handler (.readDone (.ok b))) =
      if (statusFor (s.task.conn.parser.parse s.task.conn.request b.bytes).2.1
        (s.task.conn.parser.parse s.task.conn.request b.bytes).2.2).isSome then .answering
      else .receiving := rfl

theorem unused_readDone (b : Block) : (s.step (.handler (.readDone (.ok b)))).Unused := by
  cases hstatus : statusFor (s.task.conn.parser.parse s.task.conn.request b.bytes).2.1
      (s.task.conn.parser.parse s.task.conn.request b.bytes).2.2 with
  | none =>
      have hphase : (s.step (.handler (.readDone (.ok b)))).phase = .receiving := by
        rw [phase_step, phaseAfter_readDone, hstatus]
        rfl
      refine ⟨fun _ => Or.inr hphase, fun hnext => ?_⟩
      rw [hphase] at hnext
      cases hnext
  | some status =>
      have hphase : (s.step (.handler (.readDone (.ok b)))).phase = .answering := by
        rw [phase_step, phaseAfter_readDone, hstatus]
        rfl
      have harmed : (s.step (.handler (.readDone (.ok b)))).task.armed = some .writing := by
        rw [task_step, Task.step_handler (s.task.conn.does_onRead_answered hstatus)]
        rfl
      refine ⟨fun hreading => ?_, fun hnext => ?_⟩
      · rw [harmed] at hreading
        cases hreading
      · rw [hphase] at hnext
        cases hnext

/-- An event that arms no wait and leaves the socket and the phase as they are. -/
theorem Unused.of_quiet (h : s.Unused) (hphase : (s.step e).phase = s.phase)
    (harmed : (s.step e).task.armed = none ∨ (s.step e).task.armed = s.task.armed)
    (hopen : (s.step e).task.socketOpen = s.task.socketOpen) : (s.step e).Unused := by
  refine ⟨fun hreading => ?_, fun hnext => ?_⟩
  · rw [hphase]
    rcases harmed with hnone | hsame
    · rw [hnone] at hreading
      cases hreading
    · exact h.reading (hsame ▸ hreading)
  · rw [hopen]
    exact h.closed (hphase ▸ hnext)

/-- **One step.** -/
theorem Unused.step (h : s.Unused) (hreused : s.NotReused e) : (s.step e).Unused := by
  rcases e with ((error | b) | (_ | error) | guard | _) | _ | _ | _
  case handler.readDone.ok => exact unused_readDone b
  case handler.readDone.error =>
      cases error with
      | operationAborted =>
          have htask : s.task.step (.handler (.readDone (.error .operationAborted))) = _ :=
            Task.step_handler (s.task.conn.does_call .cancelTimer)
          refine h.of_quiet rfl (Or.inl ?_) ?_
          · rw [task_step, htask]
            rfl
          · rw [task_step, htask]
            rfl
      | other =>
          obtain ⟨response, hdoes⟩ := s.task.conn.does_onRead_other
          exact unused_of_shut (Task.shut_of_closing (e := .readDone (.error .other)) hdoes)
  case handler.writeDone.none =>
      exact unused_of_shut
        (Task.shut_of_closing (e := .writeDone none) (s.task.conn.does_onWrite_last hreused))
  case handler.writeDone.some =>
      exact unused_of_shut
        (Task.shut_of_closing (e := .writeDone (some error)) (s.task.conn.does_onWrite_error error))
  case handler.timerExpired =>
      rcases Task.shut_timerExpired s.task guard with hshut | ⟨harmed, hopen⟩
      · exact unused_of_shut hshut
      · exact h.of_quiet rfl (Or.inr harmed) hopen
  case handler.stop =>
      have hdoes : s.task.conn.Does ([] ++ s.task.conn.closing) .closed false
          (s.task.conn.handle .stop) := s.task.conn.does_shutdown
      exact unused_of_shut (Task.shut_of_closing hdoes)
  case expires =>
      refine h.of_quiet rfl ?_ ?_
      · rw [task_step]
        unfold Task.step
        dsimp only
        split
        · exact Or.inl rfl
        · exact Or.inr rfl
      · rw [task_step]
        unfold Task.step
        dsimp only
        split <;> rfl
  case waitAborted => exact h.of_quiet rfl (Or.inr rfl) rfl
  case managerStop => exact unused_of_shut Task.shut_managerStop

/-- A connection that is read on after a response waits for reading, whatever it started before. -/
theorem not_governed_of_reused (h : ¬ s.NotReused e) : ¬ (s.step e).Governed := by
  intro hgoverned
  rcases e with ((error | b) | (_ | error) | guard | _) | _ | _ | _
  case handler.writeDone.none =>
      have hkeep : s.task.conn.keepAlive = true := Bool.not_eq_false _ ▸ h
      have harmed : (s.step (.handler (.writeDone none))).task.armed = some .reading := by
        rw [task_step, Task.step_handler (e := .writeDone none)
          (s.task.conn.does_onWrite_keepAlive hkeep)]
        rfl
      rcases hgoverned.reading harmed with hphase | hphase <;> cases hphase
  all_goals exact h trivial

theorem unused_started (c : Connection) : (started c).Unused :=
  ⟨fun _ => Or.inl rfl, fun hphase => by cases hphase⟩

end Vigil

/-- **When the idle timeout governs idle time.**  In a run of a connection, with any timeouts and
whatever happens in which order: if and only if the connection is never kept for another request. -/
theorem governed_iff (major minor : Int) (idle reading writing : ℕ) (es : List LoopEvent)
    (hrun : vigil.Run (.started (.configured major minor idle reading writing)) es) :
    vigil.Always Vigil.Governed (.started (.configured major minor idle reading writing)) es ↔
      vigil.Throughout Vigil.NotReused (.started (.configured major minor idle reading writing))
        es := by
  constructor
  · intro hgoverned
    refine System.throughout_of_always_step (fun s e _ hnext => ?_) hgoverned hrun
    by_contra hreused
    exact Vigil.not_governed_of_reused hreused hnext
  · intro hreused
    have hunused : vigil.Always Vigil.Unused
        (.started (.configured major minor idle reading writing)) es :=
      System.always_of_invariant (fun _ _ hunused _ hreused => hunused.step hreused)
        (Vigil.unused_started _) hrun hreused
    exact hunused.imp fun _ hunused => hunused.governed

/-- A request that is answered, the connection being kept alive. -/
def keptAlive : List LoopEvent :=
  [.handler (.readDone
      (.ok ⟨ascii "GET /a HTTP/1.1\x0d\nHost: b\x0d\n\x0d\n", by decide, by decide⟩)),
    .handler (.writeDone none)]

theorem run_keptAlive :
    vigil.Run (.started (.configured 0 0 60000 30000 30000)) keptAlive :=
  ⟨⟨by decide +kernel, nofun⟩, ⟨by decide +kernel, nofun⟩, trivial⟩

theorem governed_iff_keptAlive :
    vigil.Always Vigil.Governed (.started (.configured 0 0 60000 30000 30000)) keptAlive ↔
      vigil.Throughout Vigil.NotReused (.started (.configured 0 0 60000 30000 30000)) keptAlive :=
  governed_iff 0 0 60000 30000 30000 keptAlive run_keptAlive

/-- The connection is not idle, and the wait is the one for reading. -/
theorem not_governed_keptAlive :
    vigil.Run (.started (.configured 0 0 60000 30000 30000)) keptAlive ∧
      ¬ vigil.Always Vigil.Governed (.started (.configured 0 0 60000 30000 30000)) keptAlive := by
  refine ⟨run_keptAlive, fun hgoverned => ?_⟩
  have hphase := hgoverned.last.reading (by decide +kernel)
  revert hphase
  decide +kernel

end GinCpp.Core
