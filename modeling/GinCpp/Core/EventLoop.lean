import GinCpp.Core.Revival
import GinCpp.Transition.Basic

/-!
# The event loop

What the single-threaded `io_context` holds for a connection: the operations whose handlers have
not run, the wait of its timer, and the waits that have expired or were cancelled since.  `become`
carries out the calls that a handler has made.

An operation whose socket is open ends with success or with an error other than
`operation_aborted`.  Once the socket is closed it may end in any way: an operation that was
completed before, with its handler still in the queue, keeps its result.
-/

namespace GinCpp.Core

open Transition

namespace Connection

/-! ## What the members do -/

/-- A member has led from `c` to `c'`, making the calls `ops`. -/
structure Does (c : Connection) (ops : List Call) (state : ConnState) (buffer : Bool)
    (c' : Connection) : Prop where
  calls : c'.calls = c.calls ++ ops
  state : c'.state = state
  buffer : c'.buffer = buffer

variable {c c' c'' : Connection} {ops ops' : List Call} {state state' : ConnState}
  {buffer buffer' : Bool}

theorem Does.trans (h : c.Does ops state buffer c') (h' : c'.Does ops' state' buffer' c'') :
    c.Does (ops ++ ops') state' buffer' c'' :=
  ⟨by rw [h'.calls, h.calls, List.append_assoc], h'.state, h'.buffer⟩

variable (c)

/-- The calls of `shutdown`. -/
def closing : List Call :=
  [.cancelTimer, .closeSocket] ++ if c.buffer then [.releaseBuffer] else []

theorem does_call (op : Call) : c.Does [op] c.state c.buffer (c.call op) := ⟨rfl, rfl, rfl⟩

theorem does_transitionState (state : ConnState) :
    c.Does [] state c.buffer (c.transitionState state) := ⟨(List.append_nil _).symm, rfl, rfl⟩

theorem does_shutdown : c.Does c.closing .closed false c.shutdown := by
  unfold shutdown closing
  dsimp only
  cases hbuffer : c.buffer with
  | true =>
      exact ⟨by simp [call, transitionState, hbuffer], by simp [call, transitionState, hbuffer],
        by simp [call, transitionState, hbuffer]⟩
  | false =>
      exact ⟨by simp [call, transitionState, hbuffer], by simp [call, transitionState, hbuffer],
        by simp [call, transitionState, hbuffer]⟩

theorem does_managerStop :
    c.Does (.eraseFromManager :: c.closing) .closed false c.managerStop :=
  (c.does_call .eraseFromManager).trans (c.call .eraseFromManager).does_shutdown

theorem does_doRead :
    c.Does [.armTimer c.readTimeoutMs .reading, .asyncReadSome] .reading c.buffer c.doRead :=
  ⟨by simp [doRead, startReadTimer, call, transitionState], rfl, rfl⟩

/-- The completion handler of a successful read reads on or writes a response. -/
theorem does_onRead (data : Str) :
    c.Does [.cancelTimer, .armTimer c.readTimeoutMs .reading, .asyncReadSome] .reading c.buffer
        (c.onRead none data) ∨
      ∃ response, c.Does [.cancelTimer, .armTimer c.writeTimeoutMs .writing, .asyncWrite response]
        .writing c.buffer (c.onRead none data) := by
  unfold onRead
  dsimp only
  split
  · next status _ =>
    refine .inr ⟨.stockResponse status, ?_⟩
    exact ⟨by simp [doWrite, startWriteTimer, call, transitionState], rfl, rfl⟩
  · exact .inl ⟨by simp [doRead, startReadTimer, call, transitionState], rfl, rfl⟩

/-- An error of a read is answered, and then the connection is stopped. -/
theorem does_onRead_other : ∃ response,
    c.Does ([.cancelTimer, .armTimer c.writeTimeoutMs .writing, .asyncWrite response,
      .eraseFromManager] ++ c.closing) .closed false (c.onRead (some .other) []) := by
  refine ⟨.stockResponse .internalServerError, ?_⟩
  have hwrite : c.Does [.cancelTimer, .armTimer c.writeTimeoutMs .writing,
      .asyncWrite (.stockResponse .internalServerError)] .writing c.buffer
      (doWrite { c.call .cancelTimer with
        response := .stockResponse .internalServerError }) :=
    ⟨by simp [doWrite, startWriteTimer, call, transitionState], rfl, rfl⟩
  exact hwrite.trans (does_managerStop _)

theorem does_onWrite_keepAlive (h : c.keepAlive = true) :
    c.Does [.cancelTimer, .armTimer c.idleTimeoutMs .idle, .armTimer c.readTimeoutMs .reading,
      .asyncReadSome] .reading c.buffer (c.onWrite none) := by
  have hwrite : c.onWrite none =
      (((c.call .cancelTimer).transitionState .idle).startIdleTimer).doRead := if_pos h
  rw [hwrite]
  exact (((c.does_call _).trans (does_transitionState _ _)).trans (does_call _ _)).trans
    (does_doRead _)

theorem does_onWrite_last (h : c.keepAlive = false) :
    c.Does ([.cancelTimer, .shutdownSocket, .eraseFromManager] ++ c.closing) .closed false
      (c.onWrite none) := by
  have hwrite : c.onWrite none = ((c.call .cancelTimer).call .shutdownSocket).managerStop :=
    if_neg (Bool.not_eq_true _ ▸ h)
  rw [hwrite]
  exact ((c.does_call _).trans (does_call _ _)).trans (does_managerStop _)

theorem does_onWrite_error (error : IoError) :
    c.Does ([.cancelTimer, .eraseFromManager] ++ c.closing) .closed false
      (c.onWrite (some error)) :=
  (c.does_call _).trans (does_managerStop _)

/-- A timeout closes the connection twice. -/
theorem does_onTimer {guard : ConnState} (h : c.state = guard) :
    c.Does (c.closing ++ .eraseFromManager :: [.cancelTimer, .closeSocket]) .closed false
      (c.onTimer guard) := by
  unfold onTimer
  rw [if_pos h]
  have hstop := c.shutdown.does_managerStop
  have hclosing : c.shutdown.closing = [.cancelTimer, .closeSocket] := by
    unfold closing
    rw [c.does_shutdown.buffer]
    rfl
  rw [hclosing] at hstop
  exact c.does_shutdown.trans hstop

theorem onTimer_stale {guard : ConnState} (h : c.state ≠ guard) : c.onTimer guard = c := if_neg h

end Connection

/-! ## Tasks -/

/-- A connection and what the event loop has for it. -/
structure Task where
  conn : Connection
  socketOpen : Bool := true
  /-- Reads whose handlers have not run. -/
  reads : ℕ := 0
  writes : ℕ := 0
  /-- The state that the handler of the pending wait checks. -/
  armed : Option ConnState := none
  /-- The waits that have expired, their handlers in the queue. -/
  expired : List ConnState := []
  /-- The waits that were cancelled, their handlers in the queue. -/
  cancelled : ℕ := 0
  /-- Whether the connection is in `connections_`. -/
  managed : Bool := true

/-- Something that happens to a connection: one of its handlers runs, its timer expires, or
`ConnectionManager::stop` is called for it.  The handler of a wait that was cancelled is given
`operation_aborted` and does nothing. -/
inductive LoopEvent
  | handler (e : Event)
  | waitAborted
  | expires
  | managerStop

namespace Task

/-- The pending wait, if there is one, is cancelled. -/
def cancelWait (t : Task) : Task :=
  { t with armed := none, cancelled := t.cancelled + t.armed.isSome.toNat }

/-- What a call does outside of the connection.  A new wait cancels the pending one. -/
def perform (t : Task) : Call → Task
  | .asyncReadSome => { t with reads := t.reads + 1 }
  | .asyncWrite _ => { t with writes := t.writes + 1 }
  | .closeSocket => { t with socketOpen := false }
  | .cancelTimer => t.cancelWait
  | .armTimer _ guard => { t.cancelWait with armed := some guard }
  | .eraseFromManager => { t with managed := false }
  | .shutdownSocket | .releaseBuffer => t

variable (t : Task)

/-- The connection has become `c`. -/
def become (c : Connection) : Task :=
  (c.calls.drop t.conn.calls.length).foldl perform { t with conn := c }

/-- A handler leaves the queue. -/
def dequeue : Event → Task
  | .readDone _ => { t with reads := t.reads - 1 }
  | .writeDone _ => { t with writes := t.writes - 1 }
  | .timerExpired guard => { t with expired := t.expired.erase guard }
  | .stop => t

def step : LoopEvent → Task
  | .handler e => (t.dequeue e).become (t.conn.handle e)
  | .waitAborted => { t with cancelled := t.cancelled - 1 }
  | .expires =>
      match t.armed with
      | some guard => { t with armed := none, expired := guard :: t.expired }
      | none => t
  | .managerStop => t.become t.conn.managerStop

/-- What the event loop may report. -/
def Permits : LoopEvent → Prop
  | .handler (.readDone result) =>
      0 < t.reads ∧ (t.socketOpen = true → result ≠ .error .operationAborted)
  | .handler (.writeDone error) =>
      0 < t.writes ∧ (t.socketOpen = true → error ≠ some .operationAborted)
  | .handler (.timerExpired guard) => guard ∈ t.expired
  | .handler .stop => True
  | .waitAborted => 0 < t.cancelled
  | .expires => t.armed.isSome
  | .managerStop => True

/-- `ConnectionManager::start` of a new connection. -/
def started (major minor : Int) : Task :=
  become { conn := .construct major minor } (.fresh major minor)

variable {t}

theorem conn_perform (op : Call) : (t.perform op).conn = t.conn := by
  cases op <;> rfl

theorem conn_foldl_perform (ops : List Call) : (ops.foldl perform t).conn = t.conn := by
  induction ops generalizing t with
  | nil => rfl
  | cons op ops ih =>
      rw [List.foldl_cons, ih]
      exact conn_perform op

@[simp] theorem conn_become (c : Connection) : (t.become c).conn = c := conn_foldl_perform _

@[simp] theorem become_self : t.become t.conn = t := by
  rw [become, List.drop_length]
  rfl

@[simp] theorem conn_dequeue (e : Event) : (t.dequeue e).conn = t.conn := by
  cases e <;> rfl

@[simp] theorem conn_handler (e : Event) :
    (t.step (.handler e)).conn = t.conn.handle e := conn_become _

@[simp] theorem conn_waitAborted : (t.step .waitAborted).conn = t.conn := rfl

@[simp] theorem conn_expires : (t.step .expires).conn = t.conn := by
  unfold step
  dsimp only
  split <;> rfl

@[simp] theorem conn_managerStop : (t.step .managerStop).conn = t.conn.managerStop :=
  conn_become _

theorem become_eq {c : Connection} {ops : List Call} (h : c.calls = t.conn.calls ++ ops) :
    t.become c = ops.foldl perform { t with conn := c } := by
  rw [become, h, List.drop_left]

end Task

/-- One connection at the event loop. -/
def looping : System Task LoopEvent where
  Permits := Task.Permits
  step := Task.step

end GinCpp.Core
