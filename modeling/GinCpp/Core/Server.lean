import GinCpp.Core.EventLoop

/-!
# The server

`core/server.cpp` and `core/connection_manager.h`: the connections that the acceptor has started,
their handlers in any order, and `graceful_shutdown`.

If what was outstanding on a socket when it was closed ends with `operation_aborted`, a connection
is either alive, with one operation under way and a timer for it, or dead for good
(`Task.Alive`, `Task.Dead`).
-/

namespace GinCpp.Core

open Transition

namespace Task

/-! ## Alive and dead -/

/-- An open connection. -/
structure Alive (t : Task) : Prop where
  managed : t.managed = true
  socketOpen : t.socketOpen = true
  buffer : t.conn.buffer = true
  released : t.conn.calls.count .releaseBuffer = 0
  operation : (t.conn.state = .reading ∧ t.reads = 1 ∧ t.writes = 0) ∨
    (t.conn.state = .writing ∧ t.reads = 0 ∧ t.writes = 1)
  timer : t.armed = some t.conn.state ∨ t.conn.state ∈ t.expired

/-- A closed connection. -/
structure Dead (t : Task) : Prop where
  managed : t.managed = false
  socketOpen : t.socketOpen = false
  buffer : t.conn.buffer = false
  released : t.conn.calls.count .releaseBuffer = 1
  state : t.conn.state = .closed

variable {t : Task} {c : Connection} {ops : List Call} {e : LoopEvent}

/-- What one call takes away is there until that call. -/
theorem foldl_perform_eq (present : Task → Bool) (removal : Call)
    (hperform : ∀ t op, present (perform t op) = (present t && op != removal)) (ops : List Call) :
    present (ops.foldl perform t) = (present t && !ops.contains removal) := by
  induction ops generalizing t with
  | nil => simp
  | cons op ops ih =>
      rw [List.foldl_cons, ih, hperform, Bool.and_assoc]
      by_cases hop : op = removal
      · simp [hop]
      · simp [bne_iff_ne.mpr hop, Ne.symm hop]

theorem managed_foldl (ops : List Call) :
    (ops.foldl perform t).managed = (t.managed && !ops.contains .eraseFromManager) :=
  foldl_perform_eq Task.managed .eraseFromManager
    (fun t op => by cases op <;> simp [perform, cancelWait]) ops

theorem socketOpen_foldl (ops : List Call) :
    (ops.foldl perform t).socketOpen = (t.socketOpen && !ops.contains .closeSocket) :=
  foldl_perform_eq Task.socketOpen .closeSocket
    (fun t op => by cases op <;> simp [perform, cancelWait]) ops

/-- A handler that closes the connection. -/
theorem dead_of_does (h : t.conn.Does ops .closed false c)
    (herase : t.managed = true → .eraseFromManager ∈ ops)
    (hclose : t.socketOpen = true → .closeSocket ∈ ops)
    (hreleased : (t.conn.calls ++ ops).count .releaseBuffer = 1) : (t.become c).Dead where
  managed := by
    rw [become_eq h.calls, managed_foldl]
    simpa using herase
  socketOpen := by
    rw [become_eq h.calls, socketOpen_foldl]
    simpa using hclose
  buffer := by rw [conn_become, h.buffer]
  released := by rw [conn_become, h.calls, hreleased]
  state := by rw [conn_become, h.state]

theorem count_closing (c : Connection) :
    c.closing.count .releaseBuffer = if c.buffer = true then 1 else 0 := by
  unfold Connection.closing
  split
  · rfl
  · rfl

/-- An open connection while a handler of it runs: nothing is under way. -/
structure Vacant (t : Task) : Prop where
  managed : t.managed = true
  socketOpen : t.socketOpen = true
  buffer : t.conn.buffer = true
  released : t.conn.calls.count .releaseBuffer = 0
  reads : t.reads = 0
  writes : t.writes = 0

/-- A handler that starts a read or a write, and the timer for it. -/
theorem Vacant.alive (h : t.Vacant) {state : ConnState} (reads writes : ℕ)
    (hdoes : t.conn.Does ops state t.conn.buffer c)
    (hreleased : ops.count .releaseBuffer = 0)
    (hops : ∃ cancelled, ops.foldl perform { t with conn := c } =
      { t with conn := c, armed := some state, cancelled,
               reads := t.reads + reads, writes := t.writes + writes })
    (hoperation : (state = .reading ∧ reads = 1 ∧ writes = 0) ∨
      (state = .writing ∧ reads = 0 ∧ writes = 1)) : (t.become c).Alive := by
  obtain ⟨cancelled, hops⟩ := hops
  rw [become_eq hdoes.calls, hops]
  refine ⟨h.managed, h.socketOpen, hdoes.buffer.trans h.buffer, ?_, ?_, .inl ?_⟩
  · rw [hdoes.calls, List.count_append, h.released, hreleased]
  · rw [h.reads, h.writes, Nat.zero_add, Nat.zero_add]
    dsimp only
    rwa [hdoes.state]
  · dsimp only
    rw [hdoes.state]

theorem Vacant.alive_onRead (h : t.Vacant) (data : Str) :
    (t.become (t.conn.onRead none data)).Alive := by
  rcases t.conn.does_onRead data with hdoes | ⟨response, hdoes⟩
  · exact h.alive 1 0 hdoes rfl ⟨_, rfl⟩ (.inl ⟨rfl, rfl, rfl⟩)
  · exact h.alive 0 1 hdoes rfl ⟨_, rfl⟩ (.inr ⟨rfl, rfl, rfl⟩)

/-! ## One event -/

/-- What was outstanding on a socket that is closed ends aborted. -/
def Aborts (t : Task) (e : LoopEvent) : Prop :=
  t.socketOpen = false →
    match e with
    | .handler (.readDone result) => result = .error .operationAborted
    | .handler (.writeDone error) => error = some .operationAborted
    | _ => True

/-- The event is one of the connection itself: no one else stops it. -/
def Own : LoopEvent → Prop
  | .handler .stop | .managerStop => False
  | .handler _ | .waitAborted | .expires => True

theorem Alive.vacant_read (h : t.Alive) (result : Except IoError Block) (hreads : 0 < t.reads) :
    (t.dequeue (.readDone result)).Vacant := by
  obtain ⟨hreads', hwrites⟩ : t.reads = 1 ∧ t.writes = 0 := by
    rcases h.operation with ⟨-, hone, hzero⟩ | ⟨-, hzero, -⟩
    · exact ⟨hone, hzero⟩
    · omega
  exact ⟨h.managed, h.socketOpen, h.buffer, h.released, by simp [dequeue, hreads'], hwrites⟩

theorem Alive.vacant_write (h : t.Alive) (error : Option IoError) (hwrites : 0 < t.writes) :
    (t.dequeue (.writeDone error)).Vacant := by
  obtain ⟨hreads, hwrites'⟩ : t.reads = 0 ∧ t.writes = 1 := by
    rcases h.operation with ⟨-, -, hzero⟩ | ⟨-, hzero, hone⟩
    · omega
    · exact ⟨hzero, hone⟩
  exact ⟨h.managed, h.socketOpen, h.buffer, h.released, hreads, by simp [dequeue, hwrites']⟩

/-- A handler of an open connection that closes it. -/
theorem Vacant.dead (h : t.Vacant) {before : List Call}
    (hdoes : t.conn.Does (before ++ t.conn.closing) .closed false c)
    (herase : .eraseFromManager ∈ before) (hbefore : before.count .releaseBuffer = 0) :
    (t.become c).Dead := by
  refine dead_of_does hdoes (fun _ => List.mem_append_left _ herase) (fun _ => ?_) ?_
  · exact List.mem_append_right _ (List.mem_append_left _ (by simp))
  · rw [List.count_append, List.count_append, h.released, hbefore, count_closing, if_pos h.buffer]

/-- A wait of the timer that is over leaves the connection open. -/
theorem Alive.expires (h : t.Alive) : (t.step .expires).Alive := by
  unfold Task.step
  dsimp only
  split
  · next guard hguard =>
    refine ⟨h.managed, h.socketOpen, h.buffer, h.released, h.operation, .inr ?_⟩
    rcases h.timer with harmed | hexpired
    · rw [hguard] at harmed
      exact List.mem_cons.mpr (.inl (Option.some_inj.mp harmed).symm)
    · exact List.mem_cons_of_mem guard hexpired
  · exact h

/-- The handler of a wait that was cancelled does nothing. -/
theorem Alive.waitAborted (h : t.Alive) : (t.step .waitAborted).Alive :=
  ⟨h.managed, h.socketOpen, h.buffer, h.released, h.operation, h.timer⟩

/-- The handler of a wait closes the connection in the state that it was armed for, and does
nothing in another. -/
theorem Alive.timerExpired (h : t.Alive) (guard : ConnState) :
    (t.step (.handler (.timerExpired guard))).Alive ∨
      (t.step (.handler (.timerExpired guard))).Dead := by
  unfold Task.step
  dsimp only
  by_cases hguard : t.conn.state = guard
  · -- a timeout
    right
    have hdoes := t.conn.does_onTimer hguard
    refine dead_of_does hdoes (fun _ => by simp) (fun _ => by simp) ?_
    rw [dequeue, List.count_append, List.count_append, h.released, count_closing, if_pos h.buffer]
    rfl
  · -- the handler of an earlier wait
    left
    have hsame : t.conn.handle (.timerExpired guard) = (t.dequeue (.timerExpired guard)).conn :=
      Connection.onTimer_stale _ hguard
    rw [hsame, become_self]
    refine ⟨h.managed, h.socketOpen, h.buffer, h.released, h.operation, ?_⟩
    rcases h.timer with harmed | hexpired
    · exact .inl harmed
    · exact .inr ((List.mem_erase_of_ne hguard).mpr hexpired)

/-- **One event of an open connection** leaves it open, with the next operation under way, or
closes it. -/
theorem Alive.step (h : t.Alive) (hpermits : t.Permits e) (hown : Own e) :
    (t.step e).Alive ∨ (t.step e).Dead := by
  cases e with
  | managerStop => exact hown.elim
  | waitAborted => exact .inl h.waitAborted
  | expires => exact .inl h.expires
  | handler e =>
      unfold Task.step
      dsimp only
      cases e with
      | stop => exact hown.elim
      | readDone result =>
          have hvacant := h.vacant_read result hpermits.1
          cases result with
          | ok b => exact .inl (hvacant.alive_onRead b.bytes)
          | error error =>
              cases error with
              | operationAborted => exact absurd rfl (hpermits.2 h.socketOpen)
              | other =>
                  obtain ⟨response, hdoes⟩ := t.conn.does_onRead_other
                  exact .inr (hvacant.dead hdoes (by simp) rfl)
      | writeDone error =>
          have hvacant := h.vacant_write error hpermits.1
          cases error with
          | none =>
              cases hkeep : t.conn.keepAlive with
              | true =>
                  have hdoes := t.conn.does_onWrite_keepAlive hkeep
                  exact .inl (hvacant.alive 1 0 hdoes rfl ⟨_, rfl⟩ (.inl ⟨rfl, rfl, rfl⟩))
              | false =>
                  have hdoes := t.conn.does_onWrite_last hkeep
                  exact .inr (hvacant.dead hdoes (by simp) rfl)
          | some error =>
              have hdoes := t.conn.does_onWrite_error error
              exact .inr (hvacant.dead hdoes (by simp) rfl)
      | timerExpired guard => exact h.timerExpired guard

/-- **One event of a closed connection** changes nothing, if its operations are aborted. -/
theorem Dead.step (h : t.Dead) (haborts : t.Aborts e) (hown : Own e) : (t.step e).Dead := by
  -- what closes it once more releases nothing
  have hagain : ∀ {t' : Task} {ops : List Call} {c : Connection}, t'.conn = t.conn →
      t'.managed = t.managed → t'.socketOpen = t.socketOpen →
      t.conn.Does ops .closed false c → ops.count .releaseBuffer = 0 → (t'.become c).Dead := by
    intro t' ops c hconn hmanaged hsocket hdoes hops
    rw [← hconn] at hdoes
    refine dead_of_does hdoes (fun hm => ?_) (fun hs => ?_) ?_
    · rw [hmanaged, h.managed] at hm
      cases hm
    · rw [hsocket, h.socketOpen] at hs
      cases hs
    · rw [List.count_append, hops, hconn, h.released]
  have hclosing : t.conn.closing.count .releaseBuffer = 0 := by
    rw [count_closing, h.buffer]
    rfl
  cases e with
  | managerStop => exact hown.elim
  | waitAborted => exact ⟨h.managed, h.socketOpen, h.buffer, h.released, h.state⟩
  | expires =>
      unfold Task.step
      dsimp only
      split
      · exact ⟨h.managed, h.socketOpen, h.buffer, h.released, h.state⟩
      · exact h
  | handler e =>
      unfold Task.step
      dsimp only
      cases e with
      | stop => exact hown.elim
      | readDone result =>
          obtain rfl : result = .error .operationAborted := haborts h.socketOpen
          have hdoes := t.conn.does_call .cancelTimer
          rw [h.state, h.buffer] at hdoes
          exact hagain rfl rfl rfl hdoes rfl
      | writeDone error =>
          obtain rfl : error = some .operationAborted := haborts h.socketOpen
          refine hagain rfl rfl rfl (t.conn.does_onWrite_error .operationAborted) ?_
          rw [List.count_append, hclosing]
          rfl
      | timerExpired guard =>
          by_cases hguard : t.conn.state = guard
          · refine hagain rfl rfl rfl (t.conn.does_onTimer hguard) ?_
            rw [List.count_append, hclosing]
            rfl
          · have hsame : t.conn.handle (.timerExpired guard) =
                (t.dequeue (.timerExpired guard)).conn := Connection.onTimer_stale _ hguard
            rw [hsame, become_self]
            exact ⟨h.managed, h.socketOpen, h.buffer, h.released, h.state⟩

/-- `ConnectionManager::start` makes a connection that is alive. -/
theorem alive_started (major minor : Int) : (started major minor).Alive := by
  have hvacant : Vacant { conn := .construct major minor } := ⟨rfl, rfl, rfl, rfl, rfl, rfl⟩
  have hdoes : Connection.Does (.construct major minor)
      [.armTimer 30000 .reading, .asyncReadSome] .reading true (.fresh major minor) :=
    ⟨rfl, rfl, rfl⟩
  exact hvacant.alive 1 0 hdoes rfl ⟨_, rfl⟩ (.inl ⟨rfl, rfl, rfl⟩)

/-- `stop_all` for one connection: those in the set are stopped, and the set is cleared. -/
def stopAll (t : Task) : Task :=
  if t.managed = true then { t.become t.conn.shutdown with managed := false } else t

theorem Alive.stopAll (h : t.Alive) : t.stopAll.Dead := by
  have hdoes := t.conn.does_shutdown
  unfold Task.stopAll
  rw [if_pos h.managed]
  refine ⟨rfl, ?_, ?_, ?_, ?_⟩
  · dsimp only
    rw [become_eq hdoes.calls, socketOpen_foldl]
    simp [Connection.closing]
  · dsimp only
    rw [conn_become, hdoes.buffer]
  · dsimp only
    rw [conn_become, hdoes.calls, List.count_append, h.released, count_closing, if_pos h.buffer]
  · dsimp only
    rw [conn_become, hdoes.state]

theorem Dead.stopAll (h : t.Dead) : t.stopAll.Dead := by
  unfold Task.stopAll
  rw [if_neg (by rw [h.managed]; exact nofun)]
  exact h

end Task

/-! ## The server -/

/-- `Server`, with every connection it has started; `accepting` tells whether the handler of an
`async_accept` has not run. -/
structure Server where
  tasks : List Task := []
  acceptorOpen : Bool := true
  accepting : Bool := true

/-- An accept completes, with a new socket or an error; something happens to a connection; or
`graceful_shutdown` runs and returns.  It ends with `thread_pool_.reset()`, in which it may be stuck
for good (`stranded_iff_untimely`); then nothing more happens here.  The pool has nothing of the
server, and the server gives it no tasks.  The numbers are what the memory of a new connection's
version fields holds. -/
inductive ServerEvent
  | accepted (result : Except IoError (Int × Int))
  | connection (i : ℕ) (e : LoopEvent)
  | gracefulShutdown

namespace Server

variable (s : Server)

/-- `ConnectionManager::connections_`. -/
def connections : List Task := s.tasks.filter (·.managed)

def step : ServerEvent → Server
  | .accepted result =>
      if s.acceptorOpen then
        match result with
        | .ok (major, minor) => { s with tasks := s.tasks ++ [.started major minor] }
        | .error _ => s
      else { s with accepting := false }
  | .connection i e => { s with tasks := s.tasks.modify i (·.step e) }
  | .gracefulShutdown => { s with acceptorOpen := false, tasks := s.tasks.map Task.stopAll }

def Permits : ServerEvent → Prop
  | .accepted _ => s.accepting = true
  | .connection i e => ∃ t, s.tasks[i]? = some t ∧ t.Permits e ∧ Task.Own e
  | .gracefulShutdown => True

/-- What was outstanding on a socket when it was closed ends with `operation_aborted`. -/
def Aborting : ServerEvent → Prop
  | .connection i e => ∀ t, s.tasks[i]? = some t → t.Aborts e
  | .accepted _ | .gracefulShutdown => True

end Server

/-- The server at work. -/
def serving : System Server ServerEvent where
  Permits := Server.Permits
  step := Server.step

end GinCpp.Core
