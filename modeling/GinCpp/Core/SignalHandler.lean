import GinCpp.Core.Lifecycle

/-!
# Signals

`core/signal_handler.cpp` and the callbacks that the server gives it.  `asio::signal_set` hands a
signal to one pending wait, and keeps it where there is none.  `register_handlers` starts one wait,
and its handler starts no other: of all signals that are delivered the first one is handled
(`Served.handled`), so that after a SIGHUP the server is never shut down
(`acceptorOpen_of_sighup_first`).
-/

namespace GinCpp.Core

open Transition System

inductive Signal
  | sigint
  | sigterm
  | sigquit
  | sighup
  deriving DecidableEq

/-- `asio::signal_set`. -/
structure SignalSet where
  signals : List Signal := []
  /-- The waits that are pending. -/
  waits : ℕ := 0
  /-- The signals that came while no wait was pending. -/
  undelivered : List Signal := []
  /-- The signals whose handlers are in the queue of the `io_context`. -/
  completed : List Signal := []

namespace SignalSet

variable (s : SignalSet)

def add (signo : Signal) : SignalSet := { s with signals := s.signals ++ [signo] }

def asyncWait : SignalSet :=
  match s.undelivered with
  | [] => { s with waits := s.waits + 1 }
  | signo :: rest => { s with undelivered := rest, completed := s.completed ++ [signo] }

/-- The operating system reports a signal. -/
def deliver (signo : Signal) : SignalSet :=
  if 0 < s.waits then
    { s with waits := s.waits - 1, completed := s.completed ++ [signo] }
  else
    { s with undelivered := s.undelivered ++ [signo] }

/-- `SignalHandler::register_handlers`. -/
def registerHandlers : SignalSet :=
  ((((s.add .sigint).add .sigterm).add .sigquit).add .sighup).asyncWait

theorem mem_registerHandlers (signo : Signal) : signo ∈ (registerHandlers {}).signals := by
  cases signo <;> decide

end SignalSet

/-- A callback of the server. -/
inductive SignalCallback
  | gracefulShutdown (signo : Signal)
  | reloadConfig

/-- The callback that the handler of a wait invokes. -/
def onSignal (signo : Signal) : SignalCallback :=
  if signo = .sighup then .reloadConfig else .gracefulShutdown signo

/-- A server and its signals. -/
structure SignalledServer where
  server : Server := {}
  signals : SignalSet := SignalSet.registerHandlers {}
  /-- The signals that the operating system has reported. -/
  delivered : List Signal := []
  /-- The callbacks that were invoked. -/
  callbacks : List SignalCallback := []

/-- A signal comes in, the handler of a wait runs, or something happens at the server. -/
inductive SignalEvent
  | deliver (signo : Signal)
  | handler
  | server (e : ServerEvent)

namespace SignalledServer

variable (s : SignalledServer)

/-- There is no buffer pool that `reload_config` could reset. -/
def invoke (callback : SignalCallback) : SignalledServer :=
  { s with
    callbacks := s.callbacks ++ [callback]
    server :=
      match callback with
      | .gracefulShutdown _ => s.server.step .gracefulShutdown
      | .reloadConfig => s.server }

/-- Nothing but its callback shuts the server down. -/
def Permits : SignalEvent → Prop
  | .deliver signo => signo ∈ s.signals.signals
  | .handler => s.signals.completed ≠ []
  | .server e => s.server.Permits e ∧ e ≠ .gracefulShutdown

def step : SignalEvent → SignalledServer
  | .deliver signo =>
      { s with signals := s.signals.deliver signo, delivered := s.delivered ++ [signo] }
  | .handler =>
      match s.signals.completed with
      | signo :: rest =>
          invoke { s with signals := { s.signals with completed := rest } } (onSignal signo)
      | [] => s
  | .server e => { s with server := s.server.step e }

end SignalledServer

/-- A server that receives signals. -/
def signalling : System SignalledServer SignalEvent where
  Permits := SignalledServer.Permits
  step := SignalledServer.step

namespace SignalledServer

/-- What the signals ask for: a reload for each SIGHUP, up to the first shutdown. -/
def expected : List Signal → List SignalCallback
  | [] => []
  | .sighup :: rest => .reloadConfig :: expected rest
  | signo :: _ => [.gracefulShutdown signo]

/-- What has become of the only wait.  Every later signal stays undelivered. -/
inductive Served (s : SignalledServer) : Prop
  | armed (hwaits : s.signals.waits = 1) (hundelivered : s.signals.undelivered = [])
      (hcompleted : s.signals.completed = []) (hdelivered : s.delivered = [])
      (hcallbacks : s.callbacks = [])
  | completed (signo : Signal) (hwaits : s.signals.waits = 0)
      (hcompleted : s.signals.completed = [signo])
      (hdelivered : s.delivered = signo :: s.signals.undelivered) (hcallbacks : s.callbacks = [])
  | handled (signo : Signal) (hwaits : s.signals.waits = 0) (hcompleted : s.signals.completed = [])
      (hdelivered : s.delivered = signo :: s.signals.undelivered)
      (hcallbacks : s.callbacks = [onSignal signo])

variable {s : SignalledServer} {e : SignalEvent}

theorem step_deliver_of_waits_eq_zero (signo : Signal) (h : s.signals.waits = 0) :
    s.step (.deliver signo) =
      { s with
        signals := { s.signals with undelivered := s.signals.undelivered ++ [signo] }
        delivered := s.delivered ++ [signo] } := by
  unfold step SignalSet.deliver
  dsimp only
  rw [if_neg (by omega)]

theorem step_handler {signo : Signal} {rest : List Signal}
    (h : s.signals.completed = signo :: rest) :
    s.step .handler =
      invoke { s with signals := { s.signals with completed := rest } } (onSignal signo) := by
  unfold step
  dsimp only
  rw [h]

namespace Served

theorem step (h : s.Served) (hpermits : s.Permits e) : (s.step e).Served := by
  cases e with
  | deliver signo =>
      cases h with
      | armed hwaits hundelivered hcompleted hdelivered hcallbacks =>
          -- the only wait completes with this signal
          have hstep : (s.step (.deliver signo)).signals =
              { s.signals with waits := 0, completed := [signo] } := by
            change s.signals.deliver signo = _
            unfold SignalSet.deliver
            rw [if_pos (by omega), hwaits, hcompleted]
            rfl
          have hdelivered' : (s.step (.deliver signo)).delivered = [signo] := by
            change s.delivered ++ [signo] = _
            rw [hdelivered]
            rfl
          refine .completed signo ?_ ?_ ?_ hcallbacks
          · rw [hstep]
          · rw [hstep]
          · rw [hstep, hdelivered', hundelivered]
      | completed first hwaits hcompleted hdelivered hcallbacks =>
          -- no wait is pending, so the signal is queued
          rw [step_deliver_of_waits_eq_zero signo hwaits]
          exact .completed first hwaits hcompleted (congrArg (· ++ [signo]) hdelivered) hcallbacks
      | handled first hwaits hcompleted hdelivered hcallbacks =>
          rw [step_deliver_of_waits_eq_zero signo hwaits]
          exact .handled first hwaits hcompleted (congrArg (· ++ [signo]) hdelivered) hcallbacks
  | handler =>
      cases h with
      | armed _ _ hcompleted _ _ => exact absurd hcompleted hpermits
      | completed signo hwaits hcompleted hdelivered hcallbacks =>
          rw [step_handler hcompleted]
          exact .handled signo hwaits rfl hdelivered (congrArg (· ++ [onSignal signo]) hcallbacks)
      | handled _ _ hcompleted _ _ => exact absurd hcompleted hpermits
  | server e =>
      cases h with
      | armed hwaits hundelivered hcompleted hdelivered hcallbacks =>
          exact .armed hwaits hundelivered hcompleted hdelivered hcallbacks
      | completed signo hwaits hcompleted hdelivered hcallbacks =>
          exact .completed signo hwaits hcompleted hdelivered hcallbacks
      | handled signo hwaits hcompleted hdelivered hcallbacks =>
          exact .handled signo hwaits hcompleted hdelivered hcallbacks

/-- Once nothing is left to run, the callbacks are those asked for unless a SIGHUP was followed by
another signal. -/
theorem callbacks_eq_iff (h : s.Served) (hidle : s.signals.completed = []) :
    s.callbacks = expected s.delivered ↔
      s.delivered.length ≤ 1 ∨ s.delivered.head? ≠ some .sighup := by
  cases h with
  | armed _ _ _ hdelivered hcallbacks =>
      rw [hdelivered, hcallbacks]
      exact iff_of_true rfl (.inl (Nat.zero_le 1))
  | completed signo _ hcompleted _ _ => cases hcompleted.symm.trans hidle
  | handled signo _ _ hdelivered hcallbacks =>
      rw [hdelivered, hcallbacks, List.head?_cons]
      by_cases hsighup : signo = .sighup
      · subst hsighup
        cases hrest : s.signals.undelivered with
        | nil => exact iff_of_true rfl (.inl le_rfl)
        | cons next rest =>
            have hnext : expected (next :: rest) ≠ [] := by cases next <;> exact nofun
            refine iff_of_false (fun heq => hnext (List.cons_injective heq).symm) ?_
            simp
      · have hexpected : [onSignal signo] = expected (signo :: s.signals.undelivered) := by
          cases signo with
          | sighup => exact absurd rfl hsighup
          | _ => rfl
        exact iff_of_true hexpected (.inr fun heq => hsighup (Option.some_inj.mp heq))

end Served

theorem served_init : Served {} := .armed rfl rfl rfl rfl rfl

/-- The acceptor is open until a callback has shut the server down. -/
def Listening (s : SignalledServer) : Prop :=
  (∀ signo, .gracefulShutdown signo ∉ s.callbacks) → s.server.acceptorOpen = true

theorem acceptorOpen_step_of_ne {server : Server} {e : ServerEvent} (he : e ≠ .gracefulShutdown)
    (h : server.acceptorOpen = true) : (server.step e).acceptorOpen = true := by
  cases e with
  | accepted result =>
      unfold Server.step
      dsimp only
      rw [if_pos h]
      cases result with
      | error error => exact h
      | ok version => exact h
  | connection i e => exact h
  | gracefulShutdown => exact absurd rfl he

theorem Listening.step (h : s.Listening) (hpermits : s.Permits e) : (s.step e).Listening := by
  cases e with
  | deliver signo => exact h
  | handler =>
      cases hcompleted : s.signals.completed with
      | nil => exact absurd hcompleted hpermits
      | cons signo rest =>
          rw [step_handler hcompleted]
          intro hnone
          have hnone' : ∀ signo', .gracefulShutdown signo' ∉ s.callbacks ++ [onSignal signo] :=
            hnone
          unfold invoke
          cases hcallback : onSignal signo with
          | gracefulShutdown signo' =>
              rw [hcallback] at hnone'
              exact absurd (List.mem_append_right _ (List.mem_singleton_self _)) (hnone' signo')
          | reloadConfig =>
              exact h fun signo' hmem => hnone' signo' (List.mem_append_left _ hmem)
  | server e => exact fun hnone => acceptorOpen_step_of_ne hpermits.2 (h hnone)

end SignalledServer

open SignalledServer

variable {events : List SignalEvent}

theorem served_always (hrun : signalling.Run {} events) : signalling.Always Served {} events :=
  always_of_invariant (fun _ _ h hpermits _ => h.step hpermits) served_init hrun hrun

/-- **When no signal is swallowed.**  At the end of any run that leaves nothing to do. -/
theorem callbacks_eq_expected_iff (events : List SignalEvent) (hrun : signalling.Run {} events)
    (hidle : (signalling.run {} events).signals.completed = []) :
    (signalling.run {} events).callbacks = expected (signalling.run {} events).delivered ↔
      (signalling.run {} events).delivered.length ≤ 1 ∨
        (signalling.run {} events).delivered.head? ≠ some .sighup :=
  (served_always hrun).last.callbacks_eq_iff hidle

/-- A reload is asked for, and then a shutdown. -/
def reloadedThenTerminated : List SignalEvent :=
  [.deliver .sighup, .handler, .deliver .sigterm]

theorem run_reloadedThenTerminated : signalling.Run {} reloadedThenTerminated :=
  ⟨SignalSet.mem_registerHandlers _, nofun, SignalSet.mem_registerHandlers _, trivial⟩

theorem callbacks_reloadedThenTerminated :
    signalling.Run {} reloadedThenTerminated ∧
      (signalling.run {} reloadedThenTerminated).signals.completed = [] ∧
      (signalling.run {} reloadedThenTerminated).callbacks ≠
        expected (signalling.run {} reloadedThenTerminated).delivered :=
  ⟨run_reloadedThenTerminated, rfl, nofun⟩

theorem callbacks_iff_reloadedThenTerminated :
    (signalling.run {} reloadedThenTerminated).callbacks =
        expected (signalling.run {} reloadedThenTerminated).delivered ↔
      (signalling.run {} reloadedThenTerminated).delivered.length ≤ 1 ∨
        (signalling.run {} reloadedThenTerminated).delivered.head? ≠ some .sighup :=
  callbacks_eq_expected_iff _ run_reloadedThenTerminated rfl

/-- **After a SIGHUP nothing shuts the server down.** -/
theorem acceptorOpen_of_sighup_first {rest : List Signal} (hrun : signalling.Run {} events)
    (hfirst : (signalling.run {} events).delivered = .sighup :: rest) :
    (signalling.run {} events).server.acceptorOpen = true := by
  have hlistening : signalling.Always Listening {} events :=
    always_of_invariant (fun _ _ h hpermits _ => h.step hpermits) (fun _ => rfl) hrun hrun
  apply hlistening.last
  intro signo
  cases (served_always hrun).last with
  | armed _ _ _ hdelivered _ => cases hdelivered.symm.trans hfirst
  | completed _ _ _ _ hcallbacks =>
      rw [hcallbacks]
      exact List.not_mem_nil
  | handled first _ _ hdelivered hcallbacks =>
      obtain ⟨rfl, -⟩ := List.cons_eq_cons.mp (hdelivered.symm.trans hfirst)
      rw [hcallbacks, List.mem_singleton]
      exact nofun

end GinCpp.Core
