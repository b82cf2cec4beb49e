import GinCpp.Core.Finality

/-!
# What a timeout was armed for

A wait whose timer has expired can no longer be cancelled, and its handler looks at nothing but the
kind of state the connection is in.  A `Watch` gives the waits an identity: it counts the reads and
writes that were handled, and stamps every wait with the count when it was armed and when it
expired.

Every handler of a read or write begins with a cancellation, so a wait that has not expired yet is
never out of date.  A timeout hits another operation than its own exactly if it was overtaken in the
queue and meets a new phase of the same kind: `timely_iff`.
-/

namespace GinCpp.Core

open Transition

/-! ## Stamped waits -/

/-- A wait that has expired.  The stamps count the handlers of reads and writes that had run when it
was armed and when it expired. -/
structure Wait where
  guard : ConnState
  armedAt : ℕ
  expiredAt : ℕ
  deriving DecidableEq

/-- A connection at the event loop, with stamps. -/
structure Watch where
  task : Task
  /-- The handlers of reads and writes that have run. -/
  handled : ℕ := 0
  /-- The stamp of the wait that was armed last. -/
  armedAt : ℕ := 0
  /-- The waits that have expired, their handlers in the queue. -/
  waits : List Wait := []

/-- An event; the handler of a wait is the handler of one particular wait. -/
inductive WatchEvent
  | timeout (wait : Wait)
  | other (e : LoopEvent)

/-- What the event loop sees of it. -/
def WatchEvent.forget : WatchEvent → LoopEvent
  | .timeout wait => .handler (.timerExpired wait.guard)
  | .other e => e

/-- The calls that arm the timer. -/
def Call.arms : Call → Bool
  | .armTimer _ _ => true
  | _ => false

/-- The handlers of a read or a write. -/
def LoopEvent.completes : LoopEvent → Bool
  | .handler (.readDone _) | .handler (.writeDone _) => true
  | _ => false

namespace Watch

variable (s : Watch)

/-- The count after an event. -/
def count (e : WatchEvent) : ℕ := if e.forget.completes then s.handled + 1 else s.handled

def step (e : WatchEvent) : Watch where
  task := s.task.step e.forget
  handled := s.count e
  armedAt := if (s.task.made e.forget).any Call.arms then s.count e else s.armedAt
  waits :=
    match e with
    | .timeout wait => s.waits.erase wait
    | .other .expires =>
        match s.task.armed with
        | some guard => ⟨guard, s.armedAt, s.handled⟩ :: s.waits
        | none => s.waits
    | .other _ => s.waits

/-- The handlers of expired waits run in any order. -/
def Permits : WatchEvent → Prop
  | .timeout wait => wait ∈ s.waits
  | .other (.handler (.timerExpired _)) => False
  | .other e => s.task.Permits e

def started (major minor : Int) : Watch := { task := .started major minor }

/-- **Timely**: a timeout that closes the connection was armed for what is under way. -/
def Timely : WatchEvent → Prop
  | .timeout wait =>
      Call.closeSocket ∈ s.task.made (.handler (.timerExpired wait.guard)) →
        s.handled = wait.armedAt
  | .other _ => True

/-- The wait expired before a read or write that has been handled. -/
def Overtook (wait : Wait) : Prop := wait.expiredAt ≠ s.handled

/-- A timeout that was overtaken finds the connection in another kind of state than its own. -/
def Spared : WatchEvent → Prop
  | .timeout wait => s.Overtook wait → s.task.conn.state ≠ wait.guard
  | .other _ => True

end Watch

/-- One connection at the event loop, watched. -/
def watching : System Watch WatchEvent where
  Permits := Watch.Permits
  step := Watch.step

/-! ## The watch sees a run of the event loop -/

namespace Task

variable {t : Task} {e : LoopEvent} {ops : List Call} {guard : ConnState}

theorem expired_perform (op : Call) : (t.perform op).expired = t.expired := by
  cases op <;> rfl

theorem expired_foldl_perform : (ops.foldl perform t).expired = t.expired := by
  induction ops generalizing t with
  | nil => rfl
  | cons op ops ih =>
      rw [List.foldl_cons, ih]
      exact expired_perform op

@[simp] theorem expired_become (c : Connection) : (t.become c).expired = t.expired :=
  expired_foldl_perform

/-- A wait is pending after some calls: one of them armed it, or it was not cancelled. -/
theorem armed_foldl_perform (h : (ops.foldl perform t).armed = some guard) :
    ops.any Call.arms = true ∨ (t.armed = some guard ∧ .cancelTimer ∉ ops) := by
  induction ops generalizing t with
  | nil => exact .inr ⟨h, List.not_mem_nil⟩
  | cons op ops ih =>
      rcases ih h with harms | ⟨harmed, hcancel⟩
      · exact .inl (by rw [List.any_cons, harms, Bool.or_true])
      · cases op
        case armTimer => exact .inl rfl
        case cancelTimer => cases harmed
        all_goals exact .inr ⟨harmed, by simpa using hcancel⟩

theorem armed_become {c : Connection} (h : (t.become c).armed = some guard) :
    (c.calls.drop t.conn.calls.length).any Call.arms = true ∨
      (t.armed = some guard ∧ .cancelTimer ∉ c.calls.drop t.conn.calls.length) :=
  armed_foldl_perform (t := { t with conn := c }) h

/-- Where the pending wait comes from. -/
theorem armed_step (h : (t.step e).armed = some guard) :
    (t.made e).any Call.arms = true ∨ (t.armed = some guard ∧ .cancelTimer ∉ t.made e) := by
  cases e with
  | handler e =>
      have harmed : (t.dequeue e).armed = t.armed := by cases e <;> rfl
      have hbecome := armed_become (c := t.conn.handle e) h
      rw [conn_dequeue, harmed] at hbecome
      rwa [made, conn_handler]
  | managerStop =>
      rw [made, conn_managerStop]
      exact armed_become h
  | waitAborted =>
      have hnone : t.made .waitAborted = [] := by rw [made, conn_waitAborted, List.drop_length]
      rw [hnone]
      exact .inr ⟨h, List.not_mem_nil⟩
  | expires =>
      unfold step at h
      dsimp only at h
      split at h
      · cases h
      · next hnone => cases hnone.symm.trans h

/-- The handlers of reads and writes begin with a cancellation. -/
theorem cancelTimer_mem_made (h : e.completes = true) : Call.cancelTimer ∈ t.made e := by
  obtain ⟨e, rfl, ops, state, buffer, hdoes⟩ : ∃ e', e = .handler e' ∧
      ∃ ops state buffer, t.conn.Does (.cancelTimer :: ops) state buffer (t.conn.handle e') := by
    rcases e with ((error | b) | (_ | error) | guard | _) | _ | _ | _
    case handler.readDone.ok =>
        rcases t.conn.does_onRead b.bytes with hdoes | ⟨response, hdoes⟩
        all_goals exact ⟨_, rfl, _, _, _, hdoes⟩
    case handler.readDone.error =>
        cases error with
        | operationAborted => exact ⟨_, rfl, _, _, _, t.conn.does_call .cancelTimer⟩
        | other =>
            obtain ⟨response, hdoes⟩ := t.conn.does_onRead_other
            exact ⟨_, rfl, _, _, _, hdoes⟩
    case handler.writeDone.none =>
        cases hkeep : t.conn.keepAlive with
        | true => exact ⟨_, rfl, _, _, _, t.conn.does_onWrite_keepAlive hkeep⟩
        | false => exact ⟨_, rfl, _, _, _, t.conn.does_onWrite_last hkeep⟩
    case handler.writeDone.some => exact ⟨_, rfl, _, _, _, t.conn.does_onWrite_error error⟩
    all_goals cases h
  rw [made_handler hdoes]
  exact List.mem_cons_self

/-- A timeout closes the socket if the connection is in the state it checks. -/
theorem closeSocket_mem_made_iff :
    .closeSocket ∈ t.made (.handler (.timerExpired guard)) ↔ t.conn.state = guard := by
  by_cases hguard : t.conn.state = guard
  · rw [made_handler (e := .timerExpired guard) (t.conn.does_onTimer hguard)]
    refine iff_of_true (List.mem_append_left _ (List.mem_append_left _ ?_)) hguard
    exact List.mem_cons_of_mem _ List.mem_cons_self
  · rw [made, conn_handler, Connection.handle, Connection.onTimer_stale _ hguard, List.drop_length]
    exact iff_of_false List.not_mem_nil hguard

end Task

namespace Watch

variable {s : Watch} {e : WatchEvent} {es : List WatchEvent}

/-- The stamped waits are those of the event loop. -/
def Accurate (s : Watch) : Prop := (s.waits.map Wait.guard).Perm s.task.expired

/-- **The stamps.**  The pending wait is armed for what is under way, and so was every other when it
expired. -/
structure Stamped (s : Watch) : Prop where
  armed : s.task.armed ≠ none → s.armedAt = s.handled
  waits : ∀ wait ∈ s.waits, wait.armedAt = wait.expiredAt

theorem Stamped.step (h : s.Stamped) : (s.step e).Stamped := by
  refine ⟨fun harmed => ?_, ?_⟩
  · obtain ⟨guard, harmed⟩ := Option.ne_none_iff_exists'.mp harmed
    rcases Task.armed_step harmed with harms | ⟨hbefore, hcancel⟩
    · exact if_pos harms
    · -- an event that cancels nothing completes nothing
      have hcompletes : e.forget.completes = false := by
        by_contra hne
        exact hcancel (Task.cancelTimer_mem_made ((Bool.not_eq_false _).mp hne))
      have hcount : s.count e = s.handled := if_neg (Bool.not_eq_true _ ▸ hcompletes)
      have hstamp : s.armedAt = s.handled := h.armed (by rw [hbefore]; exact Option.some_ne_none _)
      unfold Watch.step
      simp only [hcount, hstamp, ite_self]
  · cases e with
    | timeout wait => exact fun wait' hmem => h.waits wait' (List.mem_of_mem_erase hmem)
    | other e =>
        cases e with
        | handler e => exact h.waits
        | managerStop => exact h.waits
        | waitAborted => exact h.waits
        | expires =>
            unfold Watch.step
            dsimp only
            split
            · next guard harmed =>
              refine List.forall_mem_cons.mpr ⟨h.armed ?_, h.waits⟩
              rw [harmed]
              exact Option.some_ne_none _
            · exact h.waits

theorem Stamped.timely_iff_spared (h : s.Stamped) (hpermits : s.Permits e) :
    s.Timely e ↔ s.Spared e := by
  cases e with
  | other e => exact Iff.rfl
  | timeout wait =>
      have hstamp : wait.armedAt = wait.expiredAt := h.waits wait hpermits
      change (Call.closeSocket ∈ s.task.made (.handler (.timerExpired wait.guard)) →
        s.handled = wait.armedAt) ↔ (wait.expiredAt ≠ s.handled → s.task.conn.state ≠ wait.guard)
      rw [Task.closeSocket_mem_made_iff, hstamp]
      constructor
      · intro htimely hovertook hstate
        exact hovertook (htimely hstate).symm
      · intro hspared hstate
        by_contra hne
        exact hspared (Ne.symm hne) hstate

theorem stamped_started (major minor : Int) : (started major minor).Stamped :=
  ⟨fun _ => rfl, List.forall_mem_nil _⟩

/-! ## The watch sees a run of the event loop -/

theorem Accurate.of_expired_eq {e : LoopEvent} (h : s.Accurate)
    (hexpired : (s.task.step e).expired = s.task.expired) :
    (s.waits.map Wait.guard).Perm (s.task.step e).expired := by
  rw [hexpired]
  exact h

theorem Accurate.step (h : s.Accurate) (hpermits : s.Permits e) :
    (s.step e).Accurate ∧ s.task.Permits e.forget := by
  cases e with
  | timeout wait =>
      have hmem : wait.guard ∈ s.task.expired := h.mem_iff.mp (List.mem_map_of_mem hpermits)
      have hexpired : (s.step (.timeout wait)).task.expired = s.task.expired.erase wait.guard :=
        Task.expired_become _
      refine ⟨?_, hmem⟩
      unfold Accurate
      rw [hexpired]
      have hbefore : (wait.guard :: (s.waits.erase wait).map Wait.guard).Perm s.task.expired :=
        ((List.perm_cons_erase hpermits).symm.map Wait.guard).trans h
      exact (hbefore.trans (List.perm_cons_erase hmem)).cons_inv
  | other e =>
      rcases e with (result | error | guard | _) | _ | _ | _
      case handler.timerExpired => exact hpermits.elim
      case expires =>
          refine ⟨?_, hpermits⟩
          unfold Accurate Watch.step Task.step WatchEvent.forget
          cases harmed : s.task.armed with
          | some guard => exact h.cons guard
          | none => exact h
      case handler.readDone => exact ⟨h.of_expired_eq (Task.expired_become _), hpermits⟩
      case handler.writeDone => exact ⟨h.of_expired_eq (Task.expired_become _), hpermits⟩
      case handler.stop => exact ⟨h.of_expired_eq (Task.expired_become _), hpermits⟩
      case managerStop => exact ⟨h.of_expired_eq (Task.expired_become _), hpermits⟩
      case waitAborted => exact ⟨h.of_expired_eq rfl, hpermits⟩

/-- A run of the watch is a run of the event loop. -/
theorem run_forget (h : s.Accurate) (hrun : watching.Run s es) :
    looping.Run s.task (es.map WatchEvent.forget) ∧
      looping.run s.task (es.map WatchEvent.forget) = (watching.run s es).task := by
  induction es generalizing s with
  | nil => exact ⟨trivial, rfl⟩
  | cons e es ih =>
      obtain ⟨hpermits, hrest⟩ := hrun
      obtain ⟨hstep, hpermits'⟩ := h.step hpermits
      obtain ⟨ihrun, iheq⟩ := ih hstep hrest
      exact ⟨⟨hpermits', ihrun⟩, iheq⟩

theorem accurate_started (major minor : Int) : (started major minor).Accurate := List.Perm.nil

end Watch

/-- **When timeouts are timely.**  In a run of a connection, whatever happens in which order, every
timeout that closes the connection was armed for what is under way: exactly if none that was
overtaken by a read or write meets a new phase of its kind. -/
theorem timely_iff (major minor : Int) (es : List WatchEvent)
    (hrun : watching.Run (.started major minor) es) :
    watching.Throughout Watch.Timely (.started major minor) es ↔
      watching.Throughout Watch.Spared (.started major minor) es := by
  have hstamped : watching.Always Watch.Stamped (.started major minor) es :=
    System.always_of_invariant (fun _ _ h _ _ => h.step) (Watch.stamped_started major minor) hrun
      hrun
  constructor
  · exact System.throughout_of_always
      (fun _ _ h hpermits htimely => (h.timely_iff_spared hpermits).mp htimely) hstamped hrun
  · exact System.throughout_of_always
      (fun _ _ h hpermits hspared => (h.timely_iff_spared hpermits).mpr hspared) hstamped hrun

/-- The start of a request arrives while the read times out. -/
def crossed : List WatchEvent :=
  [.other .expires, .other (.handler (.readDone (.ok ⟨ascii "GET", by decide, by decide⟩))),
    .timeout ⟨.reading, 0, 0⟩]

theorem run_crossed : watching.Run (.started 0 0) crossed :=
  ⟨rfl, ⟨by decide +kernel, nofun⟩, List.mem_cons_self, trivial⟩

theorem timely_iff_crossed :
    watching.Throughout Watch.Timely (.started 0 0) crossed ↔
      watching.Throughout Watch.Spared (.started 0 0) crossed :=
  timely_iff 0 0 crossed run_crossed

/-- The timeout of a read that is over closes the connection while the next one is under way. -/
theorem not_timely_crossed :
    watching.Run (.started 0 0) crossed ∧
      ¬ watching.Throughout Watch.Timely (.started 0 0) crossed := by
  refine ⟨run_crossed, ?_⟩
  rintro ⟨-, -, htimely, -⟩
  have hstamp : 1 = 0 := htimely (by decide +kernel)
  cases hstamp

end GinCpp.Core
