import GinCpp.Core.EventLoop

/-!
# Closed is final

`shutdown` closes the socket and gives the buffer back, but the handlers of `do_read` and
`do_write` do not look at the state of the connection.  Those of operations that were completed
before, and are still in the queue, run as if nothing had happened: `closedIsFinal_iff`.
-/

namespace GinCpp.Core

open Transition

/-- The calls that start a read, a write or a wait. -/
def Call.starts : Call → Bool
  | .asyncReadSome | .asyncWrite _ | .armTimer _ _ => true
  | .shutdownSocket | .closeSocket | .cancelTimer | .releaseBuffer | .eraseFromManager => false

namespace Task

variable (t : Task)

/-- The calls that an event leads to. -/
def made (e : LoopEvent) : List Call := (t.step e).conn.calls.drop t.conn.calls.length

/-- `buffer_` is dereferenced by the handler of a successful read, and to start a read. -/
def Dereferences (e : LoopEvent) : Prop :=
  (∃ b, e = .handler (.readDone (.ok b))) ∨ Call.asyncReadSome ∈ t.made e

/-- **Closed is final** for an event: a connection that is closed stays closed, starts nothing and
does not touch its buffer. -/
def Final (e : LoopEvent) : Prop :=
  t.conn.state = .closed →
    (t.step e).conn.state = .closed ∧ (∀ op ∈ t.made e, op.starts = false) ∧ ¬ t.Dereferences e

/-- If the connection is closed, a read ends aborted, and a write that would be followed by a read
ends with an error. -/
def Harmless (e : LoopEvent) : Prop :=
  t.conn.state = .closed →
    match e with
    | .handler (.readDone result) => result = .error .operationAborted
    | .handler (.writeDone none) => t.conn.keepAlive = false
    | _ => True

variable {t} {e : LoopEvent} {ops : List Call} {state : ConnState} {buffer : Bool}

theorem made_eq (h : t.conn.Does ops state buffer (t.step e).conn) : t.made e = ops := by
  rw [made, h.calls, List.drop_left]

theorem does_handler {e : Event} (h : t.conn.Does ops state buffer (t.conn.handle e)) :
    t.conn.Does ops state buffer (t.step (.handler e)).conn := by rwa [conn_handler]

theorem made_handler {e : Event} (h : t.conn.Does ops state buffer (t.conn.handle e)) :
    t.made (.handler e) = ops := made_eq (does_handler h)

/-- An event that starts nothing. -/
theorem final_of_does (h : t.conn.Does ops .closed buffer (t.step e).conn)
    (hstarts : ∀ op ∈ ops, op.starts = false) (hread : ∀ b, e ≠ .handler (.readDone (.ok b))) :
    t.Final e := by
  intro _
  rw [made_eq h]
  refine ⟨h.state, hstarts, ?_⟩
  rintro (⟨b, hb⟩ | hmem)
  · exact hread b hb
  · rw [made_eq h] at hmem
    exact absurd (hstarts _ hmem) nofun

/-- An event that starts something. -/
theorem not_final_of_does (hclosed : t.conn.state = .closed)
    (h : t.conn.Does ops state buffer (t.step e).conn) {op : Call} (hmem : op ∈ ops)
    (hstarts : op.starts = true) : ¬ t.Final e := by
  intro hfinal
  have hnone := (hfinal hclosed).2.1 op (by rwa [made_eq h])
  rw [hstarts] at hnone
  cases hnone

theorem starts_closing (c : Connection) : ∀ op ∈ c.closing, op.starts = false := by
  intro op hop
  unfold Connection.closing at hop
  split at hop
  all_goals
    simp only [List.cons_append, List.nil_append, List.mem_cons, List.not_mem_nil, or_false] at hop
    rcases hop with rfl | hop
  · rfl
  · rcases hop with rfl | rfl <;> rfl
  · rfl
  · rw [hop]
    rfl

/-- **When closed is final**, event by event. -/
theorem final_iff (t : Task) (e : LoopEvent) : t.Final e ↔ t.Harmless e := by
  by_cases hclosed : t.conn.state = .closed
  swap
  · exact ⟨fun _ h => absurd h hclosed, fun _ h => absurd h hclosed⟩
  have hclosing := starts_closing t.conn
  have hsame : ∀ {e}, (t.step e).conn = t.conn → (∀ b, e ≠ .handler (.readDone (.ok b))) →
      t.Final e := by
    intro e hconn hread
    have hdoes : t.conn.Does [] .closed t.conn.buffer (t.step e).conn := by
      rw [hconn]
      exact ⟨(List.append_nil _).symm, hclosed, rfl⟩
    exact final_of_does hdoes (List.forall_mem_nil _) hread
  cases e with
  | waitAborted => exact iff_of_true (hsame conn_waitAborted fun b h => by cases h) fun _ => trivial
  | expires => exact iff_of_true (hsame conn_expires fun b h => by cases h) fun _ => trivial
  | managerStop =>
      refine iff_of_true ?_ fun _ => trivial
      have hdoes := t.conn.does_managerStop
      rw [← conn_managerStop] at hdoes
      exact final_of_does hdoes (List.forall_mem_cons.mpr ⟨rfl, hclosing⟩) fun b h => by cases h
  | handler e =>
      rcases e with (error | b) | (_ | error) | guard | _
      case readDone.ok =>
          -- the handler reads from the buffer whatever it finds there
          refine iff_of_false (fun hfinal => (hfinal hclosed).2.2 (.inl ⟨b, rfl⟩)) fun h => ?_
          cases h hclosed
      case readDone.error =>
          cases error with
          | operationAborted =>
              have hdoes : t.conn.Does [.cancelTimer] .closed t.conn.buffer
                  (t.conn.handle (.readDone (.error .operationAborted))) :=
                hclosed ▸ t.conn.does_call .cancelTimer
              refine iff_of_true (final_of_does (does_handler hdoes) ?_ fun b h => by cases h)
                fun _ => rfl
              exact List.forall_mem_singleton.mpr rfl
          | other =>
              -- the response to the error is written, and only then the connection is stopped
              obtain ⟨response, hdoes⟩ := t.conn.does_onRead_other
              have hmem : Call.asyncWrite response ∈ [.cancelTimer,
                  .armTimer t.conn.writeTimeoutMs .writing, .asyncWrite response,
                  .eraseFromManager] ++ t.conn.closing := by simp
              refine iff_of_false (not_final_of_does hclosed
                (does_handler (e := .readDone (.error .other)) hdoes) hmem rfl) fun h => ?_
              cases h hclosed
      case writeDone.none =>
          cases hkeep : t.conn.keepAlive with
          | true =>
              have hdoes :=
                does_handler (e := .writeDone none) (t.conn.does_onWrite_keepAlive hkeep)
              have hmem : Call.asyncReadSome ∈ [.cancelTimer,
                  .armTimer t.conn.idleTimeoutMs .idle,
                  .armTimer t.conn.readTimeoutMs .reading, .asyncReadSome] := by simp
              refine iff_of_false (not_final_of_does hclosed hdoes hmem rfl) fun h => ?_
              cases hkeep.symm.trans (h hclosed)
          | false =>
              have hdoes := does_handler (e := .writeDone none) (t.conn.does_onWrite_last hkeep)
              refine iff_of_true (final_of_does hdoes ?_ fun b h => by cases h) fun _ => hkeep
              simpa [Call.starts] using hclosing
      case writeDone.some =>
          have hdoes :=
            does_handler (e := .writeDone (some error)) (t.conn.does_onWrite_error error)
          refine iff_of_true (final_of_does hdoes ?_ fun b h => by cases h) fun _ => trivial
          simpa [Call.starts] using hclosing
      case timerExpired =>
          refine iff_of_true ?_ fun _ => trivial
          by_cases hguard : t.conn.state = guard
          · have hdoes := does_handler (e := .timerExpired guard) (t.conn.does_onTimer hguard)
            refine final_of_does hdoes ?_ fun b h => by cases h
            simpa [Call.starts, or_imp, forall_and] using hclosing
          · have hdoes : t.conn.Does [] .closed t.conn.buffer
                (t.step (.handler (.timerExpired guard))).conn := by
              rw [conn_handler, Connection.handle, Connection.onTimer_stale _ hguard]
              exact ⟨(List.append_nil _).symm, hclosed, rfl⟩
            exact final_of_does hdoes (List.forall_mem_nil _) fun b h => by cases h
      case stop =>
          have hdoes := does_handler (e := .stop) t.conn.does_shutdown
          exact iff_of_true (final_of_does hdoes hclosing fun b h => by cases h) fun _ => trivial

end Task

/-- **When closed is final.**  In a run of a connection, whatever happens in which order: exactly
if its handlers that run after it was closed have harmless results. -/
theorem closedIsFinal_iff (major minor : Int) (es : List LoopEvent) :
    looping.Throughout Task.Final (.started major minor) es ↔
      looping.Throughout Task.Harmless (.started major minor) es :=
  System.throughout_congr Task.final_iff

/-- A request with `keep-alive`, the end of the client's stream, and the response to this error,
which was sent before the connection was closed. -/
def halfClosed : List LoopEvent :=
  [.handler (.readDone (.ok
      ⟨ascii "GET / HTTP/1.1\x0d\nHost: a\x0d\n\x0d\n", by decide, by decide⟩)),
    .handler (.writeDone none), .handler (.readDone (.error .other)), .handler (.writeDone none)]

/-- The connection is closed, and reads again. -/
theorem not_closedIsFinal_halfClosed :
    looping.Run (.started 0 0) halfClosed ∧
      ¬ looping.Throughout Task.Final (.started 0 0) halfClosed := by
  constructor
  · exact ⟨⟨by decide +kernel, nofun⟩, ⟨by decide +kernel, nofun⟩, ⟨by decide +kernel, nofun⟩,
      ⟨by decide +kernel, nofun⟩, trivial⟩
  · rintro ⟨-, -, -, hfinal, -⟩
    have hclosed := (hfinal (by decide +kernel)).1
    revert hclosed
    decide +kernel

end GinCpp.Core
