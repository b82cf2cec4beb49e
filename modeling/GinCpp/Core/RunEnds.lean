import GinCpp.Core.Finality
import GinCpp.Core.Lifecycle
import GinCpp.Transition.Potential
import Mathlib.Algebra.Order.BigOperators.Group.List

/-!
# Server::run returns

The event loop of a server runs as long as something is outstanding: an accept, a read or a write
whose handler has not run, a wait that is pending, has expired or was cancelled.  A graceful
shutdown starts nothing new, and neither does what is left of a closed connection, if closing a
socket aborts its operations: once `graceful_shutdown` has returned, at most as many handlers run as
are outstanding then, and as long as something is, some handler can run (`ends_of_shutDown`).
-/

namespace GinCpp.Core

open Transition System

namespace Task

/-- The events that a connection can still have by itself: a pending wait expires or is cancelled,
and then its handler runs. -/
def outstanding (t : Task) : ℕ :=
  t.reads + t.writes + t.expired.length + t.cancelled + 2 * t.armed.isSome.toNat

variable {t t' : Task} {e : LoopEvent} {ops : List Call} {state : ConnState} {buffer : Bool}
  {c : Connection}

/-- Calls that start nothing add nothing. -/
theorem outstanding_foldl_le (h : ∀ op ∈ ops, op.starts = false) :
    (ops.foldl perform t).outstanding ≤ t.outstanding := by
  induction ops generalizing t with
  | nil => exact Nat.le_refl _
  | cons op ops ih =>
      obtain ⟨hop, hops⟩ := List.forall_mem_cons.mp h
      refine (ih hops).trans ?_
      cases op with
      | cancelTimer =>
          show t.reads + t.writes + t.expired.length + (t.cancelled + t.armed.isSome.toNat) +
            2 * 0 ≤ t.outstanding
          unfold outstanding
          omega
      | asyncReadSome => cases hop
      | asyncWrite response => cases hop
      | armTimer ms guard => cases hop
      | _ => exact Nat.le_refl _

theorem outstanding_become_le (hdoes : t.conn.Does ops state buffer c)
    (h : ∀ op ∈ ops, op.starts = false) : (t.become c).outstanding ≤ t.outstanding := by
  rw [become_eq hdoes.calls]
  exact outstanding_foldl_le h

/-- **A closed connection comes to its end**, event by event. -/
theorem Dead.outstanding_step_lt (h : t.Dead) (hpermits : t.Permits e) (haborts : t.Aborts e)
    (hown : Own e) : (t.step e).outstanding < t.outstanding := by
  have hclosing := starts_closing t.conn
  cases e with
  | managerStop => exact hown.elim
  | waitAborted =>
      have hcancelled : 0 < t.cancelled := hpermits
      show t.reads + t.writes + t.expired.length + (t.cancelled - 1) + 2 * t.armed.isSome.toNat <
        t.outstanding
      unfold outstanding
      omega
  | expires =>
      obtain ⟨guard, hguard⟩ := Option.isSome_iff_exists.mp hpermits
      have hstep : t.step .expires = { t with armed := none, expired := guard :: t.expired } := by
        unfold Task.step
        dsimp only
        rw [hguard]
      rw [hstep]
      show t.reads + t.writes + (guard :: t.expired).length + t.cancelled + 2 * 0 < t.outstanding
      unfold outstanding
      rw [hguard, List.length_cons]
      show _ < _ + 2 * 1
      omega
  | handler e =>
      unfold Task.step
      dsimp only
      cases e with
      | stop => exact hown.elim
      | readDone result =>
          obtain rfl : result = .error .operationAborted := haborts h.socketOpen
          have hreads : 0 < t.reads := hpermits.1
          have hless : (t.dequeue (.readDone (.error .operationAborted))).outstanding <
              t.outstanding := by
            show t.reads - 1 + t.writes + t.expired.length + t.cancelled +
              2 * t.armed.isSome.toNat < t.outstanding
            unfold outstanding
            omega
          refine (outstanding_become_le (t := t.dequeue (.readDone (.error .operationAborted)))
            (t.conn.does_call .cancelTimer) ?_).trans_lt hless
          exact List.forall_mem_singleton.mpr rfl
      | writeDone error =>
          obtain rfl : error = some .operationAborted := haborts h.socketOpen
          have hwrites : 0 < t.writes := hpermits.1
          have hless : (t.dequeue (.writeDone (some .operationAborted))).outstanding <
              t.outstanding := by
            show t.reads + (t.writes - 1) + t.expired.length + t.cancelled +
              2 * t.armed.isSome.toNat < t.outstanding
            unfold outstanding
            omega
          refine (outstanding_become_le (t := t.dequeue (.writeDone (some .operationAborted)))
            (t.conn.does_onWrite_error .operationAborted) ?_).trans_lt hless
          refine List.forall_mem_append.mpr ⟨?_, hclosing⟩
          exact List.forall_mem_cons.mpr ⟨rfl, List.forall_mem_singleton.mpr rfl⟩
      | timerExpired guard =>
          have hexpired : guard ∈ t.expired := hpermits
          have hpos := List.length_pos_of_mem hexpired
          have hless : (t.dequeue (.timerExpired guard)).outstanding < t.outstanding := by
            show t.reads + t.writes + (t.expired.erase guard).length + t.cancelled +
              2 * t.armed.isSome.toNat < t.outstanding
            rw [List.length_erase_of_mem hexpired]
            unfold outstanding
            omega
          by_cases hguard : t.conn.state = guard
          · refine (outstanding_become_le (t := t.dequeue (.timerExpired guard))
              (t.conn.does_onTimer hguard) ?_).trans_lt hless
            refine List.forall_mem_append.mpr ⟨hclosing, ?_⟩
            exact List.forall_mem_cons.mpr
              ⟨rfl, List.forall_mem_cons.mpr ⟨rfl, List.forall_mem_singleton.mpr rfl⟩⟩
          · have hsame : t.conn.handle (.timerExpired guard) =
                (t.dequeue (.timerExpired guard)).conn := Connection.onTimer_stale _ hguard
            rw [hsame, become_self]
            exact hless

/-- As long as something is outstanding, something can happen. -/
theorem Dead.exists_permits (h : t.Dead) (houtstanding : 0 < t.outstanding) :
    ∃ e, t.Permits e ∧ t.Aborts e ∧ Own e := by
  by_cases hreads : 0 < t.reads
  · refine ⟨.handler (.readDone (.error .operationAborted)), ⟨hreads, fun hopen => ?_⟩,
      fun _ => rfl, trivial⟩
    cases h.socketOpen.symm.trans hopen
  by_cases hwrites : 0 < t.writes
  · refine ⟨.handler (.writeDone (some .operationAborted)), ⟨hwrites, fun hopen => ?_⟩,
      fun _ => rfl, trivial⟩
    cases h.socketOpen.symm.trans hopen
  by_cases hcancelled : 0 < t.cancelled
  · exact ⟨.waitAborted, hcancelled, fun _ => trivial, trivial⟩
  cases hexpired : t.expired with
  | cons guard expired =>
      have hmem : guard ∈ t.expired := by
        rw [hexpired]
        exact List.mem_cons_self
      exact ⟨.handler (.timerExpired guard), hmem, fun _ => trivial, trivial⟩
  | nil =>
      have harmed : t.armed.isSome = true := by
        by_contra hnone
        rw [Bool.not_eq_true] at hnone
        unfold outstanding at houtstanding
        rw [hexpired, List.length_nil, hnone, Bool.toNat_false] at houtstanding
        omega
      exact ⟨.expires, harmed, fun _ => trivial, trivial⟩

end Task

/-! ## The server -/

theorem sum_map_modify {α : Type*} (g : α → ℕ) (f : α → α) {l : List α} {i : ℕ} {a : α}
    (ha : l[i]? = some a) :
    ((l.modify i f).map g).sum + g a = (l.map g).sum + g (f a) := by
  induction l generalizing i with
  | nil => cases ha
  | cons b l ih =>
      cases i with
      | zero =>
          obtain rfl : b = a := Option.some_inj.mp ha
          simp only [List.modify_zero_cons, List.map_cons, List.sum_cons]
          omega
      | succ i =>
          have hrest := ih (i := i) ha
          simp only [List.modify_succ_cons, List.map_cons, List.sum_cons]
          omega

namespace Server

/-- The accept, and what is outstanding for the connections. -/
def outstanding (s : Server) : ℕ :=
  s.accepting.toNat + (s.tasks.map Task.outstanding).sum

/-- What the event loop does by itself, closing a socket aborting what is outstanding on it. -/
def Ending (s : Server) (e : ServerEvent) : Prop := s.Aborting e ∧ e ≠ .gracefulShutdown

/-- A server that has been shut down. -/
structure ShutDown (s : Server) : Prop where
  orderly : s.Orderly
  acceptorOpen : s.acceptorOpen = false

variable {s : Server} {e : ServerEvent}

theorem ShutDown.step (h : s.ShutDown) (hpermits : s.Permits e) (hending : s.Ending e) :
    (s.step e).ShutDown :=
  ⟨h.orderly.step hpermits hending.1, acceptorOpen_step e h.acceptorOpen⟩

/-- **A server that is shut down comes to its end.** -/
theorem ShutDown.outstanding_step_lt (h : s.ShutDown) (hpermits : s.Permits e)
    (hending : s.Ending e) : (s.step e).outstanding < s.outstanding := by
  cases e with
  | gracefulShutdown => exact absurd rfl hending.2
  | accepted result =>
      have haccepting : s.accepting = true := hpermits
      have hstep : s.step (.accepted result) = { s with accepting := false } :=
        if_neg (by rw [h.acceptorOpen]; exact Bool.false_ne_true)
      rw [hstep]
      show false.toNat + (s.tasks.map Task.outstanding).sum < s.outstanding
      unfold outstanding
      rw [haccepting, Bool.toNat_true, Bool.toNat_false]
      omega
  | connection i e =>
      obtain ⟨t, ht, hevent, hown⟩ := hpermits
      have hdead := h.orderly.shutDown h.acceptorOpen t (List.mem_of_getElem? ht)
      have hless := hdead.outstanding_step_lt hevent (hending.1 t ht) hown
      have hsum := sum_map_modify Task.outstanding (·.step e) ht
      show s.accepting.toNat + ((s.tasks.modify i (·.step e)).map Task.outstanding).sum <
        s.outstanding
      unfold outstanding
      omega

/-- As long as something is outstanding, something can happen. -/
theorem ShutDown.exists_permits (h : s.ShutDown) (houtstanding : 0 < s.outstanding) :
    ∃ e, s.Permits e ∧ s.Ending e := by
  by_cases haccepting : s.accepting = true
  · exact ⟨.accepted (.error .operationAborted), haccepting, trivial, nofun⟩
  · have hsum : 0 < (s.tasks.map Task.outstanding).sum := by
      unfold outstanding at houtstanding
      rw [Bool.not_eq_true] at haccepting
      rw [haccepting, Bool.toNat_false] at houtstanding
      omega
    obtain ⟨t, hmem, hpos⟩ : ∃ t ∈ s.tasks, 0 < t.outstanding := by
      by_contra hnone
      have hzero : ∀ n ∈ s.tasks.map Task.outstanding, n = 0 := by
        intro n hn
        obtain ⟨t, ht, rfl⟩ := List.mem_map.mp hn
        exact Nat.eq_zero_of_not_pos fun hpos => hnone ⟨t, ht, hpos⟩
      rw [List.sum_eq_zero hzero] at hsum
      exact Nat.lt_irrefl 0 hsum
    obtain ⟨i, hi⟩ := List.mem_iff_getElem?.mp hmem
    obtain ⟨e, hevent, haborts, hown⟩ :=
      (h.orderly.shutDown h.acceptorOpen t hmem).exists_permits hpos
    refine ⟨.connection i e, ⟨t, hi, hevent, hown⟩, fun t' ht' => ?_, nofun⟩
    obtain rfl := Option.some_inj.mp (ht'.symm.trans hi)
    exact haborts

end Server

open Server

/-- **`Server::run` returns** once `graceful_shutdown` has: no more handlers run than are
outstanding then, and it does not come to a stop before. -/
theorem ends_of_shutDown (before after : List ServerEvent)
    (hrun : serving.Run {} (before ++ .gracefulShutdown :: after))
    (haborting : serving.Throughout Aborting {} before)
    (hending : serving.Throughout Ending (serving.run {} (before ++ [.gracefulShutdown])) after) :
    let atShutDown := serving.run {} (before ++ [.gracefulShutdown])
    let atEnd := serving.run atShutDown after
    after.length + atEnd.outstanding ≤ atShutDown.outstanding ∧
      (0 < atEnd.outstanding → ∃ e, atEnd.Permits e ∧ atEnd.Ending e) := by
  intro atShutDown atEnd
  have hsplit : before ++ .gracefulShutdown :: after =
      (before ++ [.gracefulShutdown]) ++ after := by
    rw [List.append_assoc, List.singleton_append]
  rw [hsplit] at hrun
  obtain ⟨hfirst, hafter⟩ := throughout_append.mp hrun
  have habortingFirst : serving.Throughout Aborting {} (before ++ [.gracefulShutdown]) :=
    throughout_append.mpr ⟨haborting, trivial, trivial⟩
  have hstart : ShutDown atShutDown := by
    refine ⟨(orderly_always hfirst habortingFirst).last, ?_⟩
    show (serving.run {} (before ++ [.gracefulShutdown])).acceptorOpen = false
    rw [run_append]
    rfl
  have halways : serving.Always ShutDown atShutDown after :=
    always_of_invariant (fun _ _ h hpermits hending => h.step hpermits hending) hstart hafter
      hending
  exact ⟨length_add_potential_le Server.outstanding
    (fun _ _ h hpermits hending => h.outstanding_step_lt hpermits hending) halways hafter hending,
    fun hpos => halways.last.exists_permits hpos⟩

/-- The connection accepted is reading when the server is shut down: its read is aborted, and
`Server::run` returns. -/
theorem ends_shutDownWhileReading :
    let atEnd := serving.run {} shutDownWhileReading
    1 + atEnd.outstanding ≤ 3 ∧ (0 < atEnd.outstanding → ∃ e, atEnd.Permits e ∧ atEnd.Ending e) :=
  ends_of_shutDown [.accepted (.ok (0, 0))]
    [.connection 0 (.handler (.readDone (.error .operationAborted)))] run_shutDownWhileReading
    ⟨trivial, trivial⟩ ⟨⟨fun _ _ _ => rfl, nofun⟩, trivial⟩

end GinCpp.Core
