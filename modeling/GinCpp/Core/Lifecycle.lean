import GinCpp.Core.Server

/-!
# The life of a connection

In every run of the server in which closing a socket aborts what is outstanding on it: the set of
the connection manager, the states of the connections and their buffers agree
(`consistent_always`), and no open connection is without an operation or a deadline
(`attended_always`).
-/

namespace GinCpp.Core

open Transition System

namespace Server

/-- **Set, state and buffer agree** for every connection that was started.  It is in `connections_`
as long as it is not closed, it holds its buffer as long, and it has given the buffer back exactly
once when it is closed.  After a shutdown the set is empty. -/
structure Consistent (s : Server) : Prop where
  managed : ∀ t ∈ s.tasks, t.managed = true ↔ t.conn.state ≠ .closed
  buffer : ∀ t ∈ s.tasks, t.conn.state ≠ .closed ↔ t.conn.buffer = true
  released : ∀ t ∈ s.tasks,
    t.conn.calls.count .releaseBuffer = if t.conn.state = .closed then 1 else 0
  shutDown : s.acceptorOpen = false → s.connections = []

/-- **No open connection is left alone.**  It has exactly one operation under way, that of its
state, and a wait whose handler will close it, pending or expired. -/
def Attended (s : Server) : Prop :=
  ∀ t ∈ s.tasks, t.conn.state ≠ .closed →
    t.reads + t.writes = 1 ∧ (t.reads = 1 ↔ t.conn.state = .reading) ∧
      (t.writes = 1 ↔ t.conn.state = .writing) ∧
      (t.armed = some t.conn.state ∨ t.conn.state ∈ t.expired) ∧
      (t.step (.handler (.timerExpired t.conn.state))).conn.state = .closed

/-- Every connection is alive or dead, and after a shutdown all are dead. -/
structure Orderly (s : Server) : Prop where
  tasks : ∀ t ∈ s.tasks, t.Alive ∨ t.Dead
  shutDown : s.acceptorOpen = false → ∀ t ∈ s.tasks, t.Dead

variable {s : Server} {e : ServerEvent}

theorem forall_mem_modify {α : Type*} {P : α → Prop} {l : List α} {i : ℕ} {f : α → α}
    (h : ∀ a ∈ l, P a) (hf : ∀ a, l[i]? = some a → P (f a)) : ∀ a ∈ l.modify i f, P a := by
  intro a ha
  obtain ⟨j, hj⟩ := List.mem_iff_getElem?.mp ha
  rw [List.getElem?_modify] at hj
  split at hj
  · next hij =>
    subst hij
    obtain ⟨b, hb, rfl⟩ := Option.map_eq_some_iff.mp hj
    exact hf b hb
  · exact h a (List.mem_of_getElem? (by simpa using hj))

namespace Orderly

/-- **One event at the server.** -/
theorem step (h : s.Orderly) (hpermits : s.Permits e) (haborting : s.Aborting e) :
    (s.step e).Orderly := by
  cases e with
  | accepted result =>
      unfold Server.step
      dsimp only
      split
      · next hopen =>
        cases result with
        | error error => exact h
        | ok version =>
            refine ⟨List.forall_mem_append.mpr ⟨h.tasks, ?_⟩, fun hclosed => ?_⟩
            · exact List.forall_mem_singleton.mpr (.inl (Task.alive_started _ _))
            · cases hopen.symm.trans hclosed
      · exact ⟨h.tasks, h.shutDown⟩
  | connection i e =>
      obtain ⟨t, ht, hevent, hown⟩ := hpermits
      have haborts := haborting t ht
      have hmem := List.mem_of_getElem? ht
      have hunique : ∀ t', s.tasks[i]? = some t' → t' = t := fun t' ht' =>
        Option.some_inj.mp (ht'.symm.trans ht)
      refine ⟨forall_mem_modify h.tasks fun t' ht' => ?_, fun hclosed =>
        forall_mem_modify (h.shutDown hclosed) fun t' ht' => ?_⟩
      · rw [hunique t' ht']
        rcases h.tasks t hmem with halive | hdead
        · exact halive.step hevent hown
        · exact .inr (hdead.step haborts hown)
      · rw [hunique t' ht']
        exact (h.shutDown hclosed t hmem).step haborts hown
  | gracefulShutdown =>
      have hall : ∀ t ∈ s.tasks.map Task.stopAll, t.Dead := by
        intro t ht
        obtain ⟨t', ht', rfl⟩ := List.mem_map.mp ht
        rcases h.tasks t' ht' with halive | hdead
        · exact halive.stopAll
        · exact hdead.stopAll
      exact ⟨fun t ht => .inr (hall t ht), fun _ => hall⟩

theorem connections_eq_nil (h : s.Orderly) (hclosed : s.acceptorOpen = false) :
    s.connections = [] := by
  rw [connections, List.filter_eq_nil_iff]
  intro t ht
  rw [(h.shutDown hclosed t ht).managed]
  exact nofun

theorem consistent (h : s.Orderly) : s.Consistent := by
  have hstate : ∀ t : Task, t.Alive → t.conn.state ≠ .closed := by
    intro t halive hclosed
    rcases halive.operation with ⟨hreading, -⟩ | ⟨hwriting, -⟩
    · cases hreading.symm.trans hclosed
    · cases hwriting.symm.trans hclosed
  refine ⟨fun t ht => ?_, fun t ht => ?_, fun t ht => ?_, h.connections_eq_nil⟩
  all_goals
    rcases h.tasks t ht with halive | hdead
  · exact iff_of_true halive.managed (hstate t halive)
  · exact iff_of_false (by rw [hdead.managed]; exact nofun) fun hne => hne hdead.state
  · exact iff_of_true (hstate t halive) halive.buffer
  · exact iff_of_false (fun hne => hne hdead.state) (by rw [hdead.buffer]; exact nofun)
  · rw [halive.released, if_neg (hstate t halive)]
  · rw [hdead.released, if_pos hdead.state]

theorem attended (h : s.Orderly) : s.Attended := by
  intro t ht hopen
  have halive := (h.tasks t ht).resolve_right fun hdead => hopen hdead.state
  have hcloses : (t.step (.handler (.timerExpired t.conn.state))).conn.state = .closed := by
    rw [Task.conn_handler, Connection.handle]
    exact (t.conn.does_onTimer rfl).state
  rcases halive.operation with ⟨hstate, hreads, hwrites⟩ | ⟨hstate, hreads, hwrites⟩
  · have hother : t.conn.state ≠ .writing := by simp [hstate]
    exact ⟨by rw [hreads, hwrites], iff_of_true hreads hstate,
      iff_of_false (by simp [hwrites]) hother, halive.timer, hcloses⟩
  · have hother : t.conn.state ≠ .reading := by simp [hstate]
    exact ⟨by rw [hreads, hwrites], iff_of_false (by simp [hreads]) hother,
      iff_of_true hwrites hstate, halive.timer, hcloses⟩

end Orderly

theorem orderly_init : Orderly {} := ⟨by simp, by simp⟩

theorem orderly_always {events : List ServerEvent} (hrun : serving.Run {} events)
    (haborting : serving.Throughout Aborting {} events) : serving.Always Orderly {} events :=
  always_of_invariant (fun _ _ h hpermits haborts => h.step hpermits haborts) orderly_init hrun
    haborting

/-- The acceptor is not opened again. -/
theorem acceptorOpen_step (e : ServerEvent) (h : s.acceptorOpen = false) :
    (s.step e).acceptorOpen = false := by
  cases e with
  | accepted result =>
      unfold Server.step
      dsimp only
      rw [if_neg (by rw [h]; exact nofun)]
      exact h
  | connection i e => exact h
  | gracefulShutdown => rfl

end Server

open Server

/-- **Set, state and buffer agree in every run**, and after a shutdown the set stays empty. -/
theorem consistent_always (events : List ServerEvent) (hrun : serving.Run {} events)
    (haborting : serving.Throughout Aborting {} events) :
    serving.Always Consistent {} events ∧
      ∀ before after, events = before ++ .gracefulShutdown :: after →
        serving.Always (fun s => s.connections = [])
          (serving.run {} (before ++ [.gracefulShutdown])) after := by
  refine ⟨(orderly_always hrun haborting).imp fun _ h => h.consistent, ?_⟩
  rintro before after rfl
  rw [← List.singleton_append, ← List.append_assoc] at hrun haborting
  obtain ⟨hbefore, hafter⟩ := throughout_append.mp hrun
  obtain ⟨habortingBefore, habortingAfter⟩ := throughout_append.mp haborting
  have horderly := (orderly_always hbefore habortingBefore).last
  have hclosed : (serving.run {} (before ++ [.gracefulShutdown])).acceptorOpen = false := by
    rw [run_append]
    rfl
  have hinvariant : serving.Always (fun s => s.Orderly ∧ s.acceptorOpen = false)
      (serving.run {} (before ++ [.gracefulShutdown])) after :=
    always_of_invariant
      (fun s e h hpermits haborts => ⟨h.1.step hpermits haborts, acceptorOpen_step e h.2⟩)
      ⟨horderly, hclosed⟩ hafter habortingAfter
  exact hinvariant.imp fun _ h => h.1.connections_eq_nil h.2

/-- A connection is accepted, the server is shut down, and the read of the connection ends. -/
def shutDownWhileReading : List ServerEvent :=
  [.accepted (.ok (0, 0)), .gracefulShutdown,
    .connection 0 (.handler (.readDone (.error .operationAborted)))]

theorem run_shutDownWhileReading : serving.Run {} shutDownWhileReading :=
  ⟨rfl, trivial, ⟨Task.stopAll (.started 0 0), rfl, ⟨by decide, nofun⟩, trivial⟩, trivial⟩

theorem aborting_shutDownWhileReading : serving.Throughout Aborting {} shutDownWhileReading :=
  ⟨trivial, trivial, fun _ _ _ => rfl, trivial⟩

theorem consistent_shutDownWhileReading :
    serving.Always Consistent {} shutDownWhileReading :=
  (consistent_always _ run_shutDownWhileReading aborting_shutDownWhileReading).1

/-- **No open connection is left alone in any run.** -/
theorem attended_always (events : List ServerEvent) (hrun : serving.Run {} events)
    (haborting : serving.Throughout Aborting {} events) : serving.Always Attended {} events :=
  (orderly_always hrun haborting).imp fun _ h => h.attended

theorem attended_shutDownWhileReading : serving.Always Attended {} shutDownWhileReading :=
  attended_always _ run_shutDownWhileReading aborting_shutDownWhileReading

end GinCpp.Core
