import GinCpp.Core.BufferPool
import GinCpp.Core.Finality
import GinCpp.Core.Lifecycle

/-!
# Who has which buffer

All connections of a server share one `BufferPool` of 128 buffers of 8192 bytes, without a limit:
the constructor of a connection acquires a buffer, and `shutdown` releases it.  A `Host` is a server
together with that pool.

A connection is a client of the pool as `Shop` wants it (`disciplined_always`), and so at every
moment the open connections have buffers of their own, no two the same and none of them in the pool,
and the counter of the pool counts those and no others (`exclusive_always`).
-/

namespace GinCpp.Core

open Transition System Shop

/-- A server, its pool with what is held of it, and the buffer that each connection acquired. -/
structure Host where
  server : Server := {}
  shop : Shop ℕ
  buffers : List Address := []
  /-- A new connection has found no buffer: it dereferences a null pointer, or does not come to
  be because of an exception. -/
  failed : Bool := false

/-- The events of a server, with what is up to others than the server: what an allocation for a new
connection returns, and the order of the connections in the set. -/
inductive HostEvent
  | accepted (result : Except IoError (Int × Int)) (allocated : Option Address)
  | connection (i : ℕ) (e : LoopEvent)
  | gracefulShutdown (order : List ℕ)

def HostEvent.forget : HostEvent → ServerEvent
  | accepted result _ => .accepted result
  | connection i e => .connection i e
  | gracefulShutdown _ => .gracefulShutdown

/-- `connections_`, by the numbers of the connections. -/
def Server.numbers (s : Server) : List ℕ :=
  (List.range s.tasks.length).filter fun i => s.tasks[i]?.any (·.managed)

namespace Host

/-- A server that has not accepted anything yet, and its new pool. -/
def opened (buffers : Buffers 128) : Host where
  shop := .opened 8192 128 0 buffers

variable (s : Host)

def bufferOf (i : ℕ) : Address := s.buffers.getD i 0

/-- The calls of `release` that a connection makes on its way from `t` to `t'`. -/
def releases (i : ℕ) (t t' : Task) : List (PoolCall ℕ) :=
  List.replicate ((t'.conn.calls.drop t.conn.calls.length).count .releaseBuffer)
    (.release i (s.bufferOf i))

/-- The calls on the pool in an event. -/
def calls : HostEvent → List (PoolCall ℕ)
  | .accepted (.ok _) allocated =>
      if s.server.acceptorOpen then [.acquire s.server.tasks.length allocated] else []
  | .accepted (.error _) _ => []
  | .connection i e => s.server.tasks[i]?.elim [] fun t => s.releases i t (t.step e)
  | .gracefulShutdown order =>
      order.flatMap fun i => s.server.tasks[i]?.elim [] fun t => s.releases i t t.stopAll

def step (e : HostEvent) : Host :=
  let after : Host :=
    { s with server := s.server.step e.forget, shop := (pooling ℕ).run s.shop (s.calls e) }
  match e with
  | .accepted (.ok _) allocated =>
      if s.server.acceptorOpen then
        match (s.shop.pool.acquire allocated).2 with
        | .buffer b => { after with buffers := s.buffers ++ [b] }
        -- the pool is as `acquire` has left it: a buffer that was not made has been counted
        | .refused | .threw => { after with server := s.server, failed := true }
      else after
  | .accepted (.error _) _ | .connection _ _ | .gracefulShutdown _ => after

/-- A new buffer is where nothing is that is in use, and the set is gone through in some order. -/
def Permits (e : HostEvent) : Prop :=
  s.server.Permits e.forget ∧
    match e with
    | .accepted _ allocated => ∀ b ∈ allocated, b ≠ 0 ∧ b ∉ s.shop.live
    | .connection _ _ => True
    | .gracefulShutdown order => order.Perm s.server.numbers

/-- What was outstanding on a socket that is closed ends aborted, and no allocation fails. -/
def Benign (e : HostEvent) : Prop :=
  s.server.Aborting e.forget ∧
    match e with
    | .accepted _ allocated => s.shop.pool.pool = [] → allocated.isSome
    | .connection _ _ | .gracefulShutdown _ => True

/-- The calls on the pool are those of clients that release only what they hold. -/
def Disciplined (e : HostEvent) : Prop := (pooling ℕ).Run s.shop (s.calls e)

/-- **Every open connection has a buffer of its own.** -/
structure Exclusive : Prop where
  failed : s.failed = false
  nonnull : ∀ i ∈ s.server.numbers, s.bufferOf i ≠ 0
  apart : ∀ i ∈ s.server.numbers, ∀ j ∈ s.server.numbers, s.bufferOf i = s.bufferOf j → i = j
  outside : ∀ i ∈ s.server.numbers, s.bufferOf i ∉ s.shop.pool.pool
  total : s.shop.pool.totalAllocated.toNat =
    s.shop.pool.pool.length + s.server.connections.length

end Host

/-- A server at work, with its pool. -/
def hosting : System Host HostEvent where
  Permits := Host.Permits
  step := Host.step

/-! ## What a connection releases -/

namespace Task

variable {t : Task}

/-- Every event of a connection is described by the calls that it makes. -/
theorem exists_does_step (t : Task) (e : LoopEvent) :
    ∃ ops state buffer, t.conn.Does ops state buffer (t.step e).conn := by
  have hnothing : ∀ c : Connection, c = t.conn →
      ∃ ops state buffer, t.conn.Does ops state buffer c := by
    intro c hc
    rw [hc]
    exact ⟨[], _, _, (List.append_nil _).symm, rfl, rfl⟩
  cases e with
  | waitAborted => exact hnothing _ conn_waitAborted
  | expires => exact hnothing _ conn_expires
  | managerStop =>
      rw [conn_managerStop]
      exact ⟨_, _, _, t.conn.does_managerStop⟩
  | handler e =>
      rw [conn_handler]
      cases e with
      | stop => exact ⟨_, _, _, t.conn.does_shutdown⟩
      | timerExpired guard =>
          by_cases hguard : t.conn.state = guard
          · exact ⟨_, _, _, t.conn.does_onTimer hguard⟩
          · exact hnothing _ (t.conn.onTimer_stale hguard)
      | readDone result =>
          cases result with
          | ok b =>
              rcases t.conn.does_onRead b.bytes with hdoes | ⟨response, hdoes⟩
              · exact ⟨_, _, _, hdoes⟩
              · exact ⟨_, _, _, hdoes⟩
          | error error =>
              cases error with
              | operationAborted => exact ⟨_, _, _, t.conn.does_call .cancelTimer⟩
              | other =>
                  obtain ⟨response, hdoes⟩ := t.conn.does_onRead_other
                  exact ⟨_, _, _, hdoes⟩
      | writeDone error =>
          cases error with
          | some error => exact ⟨_, _, _, t.conn.does_onWrite_error error⟩
          | none =>
              cases hkeep : t.conn.keepAlive with
              | true => exact ⟨_, _, _, t.conn.does_onWrite_keepAlive hkeep⟩
              | false => exact ⟨_, _, _, t.conn.does_onWrite_last hkeep⟩

theorem count_drop_of_does {ops : List Call} {state : ConnState} {buffer : Bool} {u : Task}
    (h : t.conn.Does ops state buffer u.conn) :
    t.conn.calls.count .releaseBuffer +
        (u.conn.calls.drop t.conn.calls.length).count .releaseBuffer =
      u.conn.calls.count .releaseBuffer := by
  rw [h.calls, List.drop_left, List.count_append]

/-- The calls of `release` in an event. -/
theorem count_made (t : Task) (e : LoopEvent) :
    t.conn.calls.count .releaseBuffer + (t.made e).count .releaseBuffer =
      (t.step e).conn.calls.count .releaseBuffer := by
  obtain ⟨ops, state, buffer, hdoes⟩ := t.exists_does_step e
  exact count_drop_of_does hdoes

/-- A connection that is stopped with all others releases its buffer. -/
theorem Alive.count_stopAll (h : t.Alive) :
    (t.stopAll.conn.calls.drop t.conn.calls.length).count .releaseBuffer = 1 := by
  have hstopped : t.stopAll.conn = t.conn.shutdown := by
    unfold Task.stopAll
    rw [if_pos h.managed]
    exact conn_become _
  have hcount := count_drop_of_does (t := t) (u := t.stopAll)
    (hstopped ▸ t.conn.does_shutdown)
  rw [h.released, h.stopAll.released, Nat.zero_add] at hcount
  exact hcount

end Task

/-! ## Lists of releases -/

namespace Shop

variable {C : Type} [DecidableEq C] {w : Shop C}

/-- The calls that release some buffers one after another. -/
def releasing (buffers : List (C × Address)) : List (PoolCall C) :=
  buffers.map fun (client, b) => .release client b

/-- **What is held can be released** in any order, and the rest is still held. -/
theorem releasing_spec {buffers rest : List (C × Address)} (h : w.Invariant)
    (hheld : w.held.Perm (buffers ++ rest)) :
    (pooling C).Run w (releasing buffers) ∧
      ((pooling C).run w (releasing buffers)).Invariant ∧
      ((pooling C).run w (releasing buffers)).held.Perm rest ∧
      ((pooling C).run w (releasing buffers)).pool.maxMemory = w.pool.maxMemory := by
  induction buffers generalizing w with
  | nil => exact ⟨trivial, h, hheld, rfl⟩
  | cons first buffers ih =>
      obtain ⟨client, b⟩ := first
      have hmem : (client, b) ∈ w.held := hheld.mem_iff.mpr List.mem_cons_self
      have herased : (w.held.erase (client, b)).Perm (buffers ++ rest) := by
        have := hheld.erase (client, b)
        rwa [List.cons_append, List.erase_cons_head] at this
      obtain ⟨hrun, hinvariant, hafter, hlimit⟩ := ih (h.release hmem) herased
      refine ⟨⟨hmem, hrun⟩, hinvariant, hafter, hlimit.trans ?_⟩
      unfold BufferPool.release
      split_ifs <;> rfl

end Shop

/-! ## The numbers of the connections -/

/-- What is selected in a list, by position. -/
theorem length_filter_range {α : Type*} (p : α → Bool) (l : List α) :
    ((List.range l.length).filter fun i => l[i]?.any p).length = (l.filter p).length := by
  induction l using List.reverseRecOn with
  | nil => rfl
  | append_singleton l a ih =>
      have hbefore : ((List.range l.length).filter fun i => (l ++ [a])[i]?.any p) =
          (List.range l.length).filter fun i => l[i]?.any p := by
        apply List.filter_congr
        intro i hi
        rw [List.getElem?_append_left (List.mem_range.mp hi)]
      rw [List.length_append, List.length_singleton, List.range_succ, List.filter_append,
        List.filter_append, hbefore, List.length_append, List.length_append, ih]
      cases ha : p a with
      | true => simp [ha]
      | false => simp [ha]

namespace Server

variable {s : Server} {i : ℕ} {t : Task}

theorem mem_numbers : i ∈ s.numbers ↔ ∃ t, s.tasks[i]? = some t ∧ t.managed = true := by
  unfold numbers
  rw [List.mem_filter, List.mem_range]
  constructor
  · intro h
    simpa [Option.any_eq_true] using h.2
  · rintro ⟨t, ht, hmanaged⟩
    refine ⟨(List.getElem?_eq_some_iff.mp ht).1, ?_⟩
    rw [ht]
    exact hmanaged

theorem nodup_numbers (s : Server) : s.numbers.Nodup := List.nodup_range.filter _

theorem length_numbers (s : Server) : s.numbers.length = s.connections.length :=
  length_filter_range Task.managed s.tasks

/-- A connection is started. -/
theorem numbers_accepted (hmanaged : t.managed = true) :
    numbers { s with tasks := s.tasks ++ [t] } = s.numbers ++ [s.tasks.length] := by
  have hbefore : ((List.range s.tasks.length).filter fun i =>
      (s.tasks ++ [t])[i]?.any (·.managed)) = s.numbers := by
    apply List.filter_congr
    intro i hi
    rw [List.getElem?_append_left (List.mem_range.mp hi)]
  show ((List.range (s.tasks ++ [t]).length).filter _) = _
  rw [List.length_append, List.length_singleton, List.range_succ, List.filter_append, hbefore]
  simp [hmanaged]

theorem mem_numbers_modify (ht : s.tasks[i]? = some t) (f : Task → Task) (j : ℕ) :
    j ∈ numbers { s with tasks := s.tasks.modify i f } ↔
      if j = i then (f t).managed = true else j ∈ s.numbers := by
  rw [mem_numbers]
  dsimp only
  rw [List.getElem?_modify]
  by_cases hj : j = i
  · subst hj
    simp [ht]
  · rw [if_neg hj, mem_numbers]
    simp [Ne.symm hj]

/-- An event leaves a connection in the set, or out of it. -/
theorem numbers_modify_perm (ht : s.tasks[i]? = some t) {f : Task → Task}
    (hf : (f t).managed = t.managed) :
    s.numbers.Perm (numbers { s with tasks := s.tasks.modify i f }) := by
  refine (List.perm_ext_iff_of_nodup (nodup_numbers _) (nodup_numbers _)).mpr fun j => ?_
  rw [mem_numbers_modify ht]
  by_cases hj : j = i
  · subst hj
    rw [if_pos rfl, hf, mem_numbers, ht]
    simp
  · rw [if_neg hj]

/-- A connection is taken out of the set. -/
theorem numbers_modify_erase (ht : s.tasks[i]? = some t) {f : Task → Task}
    (hmanaged : t.managed = true) (hf : (f t).managed = false) :
    s.numbers.Perm (i :: numbers { s with tasks := s.tasks.modify i f }) := by
  have hnot : i ∉ numbers { s with tasks := s.tasks.modify i f } := by
    rw [mem_numbers_modify ht, if_pos rfl, hf]
    exact nofun
  refine (List.perm_ext_iff_of_nodup (nodup_numbers _)
    (List.nodup_cons.mpr ⟨hnot, nodup_numbers _⟩)).mpr fun j => ?_
  rw [List.mem_cons, mem_numbers_modify ht]
  by_cases hj : j = i
  · subst hj
    exact iff_of_true (mem_numbers.mpr ⟨t, ht, hmanaged⟩) (.inl rfl)
  · simp [hj]

theorem numbers_eq_nil (hdead : ∀ t ∈ s.tasks, t.managed = false) : s.numbers = [] := by
  rw [← List.length_eq_zero_iff, length_numbers, List.length_eq_zero_iff, connections,
    List.filter_eq_nil_iff]
  intro t ht
  rw [hdead t ht]
  exact Bool.false_ne_true

end Server

/-! ## Ownership -/

namespace Host

/-- What should be held: the buffers of the connections in the set. -/
def owners (s : Host) : List (ℕ × Address) := s.server.numbers.map fun i => (i, s.bufferOf i)

/-- **What the ownership rests on.** -/
structure Owned (s : Host) : Prop where
  orderly : s.server.Orderly
  invariant : s.shop.Invariant
  unlimited : s.shop.pool.maxMemory = 0
  length : s.buffers.length = s.server.tasks.length
  held : s.shop.held.Perm s.owners
  failed : s.failed = false

variable {s : Host} {e : HostEvent} {i : ℕ} {t : Task}

/-- A pool without a limit always has a buffer to hand out. -/
theorem Owned.acquire_spec (h : s.Owned) (client : ℕ) {allocated : Option Address}
    (hfresh : ∀ b ∈ allocated, b ≠ 0 ∧ b ∉ s.shop.live)
    (hsome : s.shop.pool.pool = [] → allocated.isSome) :
    ∃ pool b, s.shop.pool.acquire allocated = (pool, .buffer b) ∧ pool.maxMemory = 0 ∧
      Shop.Invariant { pool, held := (client, b) :: s.shop.held } := by
  rcases s.shop.pool.acquire_cases allocated with ⟨b, pool, hpool, hacquire⟩ |
    ⟨-, hlimit, -⟩ | ⟨hpool, -, b, hallocated, hacquire⟩ | ⟨hpool, -, hnone, -⟩
  · exact ⟨_, b, hacquire, h.unlimited, h.invariant.handOut hpool client⟩
  · -- the limit is 0, which stands for none
    have hpositive := hlimit.1
    rw [h.unlimited] at hpositive
    exact absurd hpositive (by decide)
  · obtain ⟨hb, hnew⟩ := hfresh b hallocated
    exact ⟨_, b, hacquire, h.unlimited, h.invariant.grow hpool hb hnew client⟩
  · have := hsome hpool
    rw [hnone] at this
    cases this

theorem bufferOf_append (b : Address) (hi : i < s.buffers.length) :
    (s.buffers ++ [b]).getD i 0 = s.bufferOf i := by
  rw [bufferOf, List.getD_eq_getElem?_getD, List.getD_eq_getElem?_getD,
    List.getElem?_append_left hi]

/-- A connection is accepted, and acquires its buffer. -/
theorem Owned.accept (h : s.Owned) (hopen : s.server.acceptorOpen = true) {major minor : Int}
    {allocated : Option Address} (hpermits : s.Permits (.accepted (.ok (major, minor)) allocated))
    (hbenign : s.Benign (.accepted (.ok (major, minor)) allocated)) :
    (s.step (.accepted (.ok (major, minor)) allocated)).Owned ∧
      s.Disciplined (.accepted (.ok (major, minor)) allocated) := by
  obtain ⟨pool, b, hacquire, hunlimited, hinvariant⟩ :=
    h.acquire_spec s.server.tasks.length hpermits.2 hbenign.2
  have hcalls : s.calls (.accepted (.ok (major, minor)) allocated) =
      [.acquire s.server.tasks.length allocated] := if_pos hopen
  have hserver : s.server.step (.accepted (.ok (major, minor))) =
      { s.server with tasks := s.server.tasks ++ [.started major minor] } := if_pos hopen
  have hshop : (pooling ℕ).run s.shop [.acquire s.server.tasks.length allocated] =
      { pool, held := (s.server.tasks.length, b) :: s.shop.held } :=
    step_acquire hacquire _
  have hstep : s.step (.accepted (.ok (major, minor)) allocated) =
      { s with
        server := { s.server with tasks := s.server.tasks ++ [.started major minor] }
        shop := { pool, held := (s.server.tasks.length, b) :: s.shop.held }
        buffers := s.buffers ++ [b] } := by
    unfold step
    dsimp only
    rw [if_pos hopen, hacquire, hcalls, hshop]
    exact congrArg (fun server : Server => { s with
      server, shop := _, buffers := s.buffers ++ [b] : Host }) hserver
  refine ⟨?_, ?_⟩
  · rw [hstep]
    refine ⟨hserver ▸ h.orderly.step hpermits.1 trivial, hinvariant, hunlimited, ?_, ?_,
      h.failed⟩
    · rw [List.length_append, List.length_append, h.length]
      rfl
    · have hnew : (s.buffers ++ [b]).getD s.server.tasks.length 0 = b := by
        rw [← h.length, List.getD_eq_getElem?_getD]
        simp
      have hold : s.server.numbers.map (fun i => (i, (s.buffers ++ [b]).getD i 0)) =
          s.owners := by
        refine List.map_congr_left fun i hi => ?_
        obtain ⟨t, ht, -⟩ := Server.mem_numbers.mp hi
        rw [bufferOf_append b (h.length ▸ (List.getElem?_eq_some_iff.mp ht).1)]
      unfold owners
      rw [Server.numbers_accepted (Task.alive_started major minor).managed, List.map_append]
      show List.Perm _ (s.server.numbers.map (fun i => (i, (s.buffers ++ [b]).getD i 0)) ++
        [(s.server.tasks.length, (s.buffers ++ [b]).getD s.server.tasks.length 0)])
      rw [hold, hnew]
      exact (h.held.cons _).trans (List.perm_append_singleton _ _).symm
  · unfold Disciplined
    rw [hcalls]
    exact ⟨hpermits.2, trivial⟩

/-- Connections leave the set, and release their buffers. -/
theorem Owned.release (h : s.Owned) (leaving : List ℕ) {server : Server}
    {calls : List (PoolCall ℕ)} (horderly : server.Orderly)
    (hlength : server.tasks.length = s.server.tasks.length)
    (hnumbers : s.server.numbers.Perm (leaving ++ server.numbers))
    (hcalls : calls = releasing (leaving.map fun i => (i, s.bufferOf i))) :
    Owned { s with server, shop := (pooling ℕ).run s.shop calls } ∧
      (pooling ℕ).Run s.shop calls := by
  have hheld : s.shop.held.Perm ((leaving.map fun i => (i, s.bufferOf i)) ++
      server.numbers.map fun i => (i, s.bufferOf i)) := by
    rw [← List.map_append]
    exact h.held.trans (hnumbers.map _)
  obtain ⟨hrun, hinvariant, hafter, hlimit⟩ := releasing_spec h.invariant hheld
  rw [hcalls]
  exact ⟨⟨horderly, hinvariant, hlimit.trans h.unlimited, h.length.trans hlength.symm, hafter,
    h.failed⟩, hrun⟩

/-- Nothing is started and nothing is released. -/
theorem Owned.unchanged (h : s.Owned) {server : Server} (horderly : server.Orderly)
    (htasks : server.tasks = s.server.tasks) : Owned { s with server } := by
  have hnumbers : server.numbers = s.server.numbers := by
    unfold Server.numbers
    rw [htasks]
  refine ⟨horderly, h.invariant, h.unlimited, h.length.trans (by rw [htasks]), ?_, h.failed⟩
  unfold owners
  rw [hnumbers]
  exact h.held

/-- What one connection releases. -/
theorem releases_eq {t' : Task} {count : ℕ}
    (hcount : (t'.conn.calls.drop t.conn.calls.length).count .releaseBuffer = count) :
    s.releases i t t' = releasing (List.replicate count (i, s.bufferOf i)) := by
  unfold releases releasing
  rw [hcount, List.map_replicate]

/-- Something happens to one connection: it goes on, or it is closed and releases its buffer. -/
theorem Owned.connection (h : s.Owned) {e : LoopEvent} (hpermits : s.Permits (.connection i e))
    (hbenign : s.Benign (.connection i e)) :
    (s.step (.connection i e)).Owned ∧ s.Disciplined (.connection i e) := by
  have horderly := h.orderly.step hpermits.1 hbenign.1
  obtain ⟨t, ht, hevent, hown⟩ := hpermits.1
  have hlength : (s.server.tasks.modify i (·.step e)).length = s.server.tasks.length :=
    List.length_modify ..
  have hcalls : s.calls (.connection i e) = s.releases i t (t.step e) := by
    show s.server.tasks[i]?.elim [] _ = _
    rw [ht]
    rfl
  have hcount := t.count_made e
  -- what it releases, and who is left in the set
  have hleaves : ∃ leaving, s.releases i t (t.step e) =
      releasing (leaving.map fun i => (i, s.bufferOf i)) ∧
      s.server.numbers.Perm (leaving ++
        Server.numbers { s.server with tasks := s.server.tasks.modify i (·.step e) }) := by
    rcases h.orderly.tasks t (List.mem_of_getElem? ht) with halive | hdead
    · rcases halive.step hevent hown with halive' | hdead'
      · rw [halive.released, halive'.released, Nat.zero_add] at hcount
        exact ⟨[], releases_eq hcount,
          Server.numbers_modify_perm ht (halive'.managed.trans halive.managed.symm)⟩
      · rw [halive.released, hdead'.released, Nat.zero_add] at hcount
        exact ⟨[i], releases_eq hcount, Server.numbers_modify_erase ht halive.managed
          hdead'.managed⟩
    · have hdead' := hdead.step (hbenign.1 t ht) hown
      rw [hdead.released, hdead'.released, Nat.add_eq_left] at hcount
      exact ⟨[], releases_eq hcount,
        Server.numbers_modify_perm ht (hdead'.managed.trans hdead.managed.symm)⟩
  obtain ⟨leaving, hreleases, hnumbers⟩ := hleaves
  exact h.release leaving horderly hlength hnumbers (hcalls.trans hreleases)

/-- The set is gone through, and everything is released. -/
theorem Owned.gracefulShutdown (h : s.Owned) {order : List ℕ}
    (hpermits : s.Permits (.gracefulShutdown order)) :
    (s.step (.gracefulShutdown order)).Owned ∧ s.Disciplined (.gracefulShutdown order) := by
  have horderly : (s.server.step .gracefulShutdown).Orderly := h.orderly.step trivial trivial
  have hnone : (s.server.step .gracefulShutdown).numbers = [] :=
    Server.numbers_eq_nil fun t ht => (horderly.shutDown rfl t ht).managed
  have hnumbers : s.server.numbers.Perm
      (order ++ (s.server.step .gracefulShutdown).numbers) := by
    rw [hnone, List.append_nil]
    exact hpermits.2.symm
  refine h.release order horderly (List.length_map _) hnumbers ?_
  show order.flatMap _ = releasing (order.map _)
  unfold releasing
  rw [List.map_map, List.map_eq_flatMap]
  refine List.flatMap_congr fun i hi => ?_
  obtain ⟨t, ht, hmanaged⟩ := Server.mem_numbers.mp (hpermits.2.mem_iff.mp hi)
  have halive := (h.orderly.tasks t (List.mem_of_getElem? ht)).resolve_right fun hdead => by
    cases hmanaged.symm.trans hdead.managed
  rw [ht]
  exact releases_eq halive.count_stopAll

/-- **The ownership is kept by every event**, and the pool is used as it should be. -/
theorem Owned.step (h : s.Owned) (hpermits : s.Permits e) (hbenign : s.Benign e) :
    (s.step e).Owned ∧ s.Disciplined e := by
  cases e with
  | connection i e => exact h.connection hpermits hbenign
  | gracefulShutdown order => exact h.gracefulShutdown hpermits
  | accepted result allocated =>
      have horderly := h.orderly.step hpermits.1 hbenign.1
      cases result with
      | error error =>
          refine ⟨h.unchanged horderly ?_, trivial⟩
          show (s.server.step (.accepted (.error error))).tasks = _
          unfold Server.step
          dsimp only
          split
          · rfl
          · rfl
      | ok version =>
          obtain ⟨major, minor⟩ := version
          by_cases hopen : s.server.acceptorOpen = true
          · exact h.accept hopen hpermits hbenign
          · -- the acceptor has been closed since, and the socket is dropped
            have hserver : s.server.step (.accepted (.ok (major, minor))) =
                { s.server with accepting := false } := if_neg hopen
            have hcalls : s.calls (.accepted (.ok (major, minor)) allocated) = [] := if_neg hopen
            have hstep : s.step (.accepted (.ok (major, minor)) allocated) =
                { s with server := { s.server with accepting := false } } := by
              refine (if_neg hopen).trans ?_
              rw [hcalls]
              exact congrArg (fun server : Server => { s with server : Host }) hserver
            refine ⟨?_, ?_⟩
            · rw [hstep]
              exact h.unchanged (hserver ▸ horderly) rfl
            · unfold Disciplined
              rw [hcalls]
              trivial

theorem Owned.exclusive (h : s.Owned) : s.Exclusive := by
  have hheld : ∀ i ∈ s.server.numbers, (i, s.bufferOf i) ∈ s.shop.held := fun i hi =>
    h.held.mem_iff.mpr (List.mem_map_of_mem hi)
  have hsnd : ∀ i ∈ s.server.numbers, s.bufferOf i ∈ s.shop.held.map Prod.snd := fun i hi =>
    List.mem_map_of_mem (f := Prod.snd) (hheld i hi)
  obtain ⟨-, hnodup, hdisjoint⟩ := List.nodup_append'.mp h.invariant.nodup
  refine ⟨h.failed, fun i hi hnull => ?_, fun i hi j hj heq => ?_, fun i hi hpool => ?_, ?_⟩
  · exact h.invariant.nonnull (List.mem_append_right _ (hnull ▸ hsnd i hi))
  · have hpair := List.inj_on_of_nodup_map hnodup (hheld i hi) (hheld j hj) heq
    exact congrArg Prod.fst hpair
  · exact hdisjoint hpool (hsnd i hi)
  · rw [h.invariant.total, h.held.length_eq, owners, List.length_map, Server.length_numbers]

theorem owned_opened (buffers : Buffers 128) : (opened buffers).Owned :=
  ⟨Server.orderly_init, invariant_opened 8192 128 0 buffers, rfl, rfl, .refl _, rfl⟩

end Host

open Host

theorem owned_always {buffers : Buffers 128} {events : List HostEvent}
    (hrun : hosting.Run (opened buffers) events)
    (hbenign : hosting.Throughout Benign (opened buffers) events) :
    hosting.Always Owned (opened buffers) events :=
  always_of_invariant (fun _ _ h hpermits hbenign => (h.step hpermits hbenign).1)
    (owned_opened buffers) hrun hbenign

/-- **Every open connection has a buffer of its own**, in every run of a server, and every call on
the pool is that of a client that releases what it holds. -/
theorem exclusive_always (buffers : Buffers 128) (events : List HostEvent)
    (hrun : hosting.Run (opened buffers) events)
    (hbenign : hosting.Throughout Benign (opened buffers) events) :
    hosting.Always Exclusive (opened buffers) events ∧
      hosting.Throughout Disciplined (opened buffers) events := by
  have howned := owned_always hrun hbenign
  exact ⟨howned.imp fun _ h => h.exclusive,
    throughout_of_always (fun _ _ h hpermits hbenign => (h.step hpermits hbenign).2) howned hrun
      hbenign⟩

/-- Buffers at the addresses 1 to 128. -/
def Buffers.low : Buffers 128 where
  addresses := (List.range 128).map fun i => .ofNat (i + 1)
  length_eq := by decide +kernel
  nodup := by decide +kernel
  nonnull := by decide +kernel

/-- A connection is accepted and closed by a shutdown. -/
def acceptedAndShutDown : List HostEvent :=
  [.accepted (.ok (0, 0)) none, .gracefulShutdown [0],
    .connection 0 (.handler (.readDone (.error .operationAborted)))]

theorem exclusive_acceptedAndShutDown :
    hosting.Always Exclusive (opened .low) acceptedAndShutDown ∧
      hosting.Throughout Disciplined (opened .low) acceptedAndShutDown := by
  refine exclusive_always .low acceptedAndShutDown ⟨⟨rfl, nofun⟩, ⟨trivial, .refl _⟩, ?_, trivial⟩
    ⟨⟨trivial, nofun⟩, ⟨trivial, trivial⟩, ⟨fun _ _ _ => rfl, trivial⟩, trivial⟩
  exact ⟨⟨Task.stopAll (.started 0 0), rfl, ⟨by decide, nofun⟩, trivial⟩, trivial⟩

end GinCpp.Core
