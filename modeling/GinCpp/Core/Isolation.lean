import GinCpp.Core.BufferOwnership

/-!
# What is in the buffers

The bytes of a read are put into the buffer of the connection when they come in, and are parsed
when the handler of the read runs.  In between, the handlers of other connections run, connections
are closed and others get their buffers, with what is in them.

A connection that is alone with its bytes is a `Task`.  So is every connection of a server, with
the bytes that came in for it and no others (`isolated`).
-/

namespace GinCpp.Core

open Transition System

/-- A host, the bytes in its buffers, and how many bytes of each connection's last read are there
for its handler. -/
structure Machine where
  host : Host
  memory : Address → Str
  filled : ℕ → Option ℕ := fun _ => none

/-- What happens: bytes come in for a connection, the handler of that read runs, or anything
else. -/
inductive MachineEvent
  | fill (i : ℕ) (block : Block)
  | complete (i : ℕ) (block : Block)
  | host (e : HostEvent)

/-- The handler of a read that is done. -/
def HostEvent.readDone (i : ℕ) (block : Block) : HostEvent :=
  .connection i (.handler (.readDone (.ok block)))

/-- An event other than that. -/
def HostEvent.Other : HostEvent → Prop
  | .connection _ (.handler (.readDone (.ok _))) => False
  | _ => True

namespace Machine

/-- A server that has not accepted anything yet, whatever is in the buffers of its pool. -/
def opened (buffers : Buffers 128) (memory : Address → Str) : Machine where
  host := .opened buffers
  memory

variable (m : Machine)

/-- What `buffer_->data()` up to a length is. -/
def contents (i length : ℕ) : Str := (m.memory (m.host.bufferOf i)).take length

/-- The vector that `std::make_shared` makes in an event is full of zeros. -/
def allocate : HostEvent → Address → Str
  | .accepted (.ok _) (some b) =>
      if m.host.server.acceptorOpen = true ∧ m.host.shop.pool.pool = [] then
        Function.update m.memory b (List.replicate bufferSize 0)
      else m.memory
  | _ => m.memory

def step : MachineEvent → Machine
  | .fill i block =>
      { m with
        memory := Function.update m.memory (m.host.bufferOf i)
          (block.bytes ++ (m.memory (m.host.bufferOf i)).drop block.bytes.length)
        filled := Function.update m.filled i (some block.bytes.length) }
  | .complete i block =>
      { m with
        host := m.host.step (.readDone i block)
        filled := Function.update m.filled i none }
  | .host e => { m with host := m.host.step e, memory := m.allocate e }

/-- A read is done once, while its socket is open, and its handler finds what is in the buffer. -/
def Permits : MachineEvent → Prop
  | .fill i _ => m.filled i = none ∧
      ∃ t, m.host.server.tasks[i]? = some t ∧ 0 < t.reads ∧ t.socketOpen = true
  | .complete i block =>
      m.filled i = some block.bytes.length ∧ m.contents i block.bytes.length = block.bytes ∧
        m.host.Permits (.readDone i block)
  | .host e => e.Other ∧ m.host.Permits e

def Benign : MachineEvent → Prop
  | .fill _ _ => True
  | .complete i block => m.host.Benign (.readDone i block)
  | .host e => m.host.Benign e

end Machine

/-- A server at work, with its pool and its memory. -/
def running : System Machine MachineEvent where
  Permits := Machine.Permits
  step := Machine.step

/-! ## One of the connections -/

/-- What happens to a connection: an event of its own, or the server is shut down. -/
inductive OwnEvent
  | loop (e : LoopEvent)
  | shutDown

def Task.undergo (t : Task) : OwnEvent → Task
  | .loop e => t.step e
  | .shutDown => t.stopAll

/-- The bytes of a read whose handler runs. -/
def OwnEvent.block? : OwnEvent → Option Block
  | .loop (.handler (.readDone (.ok block))) => some block
  | _ => none

/-- What an event of the server is for the connection number `i`. -/
def ServerEvent.own? (i : ℕ) : ServerEvent → Option OwnEvent
  | .connection j e => if j = i then some (.loop e) else none
  | .gracefulShutdown => some .shutDown
  | .accepted _ => none

/-- What the host notices. -/
def MachineEvent.host? : MachineEvent → Option HostEvent
  | .fill _ _ => none
  | .complete i block => some (.readDone i block)
  | .host e => some e

/-- The bytes that come in for the connection number `i`. -/
def MachineEvent.block? (i : ℕ) : MachineEvent → Option Block
  | .fill j block => if j = i then some block else none
  | _ => none

/-- What happens to the connection number `i`. -/
def own (i : ℕ) (events : List MachineEvent) : List OwnEvent :=
  ((events.filterMap (·.host?)).map (·.forget)).filterMap (·.own? i)

/-- The blocks that come in for it, and those that it parses. -/
def delivered (i : ℕ) (events : List MachineEvent) : List Block := events.filterMap (·.block? i)

def parsedBy (i : ℕ) (events : List MachineEvent) : List Block :=
  (own i events).filterMap (·.block?)

theorem Block.ext_bytes {block block' : Block} (h : block.bytes = block'.bytes) :
    block = block' := by
  cases block
  cases block'
  cases h
  rfl

/-! ## The tasks of a server -/

namespace Server

variable {s : Server} {e : ServerEvent} {i : ℕ} {t : Task} {events : List ServerEvent}

/-- **One event, for one of the connections**: it undergoes the event, or is new. -/
theorem getElem?_step (h : (s.step e).tasks[i]? = some t) :
    (∃ t', s.tasks[i]? = some t' ∧ t = (e.own? i).elim t' t'.undergo) ∨
      (i = s.tasks.length ∧ s.acceptorOpen = true ∧ e.own? i = none ∧
        ∃ major minor, t = .started major minor) := by
  cases e with
  | connection j e =>
      left
      change (s.tasks.modify j (·.step e))[i]? = some t at h
      rw [List.getElem?_modify] at h
      obtain ⟨t', ht', rfl⟩ := Option.map_eq_some_iff.mp h
      refine ⟨t', ht', ?_⟩
      show (if j = i then t'.step e else t') =
        (if j = i then some (OwnEvent.loop e) else none).elim t' t'.undergo
      split
      · rfl
      · rfl
  | gracefulShutdown =>
      left
      change (s.tasks.map Task.stopAll)[i]? = some t at h
      rw [List.getElem?_map] at h
      obtain ⟨t', ht', rfl⟩ := Option.map_eq_some_iff.mp h
      exact ⟨t', ht', rfl⟩
  | accepted result =>
      unfold step at h
      dsimp only at h
      split at h
      · next hopen =>
        cases result with
        | error error => exact .inl ⟨t, h, rfl⟩
        | ok version =>
            dsimp only at h
            rw [List.getElem?_append] at h
            split at h
            · exact .inl ⟨t, h, rfl⟩
            · next hlength =>
              obtain ⟨hi, ht⟩ := List.getElem?_eq_some_iff.mp h
              rw [List.length_singleton] at hi
              refine .inr ⟨by omega, hopen, rfl, version.1, version.2, ?_⟩
              rw [← ht, List.getElem_singleton]
      · exact .inl ⟨t, h, rfl⟩

/-- Nothing happens to a connection that is not there yet. -/
theorem own?_eq_none (hpermits : s.Permits e) (hopen : (s.step e).acceptorOpen = true)
    (hi : s.tasks.length ≤ i) : e.own? i = none := by
  cases e with
  | connection j e =>
      obtain ⟨t, ht, -, -⟩ := hpermits
      obtain ⟨hj, -⟩ := List.getElem?_eq_some_iff.mp ht
      exact if_neg (by omega)
  | gracefulShutdown => cases hopen
  | accepted result => rfl

theorem length_le_step (s : Server) (e : ServerEvent) :
    s.tasks.length ≤ (s.step e).tasks.length := by
  cases e with
  | connection j e => exact (List.length_modify ..).ge
  | gracefulShutdown => exact (List.length_map ..).ge
  | accepted result =>
      unfold step
      dsimp only
      split
      · cases result with
        | error error => exact Nat.le_refl _
        | ok version => simp
      · exact Nat.le_refl _

/-- What has become of the connections after some events. -/
structure Undergone (past : List ServerEvent) (s : Server) : Prop where
  tasks : ∀ i t, s.tasks[i]? = some t → ∃ major minor,
    t = (past.filterMap (·.own? i)).foldl Task.undergo (.started major minor)
  unborn : s.acceptorOpen = true → ∀ i, s.tasks.length ≤ i → past.filterMap (·.own? i) = []

theorem Undergone.step {past : List ServerEvent} (h : Undergone past s) (hpermits : s.Permits e) :
    Undergone (past ++ [e]) (s.step e) := by
  constructor
  · intro i t ht
    rw [List.filterMap_append, List.filterMap_cons, List.filterMap_nil]
    rcases getElem?_step ht with ⟨t', ht', rfl⟩ | ⟨rfl, hopen, hnone, major, minor, rfl⟩
    · obtain ⟨major, minor, rfl⟩ := h.tasks i t' ht'
      refine ⟨major, minor, ?_⟩
      rw [List.foldl_append]
      cases e.own? i <;> rfl
    · refine ⟨major, minor, ?_⟩
      rw [h.unborn hopen _ (Nat.le_refl _), hnone]
      rfl
  · intro hopen i hi
    have hold : s.acceptorOpen = true := by
      by_contra hclosed
      rw [acceptorOpen_step e (Bool.not_eq_true _ ▸ hclosed)] at hopen
      cases hopen
    have hi' := (s.length_le_step e).trans hi
    rw [List.filterMap_append, h.unborn hold i hi', List.filterMap_cons,
      own?_eq_none hpermits hopen hi']
    rfl

/-- **Every connection of a server is a task by itself.** -/
theorem undergone_run (hrun : serving.Run {} events) :
    Undergone events (serving.run {} events) := by
  induction events using List.reverseRecOn with
  | nil => exact ⟨by simp, fun _ _ _ => rfl⟩
  | append_singleton past e ih =>
      obtain ⟨hpast, he, -⟩ := throughout_append.mp hrun
      rw [run_append]
      exact (ih hpast).step he

/-- A connection that is closed stays closed. -/
theorem dead_of_own? (hdead : t.Dead) (ht : s.tasks[i]? = some t) (hpermits : s.Permits e)
    (haborting : s.Aborting e) : ((e.own? i).elim t t.undergo).Dead := by
  cases e with
  | accepted result => exact hdead
  | gracefulShutdown => exact hdead.stopAll
  | connection j e =>
      unfold ServerEvent.own?
      dsimp only
      split
      · next hj =>
        subst hj
        obtain ⟨t', ht', -, hown⟩ := hpermits
        exact hdead.step (haborting t ht) hown
      · exact hdead

/-- What is open after an event was open before, or is new. -/
theorem Orderly.mem_numbers_of_step (h : s.Orderly) (hpermits : s.Permits e)
    (haborting : s.Aborting e) (hi : i ∈ (s.step e).numbers) :
    i ∈ s.numbers ∨ i = s.tasks.length := by
  obtain ⟨t, ht, hmanaged⟩ := mem_numbers.mp hi
  rcases getElem?_step ht with ⟨t', ht', rfl⟩ | ⟨hlast, -⟩
  · left
    rcases h.tasks t' (List.mem_of_getElem? ht') with halive | hdead
    · exact mem_numbers.mpr ⟨t', ht', halive.managed⟩
    · have hdead' := dead_of_own? hdead ht' hpermits haborting
      cases hmanaged.symm.trans hdead'.managed
  · exact .inr hlast

end Server

/-! ## The server behind a host -/

namespace Host

variable {s : Host} {e : HostEvent} {i : ℕ}

/-- A host that has a buffer for every connection does as its server does, and a connection keeps
the buffer it has. -/
theorem Owned.step_server (h : s.Owned) (hpermits : s.Permits e) (hbenign : s.Benign e) :
    (s.step e).server = s.server.step e.forget ∧
      ∀ i, i < s.buffers.length → (s.step e).bufferOf i = s.bufferOf i := by
  cases e with
  | connection i e => exact ⟨rfl, fun _ _ => rfl⟩
  | gracefulShutdown order => exact ⟨rfl, fun _ _ => rfl⟩
  | accepted result allocated =>
      cases result with
      | error error => exact ⟨rfl, fun _ _ => rfl⟩
      | ok version =>
          unfold Host.step
          dsimp only
          split
          · obtain ⟨pool, b, hacquire, -⟩ :=
              h.acquire_spec s.server.tasks.length hpermits.2 hbenign.2
            rw [hacquire]
            exact ⟨rfl, fun i hi => bufferOf_append b hi⟩
          · exact ⟨rfl, fun _ _ => rfl⟩

theorem Owned.length_le_step (h : s.Owned) (hpermits : s.Permits e) (hbenign : s.Benign e) :
    s.server.tasks.length ≤ (s.step e).server.tasks.length := by
  rw [(h.step_server hpermits hbenign).1]
  exact s.server.length_le_step e.forget

/-- The buffer of an open connection is in use. -/
theorem Owned.bufferOf_mem_live (h : s.Owned) (hi : i ∈ s.server.numbers) :
    s.bufferOf i ∈ s.shop.live := by
  have hheld : (i, s.bufferOf i) ∈ s.shop.held := h.held.mem_iff.mpr (List.mem_map_of_mem hi)
  exact List.mem_append_right _ (List.mem_map_of_mem (f := Prod.snd) hheld)

end Host

/-! ## The host behind a machine -/

namespace Machine

variable {m : Machine} {e : MachineEvent} {events : List MachineEvent}

theorem host_step (m : Machine) (e : MachineEvent) :
    (m.step e).host = e.host?.elim m.host m.host.step := by
  cases e <;> rfl

theorem permits_host (h : m.Permits e) : ∀ e' ∈ e.host?, m.host.Permits e' := by
  cases e with
  | fill i block => exact nofun
  | complete i block => rintro _ ⟨rfl⟩; exact h.2.2
  | host e => rintro _ ⟨rfl⟩; exact h.2

theorem benign_host (h : m.Benign e) : ∀ e' ∈ e.host?, m.host.Benign e' := by
  cases e with
  | fill i block => exact nofun
  | complete i block => rintro _ ⟨rfl⟩; exact h
  | host e => rintro _ ⟨rfl⟩; exact h

/-! ## What is in the buffers -/

/-- What an event is for what a connection parses. -/
def parsing? (i : ℕ) (e : MachineEvent) : Option Block :=
  (e.host?.bind (·.forget.own? i)).bind (·.block?)

theorem delivered_concat (i : ℕ) (past : List MachineEvent) (e : MachineEvent) :
    delivered i (past ++ [e]) = delivered i past ++ (e.block? i).toList := by
  rw [delivered, List.filterMap_append]
  cases h : e.block? i <;> simp [delivered, h]

theorem parsedBy_concat (i : ℕ) (past : List MachineEvent) (e : MachineEvent) :
    parsedBy i (past ++ [e]) = parsedBy i past ++ (parsing? i e).toList := by
  have hparsed : ∀ events, parsedBy i events = events.filterMap (parsing? i) := by
    intro events
    rw [parsedBy, own, List.filterMap_map, List.filterMap_filterMap, List.filterMap_filterMap]
    refine List.filterMap_congr fun e _ => ?_
    rw [parsing?, Option.bind_assoc]
    rfl
  rw [hparsed, hparsed, List.filterMap_append]
  cases h : parsing? i e <;> simp [h]

/-- The read that has come in for a connection and has not been parsed. -/
structure Outstanding (past : List MachineEvent) (m : Machine) (i : ℕ) (last : Option Block) :
    Prop where
  delivered : delivered i past = parsedBy i past ++ last.toList
  filled : i ∈ m.host.server.numbers → m.filled i = last.map (·.bytes.length)
  contents : i ∈ m.host.server.numbers → ∀ block ∈ last,
    m.contents i block.bytes.length = block.bytes

/-- **What the isolation rests on.** -/
structure Buffered (past : List MachineEvent) (m : Machine) : Prop where
  owned : m.host.Owned
  unborn : ∀ i, m.host.server.tasks.length ≤ i → m.filled i = none ∧ delivered i past = []
  reads : ∀ i, ∃ last, Outstanding past m i last

variable {past : List MachineEvent} {i : ℕ} {block : Block}

/-- The bytes are where they have been put, -/
theorem contents_fill (m : Machine) (i : ℕ) (block : Block) :
    (m.step (.fill i block)).contents i block.bytes.length = block.bytes := by
  show ((Function.update m.memory _ _) (m.host.bufferOf i)).take _ = _
  rw [Function.update_self]
  exact List.take_left

/-- and nowhere else. -/
theorem contents_fill_of_ne {j : ℕ} (h : m.host.bufferOf j ≠ m.host.bufferOf i) (length : ℕ) :
    (m.step (.fill i block)).contents j length = m.contents j length := by
  show ((Function.update m.memory _ _) (m.host.bufferOf j)).take _ = _
  rw [Function.update_of_ne h]
  rfl

/-- A connection whose socket is open is in the set. -/
theorem Buffered.mem_numbers (h : Buffered past m) {t : Task}
    (ht : m.host.server.tasks[i]? = some t) (hopen : t.socketOpen = true) :
    i ∈ m.host.server.numbers := by
  rcases h.owned.orderly.tasks t (List.mem_of_getElem? ht) with halive | hdead
  · exact Server.mem_numbers.mpr ⟨t, ht, halive.managed⟩
  · cases hopen.symm.trans hdead.socketOpen

/-- Bytes come in, and the buffers of the other connections are as they were. -/
theorem Buffered.fill (h : Buffered past m) (hpermits : m.Permits (.fill i block)) :
    Buffered (past ++ [.fill i block]) (m.step (.fill i block)) := by
  obtain ⟨hnone, t, ht, -, hopen⟩ := hpermits
  have hi := h.mem_numbers ht hopen
  have hparsed : ∀ j, parsedBy j (past ++ [.fill i block]) = parsedBy j past := fun j => by
    rw [parsedBy_concat]
    exact List.append_nil _
  have hdelivered : ∀ j, j ≠ i → delivered j (past ++ [.fill i block]) = delivered j past :=
    fun j hj => by
      have hother : (MachineEvent.fill i block).block? j = none := if_neg (Ne.symm hj)
      rw [delivered_concat, hother]
      exact List.append_nil _
  refine ⟨h.owned, fun j hj => ?_, fun j => ?_⟩
  · have hne : j ≠ i := by
      have hlt := (List.getElem?_eq_some_iff.mp ht).1
      rintro rfl
      exact absurd hj (Nat.not_le.mpr hlt)
    rw [hdelivered j hne]
    exact ⟨(Function.update_of_ne hne ..).trans (h.unborn j hj).1, (h.unborn j hj).2⟩
  · obtain ⟨last, hlast⟩ := h.reads j
    by_cases hj : j = i
    · subst hj
      have hself : (MachineEvent.fill j block).block? j = some block := if_pos rfl
      obtain rfl : last = none := by
        have hfilled := hlast.filled hi
        rw [hnone] at hfilled
        exact Option.map_eq_none_iff.mp hfilled.symm
      refine ⟨some block, ?_, fun _ => Function.update_self .., fun _ => ?_⟩
      · rw [delivered_concat, hself, hlast.delivered, hparsed]
        simp
      · rintro _ ⟨rfl⟩
        exact m.contents_fill j block
    · refine ⟨last, ?_, fun hmem => ?_, fun hmem block' hblock => ?_⟩
      · rw [hdelivered j hj, hparsed, hlast.delivered]
      · exact (Function.update_of_ne hj ..).trans (hlast.filled hmem)
      · have hapart : m.host.bufferOf j ≠ m.host.bufferOf i :=
          fun heq => hj (h.owned.exclusive.apart j hmem i hi heq)
        rw [contents_fill_of_ne hapart]
        exact hlast.contents hmem block' hblock

/-- An event of the host leaves the outstanding reads alone that it has nothing to do with. -/
theorem Buffered.outstanding (h : Buffered past m) {e : HostEvent} (hpermits : m.host.Permits e)
    (hbenign : m.host.Benign e) {past' : List MachineEvent} {m' : Machine} {last : Option Block}
    (hlast : Outstanding past m i last) (hhost : m'.host = m.host.step e)
    (hdelivered : delivered i past' = delivered i past)
    (hparsed : parsedBy i past' = parsedBy i past)
    (hfilled : m'.filled i = m.filled i)
    (hmemory : i ∈ m.host.server.numbers →
      m'.memory (m.host.bufferOf i) = m.memory (m.host.bufferOf i)) :
    Outstanding past' m' i last := by
  obtain ⟨hserver, hbuffer⟩ := h.owned.step_server hpermits hbenign
  -- an open connection was open before, or it is new and nothing has come in for it
  have hcases : i ∈ m'.host.server.numbers →
      i ∈ m.host.server.numbers ∨ (last = none ∧ m.filled i = none) := by
    intro hi
    rw [hhost, hserver] at hi
    rcases h.owned.orderly.mem_numbers_of_step hpermits.1 hbenign.1 hi with hold | hnew
    · exact .inl hold
    · obtain ⟨hnone, hempty⟩ := h.unborn i hnew.ge
      have hdelivered := hlast.delivered
      rw [hempty, eq_comm, List.append_eq_nil_iff] at hdelivered
      exact .inr ⟨by simpa using hdelivered.2, hnone⟩
  refine ⟨?_, fun hi => ?_, fun hi block hblock => ?_⟩
  · rw [hdelivered, hparsed, hlast.delivered]
  · rw [hfilled]
    rcases hcases hi with hold | ⟨rfl, hnone⟩
    · exact hlast.filled hold
    · exact hnone
  · rcases hcases hi with hold | ⟨rfl, -⟩
    · obtain ⟨t, ht, -⟩ := Server.mem_numbers.mp hold
      have hlt : i < m.host.buffers.length :=
        h.owned.length ▸ (List.getElem?_eq_some_iff.mp ht).1
      rw [contents, hhost, hbuffer i hlt, hmemory hold]
      exact hlast.contents hold block hblock
    · cases hblock

/-- A connection parses what has come in for it. -/
theorem Buffered.complete (h : Buffered past m) (hpermits : m.Permits (.complete i block))
    (hbenign : m.Benign (.complete i block)) :
    Buffered (past ++ [.complete i block]) (m.step (.complete i block)) := by
  obtain ⟨hfilled, hcontents, hhost⟩ := hpermits
  obtain ⟨t, ht, -, -⟩ := hhost.1
  have hi : i ∈ m.host.server.numbers := by
    apply h.mem_numbers ht
    by_contra hclosed
    cases hbenign.1 t ht (Bool.not_eq_true _ ▸ hclosed)
  have hdelivered : ∀ j, delivered j (past ++ [.complete i block]) = delivered j past :=
    fun j => by
      rw [delivered_concat]
      exact List.append_nil _
  refine ⟨(h.owned.step hhost hbenign).1, fun j hj => ?_, fun j => ?_⟩
  · have hj' := (h.owned.length_le_step hhost hbenign).trans hj
    have hne : j ≠ i := by
      have hlt := (List.getElem?_eq_some_iff.mp ht).1
      rintro rfl
      exact absurd hj' (Nat.not_le.mpr hlt)
    rw [hdelivered]
    exact ⟨(Function.update_of_ne hne ..).trans (h.unborn j hj').1, (h.unborn j hj').2⟩
  · obtain ⟨last, hlast⟩ := h.reads j
    by_cases hj : j = i
    · subst hj
      -- what the handler finds is what has come in
      have hcount := hlast.filled hi
      rw [hfilled] at hcount
      obtain ⟨block', rfl, hlength⟩ := Option.map_eq_some_iff.mp hcount.symm
      have hbytes := hlast.contents hi block' rfl
      rw [hlength, hcontents] at hbytes
      obtain rfl := Block.ext_bytes hbytes
      have hself : parsing? j (.complete j block) = some block := by
        show (if j = j then some _ else none).bind _ = _
        rw [if_pos rfl]
        rfl
      refine ⟨none, ?_, fun _ => Function.update_self .., fun _ => nofun⟩
      rw [hdelivered, parsedBy_concat, hself, hlast.delivered]
      exact (List.append_nil _).symm
    · have hother : parsing? j (.complete i block) = none := by
        show (if i = j then some _ else none).bind _ = none
        rw [if_neg (Ne.symm hj)]
        rfl
      have hparsed : parsedBy j (past ++ [.complete i block]) = parsedBy j past := by
        rw [parsedBy_concat, hother]
        exact List.append_nil _
      exact ⟨last, h.outstanding hhost hbenign hlast rfl (hdelivered j) hparsed
        (Function.update_of_ne hj ..) fun _ => rfl⟩

/-- No other event is seen by the parser. -/
theorem parsing?_of_other {e : HostEvent} (h : e.Other) (i : ℕ) : parsing? i (.host e) = none := by
  cases e with
  | accepted result allocated => rfl
  | gracefulShutdown order => rfl
  | connection j e =>
      show (if j = i then some (OwnEvent.loop e) else none).bind _ = none
      split
      · rcases e with (result | error | guard | _) | _ | _ | _
        · cases result with
          | ok block => exact h.elim
          | error error => rfl
        all_goals rfl
      · rfl

/-- A new vector is not where anything is that is in use. -/
theorem allocate_of_mem_live {e : HostEvent} {b : Address} (hpermits : m.host.Permits e)
    (hlive : b ∈ m.host.shop.live) : m.allocate e b = m.memory b := by
  cases e with
  | connection i e => rfl
  | gracefulShutdown order => rfl
  | accepted result allocated =>
      cases result with
      | error error => rfl
      | ok version =>
          cases allocated with
          | none => rfl
          | some new =>
              have hne : b ≠ new := by
                rintro rfl
                exact (hpermits.2 b rfl).2 hlive
              unfold allocate
              dsimp only
              split
              · exact Function.update_of_ne hne ..
              · rfl

theorem Buffered.host {e : HostEvent} (h : Buffered past m) (hpermits : m.Permits (.host e))
    (hbenign : m.Benign (.host e)) :
    Buffered (past ++ [.host e]) (m.step (.host e)) := by
  obtain ⟨hother, hhost⟩ := hpermits
  have hdelivered : ∀ j, delivered j (past ++ [.host e]) = delivered j past := fun j => by
    rw [delivered_concat]
    exact List.append_nil _
  have hparsed : ∀ j, parsedBy j (past ++ [.host e]) = parsedBy j past := fun j => by
    rw [parsedBy_concat, parsing?_of_other hother]
    exact List.append_nil _
  refine ⟨(h.owned.step hhost hbenign).1, fun j hj => ?_, fun j => ?_⟩
  · rw [hdelivered]
    exact h.unborn j ((h.owned.length_le_step hhost hbenign).trans hj)
  · obtain ⟨last, hlast⟩ := h.reads j
    exact ⟨last, h.outstanding hhost hbenign hlast rfl (hdelivered j) (hparsed j) rfl
      fun hj => allocate_of_mem_live hhost (h.owned.bufferOf_mem_live hj)⟩

theorem Buffered.step (h : Buffered past m) (hpermits : m.Permits e) (hbenign : m.Benign e) :
    Buffered (past ++ [e]) (m.step e) := by
  cases e with
  | fill i block => exact h.fill hpermits
  | complete i block => exact h.complete hpermits hbenign
  | host e => exact h.host hpermits hbenign

theorem buffered_opened (buffers : Buffers 128) (memory : Address → Str) :
    Buffered [] (opened buffers memory) :=
  ⟨Host.owned_opened buffers, fun _ _ => ⟨rfl, rfl⟩,
    fun _ => ⟨none, rfl, fun _ => rfl, fun _ => nofun⟩⟩

variable {buffers : Buffers 128} {memory : Address → Str}

theorem buffered_run (hrun : running.Run (opened buffers memory) past)
    (hbenign : running.Throughout Benign (opened buffers memory) past) :
    Buffered past (running.run (opened buffers memory) past) := by
  induction past using List.reverseRecOn with
  | nil => exact buffered_opened buffers memory
  | append_singleton past e ih =>
      obtain ⟨hpast, he, -⟩ := throughout_append.mp hrun
      obtain ⟨hbenignPast, hbenignLast, -⟩ := throughout_append.mp hbenign
      rw [run_append]
      exact (ih hpast hbenignPast).step he hbenignLast

/-! ## From the machine to the server -/

theorem seen_host (m : Machine) (events : List MachineEvent) :
    running.Throughout (running.Seen hosting Machine.host (·.host?)) m events :=
  throughout_of_forall fun e _ m => m.host_step e

end Machine

namespace Host

variable {s : Host} {events : List HostEvent} {buffers : Buffers 128}

theorem seen_server (hrun : hosting.Run (opened buffers) events)
    (hbenign : hosting.Throughout Benign (opened buffers) events) :
    hosting.Throughout (hosting.Seen serving Host.server (fun e => some e.forget))
      (opened buffers) events :=
  throughout_of_always (fun _ _ h hpermits hbenign => (h.step_server hpermits hbenign).1)
    (owned_always hrun hbenign) hrun hbenign

end Host

open Machine

/-- **Connections are isolated**: in every run of a server whose connections share the buffers of
the pool, each is a task that undergoes the events of its own, and of what has come in on its own
socket it parses every byte in order, the last read at most being left. -/
theorem isolated (buffers : Buffers 128) (memory : Address → Str) (events : List MachineEvent)
    (hrun : running.Run (opened buffers memory) events)
    (hbenign : running.Throughout Machine.Benign (opened buffers memory) events) (i : ℕ) :
    (∃ last : Option Block, delivered i events = parsedBy i events ++ last.toList) ∧
      ∀ t, (running.run (opened buffers memory) events).host.server.tasks[i]? = some t →
        ∃ major minor, t = (own i events).foldl Task.undergo (.started major minor) := by
  obtain ⟨last, hlast⟩ := (buffered_run hrun hbenign).reads i
  refine ⟨⟨last, hlast.delivered⟩, fun t ht => ?_⟩
  have hhost := seen_host (opened buffers memory) events
  have hhostRun : hosting.Run (Host.opened buffers) (events.filterMap (·.host?)) :=
    Seen.throughout (f := Machine.host) hhost (Throughout.imp (fun _ _ => permits_host) hrun)
  have hhostBenign : hosting.Throughout Host.Benign (Host.opened buffers)
      (events.filterMap (·.host?)) :=
    Seen.throughout (f := Machine.host) hhost (Throughout.imp (fun _ _ => benign_host) hbenign)
  have hserver := Host.seen_server hhostRun hhostBenign
  have hserverRun : serving.Run {} ((events.filterMap (·.host?)).filterMap
      fun e => some e.forget) :=
    Seen.throughout (f := Host.server) hserver (Throughout.imp (fun s e hpermits e' he' => by
      obtain rfl := Option.some_inj.mp he'
      exact hpermits.1) hhostRun)
  have hserverOf : (running.run (opened buffers memory) events).host.server = serving.run {}
      ((events.filterMap (·.host?)).filterMap fun e => some e.forget) :=
    (congrArg Host.server (Seen.run hhost)).trans (Seen.run hserver)
  rw [hserverOf] at ht
  have hundergone := (Server.undergone_run hserverRun).tasks i t ht
  rwa [List.filterMap_eq_map'] at hundergone

/-- The beginning of a request. -/
def beginning : Block := ⟨ascii "GET /", by decide, by decide⟩

/-- What is no request. -/
def nonsense : Block := ⟨ascii "\x00\x00", by decide, by decide⟩

/-- Two connections whose reads are done in one order and handled in the other. -/
def interleaved : List MachineEvent :=
  [.host (.accepted (.ok (0, 0)) none), .host (.accepted (.ok (0, 0)) none),
    .fill 0 beginning, .fill 1 nonsense, .complete 1 nonsense, .complete 0 beginning]

theorem run_interleaved : running.Run (opened .low fun _ => []) interleaved := by
  refine ⟨⟨trivial, rfl, nofun⟩, ⟨trivial, rfl, nofun⟩, ⟨rfl, _, rfl, ?_, rfl⟩,
    ⟨rfl, _, rfl, ?_, rfl⟩, ⟨rfl, ?_, ⟨_, rfl, ⟨?_, nofun⟩, trivial⟩, trivial⟩,
    ⟨rfl, ?_, ⟨_, rfl, ⟨?_, nofun⟩, trivial⟩, trivial⟩, trivial⟩
  all_goals decide +kernel

theorem benign_interleaved :
    running.Throughout Machine.Benign (opened .low fun _ => []) interleaved := by
  refine ⟨⟨trivial, nofun⟩, ⟨trivial, nofun⟩, trivial, trivial, ⟨?_, trivial⟩, ⟨?_, trivial⟩,
    trivial⟩
  · rintro t ⟨rfl⟩ hclosed
    cases hclosed
  · rintro t ⟨rfl⟩ hclosed
    cases hclosed

theorem isolated_interleaved :
    (∃ last : Option Block,
        delivered 0 interleaved = parsedBy 0 interleaved ++ last.toList) ∧
      delivered 0 interleaved = [beginning] ∧ parsedBy 0 interleaved = [beginning] :=
  ⟨(isolated .low (fun _ => []) interleaved run_interleaved benign_interleaved 0).1, rfl, rfl⟩

end GinCpp.Core
