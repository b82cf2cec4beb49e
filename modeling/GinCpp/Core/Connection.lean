import GinCpp.Http.Parser

/-!
# A connection

`core/connection.h` and `core/connection.tpp`.  The connection does nothing itself: each member
updates its fields and calls the socket, the timer, the buffer pool or the connection manager.
The calls are kept in order in `calls`; what happens to them is up to the event loop, which
answers by running the completion handlers `onRead`, `onWrite` and `onTimer`.

The request keeps the numbers of its version as they are written, and the decisions read them as
`int`s.  With fields of `int` the connection does the same: `onReadInt_asInts`.
-/

namespace GinCpp.Core

open Http

/-- `core::ConnState`. -/
inductive ConnState
  | idle | reading | writing | closed
  deriving DecidableEq, Repr

/-- The error code of a completed operation; success is `none` where one is expected. -/
inductive IoError
  | operationAborted | other
  deriving DecidableEq, Repr

/-- A call made on a member or on the manager.  `armTimer ms guard` is `expires_after` and
`async_wait`; the handler of that wait acts only in the state `guard`. -/
inductive Call
  | asyncReadSome
  | asyncWrite (response : Response)
  | shutdownSocket
  | closeSocket
  | cancelTimer
  | armTimer (ms : ℕ) (guard : ConnState)
  | releaseBuffer
  | eraseFromManager
  deriving DecidableEq, Repr

/-- The size of the buffers in `buffer_pool_`. -/
def bufferSize : ℕ := 8192

/-- What one read delivers: at least one byte, at most a buffer. -/
structure Block where
  bytes : Str
  ne_nil : bytes ≠ []
  fits : bytes.length ≤ bufferSize

/-- `core::Connection`. -/
structure Connection where
  /-- Whether `buffer_` holds a buffer. -/
  buffer : Bool
  request : Request
  response : Response
  parser : Parser := {}
  keepAlive : Bool := false
  idleTimeoutMs : ℕ := 60000
  readTimeoutMs : ℕ := 30000
  writeTimeoutMs : ℕ := 30000
  state : ConnState := .idle
  calls : List Call := []
  deriving DecidableEq, Repr

namespace Connection

/-- The constructor.  `major` and `minor` are what the memory of the version fields held; the
status of `response_`, equally undefined, is assigned before it is ever read. -/
def construct (major minor : Int) : Connection :=
  { buffer := true, request := .empty major minor, response := { status := .ok } }

variable (c : Connection)

def call (op : Call) : Connection := { c with calls := c.calls ++ [op] }

def transitionState (state : ConnState) : Connection := { c with state }

/-! ## Timers and shutdown -/

def startIdleTimer : Connection := c.call (.armTimer c.idleTimeoutMs .idle)

def startReadTimer : Connection := c.call (.armTimer c.readTimeoutMs .reading)

def startWriteTimer : Connection := c.call (.armTimer c.writeTimeoutMs .writing)

def shutdown : Connection :=
  let c := ((c.transitionState .closed).call .cancelTimer).call .closeSocket
  if c.buffer then { c.call .releaseBuffer with buffer := false } else c

/-- `ConnectionManager::stop`: the connection leaves the set and is stopped. -/
def managerStop : Connection := (c.call .eraseFromManager).shutdown

/-! ## Reading and writing -/

/-- `do_read`, up to its completion handler. -/
def doRead : Connection := (c.transitionState .reading).startReadTimer.call .asyncReadSome

/-- `do_write`, up to its completion handler. -/
def doWrite : Connection :=
  (c.transitionState .writing).startWriteTimer.call (.asyncWrite c.response)

def start : Connection := (c.transitionState .reading).doRead

end Connection

/-- The keep-alive decision: the first header named `Connection` if there is one, else the
version, as the `int` fields hold it. -/
def keepAliveFor (req : Request) : Bool :=
  match req.headers.find? (·.name == ascii "Connection") with
  | some header => decide (ascii "keep-alive" <:+: header.value.map tolower)
  | none => asInt req.httpVersionMajor == 1 && asInt req.httpVersionMinor == 1

/-- The checks made on a request the parser accepted. -/
def compliant (req : Request) : Bool :=
  let version := asInt req.httpVersionMajor == 1 &&
    (asInt req.httpVersionMinor == 1 || asInt req.httpVersionMinor == 0)
  let line := !req.method.isEmpty && !req.uri.isEmpty
  let host := !(asInt req.httpVersionMajor == 1 && asInt req.httpVersionMinor == 1) ||
    (req.headers.find? (·.name == ascii "Host")).isSome
  version && line && host

/-- The status of the response to a parse result, if there is one. -/
def statusFor (req : Request) : ParseResult → Option StatusCode
  | .good => some (if compliant req then .ok else .badRequest)
  | .bad => some .badRequest
  | .indeterminate => none

namespace Connection

variable (c : Connection)

/-- The completion handler of `do_read`, `data` being the bytes transferred. -/
def onRead (error : Option IoError) (data : Str) : Connection :=
  let c := c.call .cancelTimer
  match error with
  | none =>
      let (parser, request, result) := c.parser.parse c.request data
      let c := { c with parser, request, keepAlive := keepAliveFor request }
      match statusFor request result with
      | some status => doWrite { c with response := .stockResponse status }
      | none => c.doRead
  | some .operationAborted => c
  | some .other =>
      (doWrite { c with response := .stockResponse .internalServerError }).managerStop

/-- The completion handler of `do_write`. -/
def onWrite (error : Option IoError) : Connection :=
  let c := c.call .cancelTimer
  match error with
  | none =>
      if c.keepAlive then (c.transitionState .idle).startIdleTimer.doRead
      else (c.call .shutdownSocket).managerStop
  | some _ => c.managerStop

/-- The handler of a timer wait that expired. -/
def onTimer (guard : ConnState) : Connection :=
  if c.state = guard then c.shutdown.managerStop else c

/-- The statuses of the responses written so far. -/
def responses : List StatusCode :=
  c.calls.filterMap fun
    | .asyncWrite response => some response.status
    | _ => none

/-! ## On `int` fields -/

/-- The completion handler of `do_read` where the version fields are `int`s. -/
def onReadInt (error : Option IoError) (data : Str) : Connection :=
  let c := c.call .cancelTimer
  match error with
  | none =>
      let (parser, request, result) := c.parser.parseInt c.request data
      let c := { c with parser, request, keepAlive := keepAliveFor request }
      match statusFor request result with
      | some status => doWrite { c with response := .stockResponse status }
      | none => c.doRead
  | some .operationAborted => c
  | some .other =>
      (doWrite { c with response := .stockResponse .internalServerError }).managerStop

/-- The connection with the version that the `int` fields hold. -/
def asInts : Connection := { c with request := c.request.asInts }

end Connection

theorem keepAliveFor_asInts (req : Request) : keepAliveFor req.asInts = keepAliveFor req := by
  simp only [keepAliveFor, Request.asInts, asInt_asInt]

theorem compliant_asInts (req : Request) : compliant req.asInts = compliant req := by
  simp only [compliant, Request.asInts, asInt_asInt]

theorem statusFor_asInts (req : Request) (result : ParseResult) :
    statusFor req.asInts result = statusFor req result := by
  cases result with
  | good => rw [statusFor, statusFor, compliant_asInts]
  | bad => rfl
  | indeterminate => rfl

namespace Connection

theorem asInts_shutdown (c : Connection) : c.asInts.shutdown = c.shutdown.asInts := by
  obtain ⟨buffer⟩ := c
  cases buffer with
  | true => rfl
  | false => rfl

/-- **The exact numbers are what the `int` fields of the source wrap**: a read does the same to a
connection with these. -/
theorem onReadInt_asInts (c : Connection) (error : Option IoError) (data : Str) :
    c.asInts.onReadInt error data = (c.onRead error data).asInts := by
  cases error with
  | none =>
      have hparse := Parser.parseInt_asInts c.parser c.request data
      unfold onReadInt onRead
      dsimp only [call, asInts]
      rw [hparse]
      dsimp only
      rw [keepAliveFor_asInts, statusFor_asInts]
      split
      · rfl
      · rfl
  | some error =>
      cases error with
      | operationAborted => rfl
      | other =>
          let failed := { c.call .cancelTimer with response := .stockResponse .internalServerError }
          exact asInts_shutdown (failed.doWrite.call .eraseFromManager)

variable (c : Connection)

/-! ## What the members change -/

@[simp] theorem shutdown_state : c.shutdown.state = .closed := by
  unfold shutdown
  dsimp only
  split <;> rfl

@[simp] theorem managerStop_state : c.managerStop.state = .closed := shutdown_state _

@[simp] theorem responses_shutdown : c.shutdown.responses = c.responses := by
  unfold shutdown
  dsimp only
  split <;> simp [responses, call, transitionState]

@[simp] theorem responses_managerStop : c.managerStop.responses = c.responses := by
  rw [managerStop, responses_shutdown]
  simp [responses, call]

@[simp] theorem responses_doRead : c.doRead.responses = c.responses := by
  simp [responses, doRead, startReadTimer, call, transitionState]

@[simp] theorem responses_doWrite : c.doWrite.responses = c.responses ++ [c.response.status] := by
  simp [responses, doWrite, startWriteTimer, call, transitionState]

theorem responses_onWrite (error : Option IoError) : (c.onWrite error).responses = c.responses := by
  unfold onWrite
  dsimp only
  split
  · split
    · rw [responses_doRead]
      simp [responses, startIdleTimer, call, transitionState]
    · rw [responses_managerStop]
      simp [responses, call]
  · rw [responses_managerStop]
    simp [responses, call]

end Connection

end GinCpp.Core
