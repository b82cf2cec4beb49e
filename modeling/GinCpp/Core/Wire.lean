import GinCpp.Core.Revival
import GinCpp.Http.ResponseReading

/-!
# What is on the wire

A connection answers with stock responses only, and these say how long they are.  A peer that takes
the bytes it gets apart by `Content-Length` therefore finds the responses as the connection decided
on them, one for one: none is split, merged or lost between them (`readResponses_wire`).
-/

namespace GinCpp.Core

open Http Scanner

namespace Connection

variable (c : Connection)

/-- The responses handed to `async_write`. -/
def written : List Response :=
  c.calls.filterMap fun
    | .asyncWrite response => some response
    | _ => none

/-- Their bytes, one after another. -/
def wire : Str := c.written.flatMap Response.bytes

@[simp] theorem written_shutdown : c.shutdown.written = c.written := by
  unfold shutdown
  dsimp only
  split <;> simp [written, call, transitionState]

@[simp] theorem written_managerStop : c.managerStop.written = c.written := by
  rw [managerStop, written_shutdown]
  simp [written, call]

@[simp] theorem written_doRead : c.doRead.written = c.written := by
  simp [written, doRead, startReadTimer, call, transitionState]

@[simp] theorem written_doWrite : c.doWrite.written = c.written ++ [c.response] := by
  simp [written, doWrite, startWriteTimer, call, transitionState]

theorem written_onWrite (error : Option IoError) : (c.onWrite error).written = c.written := by
  unfold onWrite
  dsimp only
  split
  · split
    · rw [written_doRead]
      simp [written, startIdleTimer, call, transitionState]
    · rw [written_managerStop]
      simp [written, call]
  · rw [written_managerStop]
    simp [written, call]

/-- Only stock responses are written. -/
def Stock : Prop := c.written = c.responses.map .stockResponse

variable {c}

/-- A handler writes nothing, or one stock response. -/
theorem stock_onRead (h : c.Stock) (error : Option IoError) (data : Str) :
    (c.onRead error data).Stock := by
  -- what is written next is put into `response_` just before
  have hwrite : ∀ (c' : Connection) (status : StatusCode), c'.written = c.written →
      c'.responses = c.responses →
      (doWrite { c' with response := .stockResponse status }).Stock := by
    intro c' status hwritten hresponses
    unfold Stock
    rw [written_doWrite, responses_doWrite, List.map_append]
    show c'.written ++ [.stockResponse status] = c'.responses.map _ ++ [.stockResponse status]
    rw [hwritten, hresponses, h]
  have hcall : (c.call .cancelTimer).written = c.written ∧
      (c.call .cancelTimer).responses = c.responses := by
    simp [written, responses, call]
  unfold onRead
  dsimp only
  split
  · split
    · exact hwrite _ _ hcall.1 hcall.2
    · unfold Stock
      rw [written_doRead, responses_doRead]
      show (c.call .cancelTimer).written = (c.call .cancelTimer).responses.map _
      rw [hcall.1, hcall.2, h]
  · unfold Stock
    rw [hcall.1, hcall.2, h]
  · unfold Stock
    rw [written_managerStop, responses_managerStop]
    exact hwrite _ _ hcall.1 hcall.2

/-- **Every handler** keeps to stock responses. -/
theorem Stock.handle (h : c.Stock) (e : Event) : (c.handle e).Stock := by
  cases e with
  | readDone result =>
      cases result with
      | ok b => exact stock_onRead h none b.bytes
      | error error => exact stock_onRead h (some error) []
  | writeDone error =>
      show (c.onWrite error).written = (c.onWrite error).responses.map _
      rw [written_onWrite, responses_onWrite, h]
  | timerExpired guard =>
      show (c.onTimer guard).written = (c.onTimer guard).responses.map _
      unfold onTimer
      split
      · rw [written_managerStop, written_shutdown, responses_managerStop, responses_shutdown, h]
      · exact h
  | stop =>
      show c.shutdown.written = c.shutdown.responses.map _
      rw [written_shutdown, responses_shutdown, h]

theorem Stock.deliver (h : c.Stock) (bs : List Block) : (c.deliver bs).Stock := by
  induction bs generalizing c with
  | nil => exact h
  | cons b bs ih =>
      apply ih
      unfold receive
      dsimp only
      split
      · split
        · exact (h.handle (.readDone (.ok b))).handle (.writeDone none)
        · exact h.handle (.readDone (.ok b))
      · exact h

/-- The bytes of stock responses are read back. -/
theorem Stock.readResponses_wire (h : c.Stock) :
    readResponses c.wire = some (c.responses.map .stockResponse) := by
  unfold wire
  rw [h]
  apply readResponses_bytes
  intro response hresponse
  obtain ⟨status, -, rfl⟩ := List.mem_map.mp hresponse
  exact Response.framed_stockResponse status

end Connection

open Connection

/-- **What goes in comes out.**  The peer of a new connection that sends some blocks, and reads the
responses that become due, takes the bytes it gets apart into the replies of the session. -/
theorem readResponses_wire_deliver (major minor : Int) (bs : List Block) :
    readResponses ((fresh major minor).deliver bs).wire =
      some ((Session.replies (some ({}, .empty major minor)) bs).map .stockResponse) := by
  have hstart : (fresh major minor).Stock := rfl
  rw [(hstart.deliver bs).readResponses_wire,
    (deliver_spec bs (fresh_atRest major minor)).2.2, fresh_session]
  rfl

end GinCpp.Core
