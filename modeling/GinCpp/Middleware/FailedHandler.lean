import GinCpp.Middleware.ErrorHandler

/-!
# What a failed handler leaves behind

The error handler renders an error into the response that the handlers were working on.  The status
and the content are replaced, the header of the rendered body is put behind those that are there:
`leavesNoTrace_iff`.
-/

namespace GinCpp.Middleware

open Callback Http

variable {κ E : Type}

/-- What `next` does to the response, and to what it captures, before it throws. -/
abbrev Effect (κ E : Type) := κ → Exchange E → κ × Response × E

/-- A continuation that changes the response and then throws. -/
def aborting (effect : Effect κ E) (e : Exception) : Callee κ (Exchange E) Exception := fun c s =>
  let (c, response, captured) := effect c s
  (c, { s with response, captured }, some e)

/-- Nothing is changed. -/
def untouched : Effect κ E := fun c s => (c, s.response, s.captured)

/-- The response behind the error handler. -/
def errorResponse (effect : Effect κ E) (e : Exception) (c : κ) (s : Exchange E) : Response :=
  (createErrorHandler.handler.run (aborting effect e) c s).state.response

/-- A body and the type it is rendered with. -/
inductive RenderedAs (message : Str) : (contentType content : Str) → Prop
  | html : RenderedAs message (ascii "text/html")
      (ascii "<html><head><title>Error</title></head><body><h1>500</h1><p>" ++ message ++
        ascii "</p></body></html>")
  | json : RenderedAs message (ascii "application/json")
      (ascii "\x7b\"status\": 500, \"error\": \"" ++ message ++ ascii "\"\x7d")
  | text : RenderedAs message (ascii "text/plain") (ascii "500 " ++ message)

/-- **A failed handler leaves no trace**: the response is the one of a handler that fails at once,
and an empty response gets one header, the type of the rendered body. -/
structure LeavesNoTrace (effect : Effect κ E) (e : Exception) (c : κ) (s : Exchange E) : Prop where
  response : errorResponse effect e c s = errorResponse untouched e c s
  headers : s.response.headers = [] → ∃ contentType,
    (errorResponse effect e c s).headers = [⟨ascii "Content-Type", contentType⟩] ∧
      RenderedAs e.message contentType (errorResponse effect e c s).content

variable {effect : Effect κ E} {e : Exception} {c : κ} {s : Exchange E}

theorem errorResponse_eq (effect : Effect κ E) (e : Exception) (c : κ) (s : Exchange E) :
    errorResponse effect e c s = ErrorRenderer.render (effect c s).2.1 .internalServerError
      e.message (s.request.getHeader (ascii "Accept")) := rfl

/-- What is rendered does not depend on the response, but its headers stay in front. -/
theorem exists_render (message accept : Str) : ∃ contentType content,
    RenderedAs message contentType content ∧ ∀ response,
      ErrorRenderer.render response .internalServerError message accept =
        ErrorRenderer.rendered response .internalServerError contentType content := by
  have hcode : Http.toString StatusCode.internalServerError.code = ascii "500" := by decide
  unfold ErrorRenderer.render
  split_ifs with hjson hhtml
  · refine ⟨_, _, .json, fun response => ?_⟩
    rw [ErrorRenderer.renderJson, hcode]
    rfl
  · refine ⟨_, _, .html, fun response => ?_⟩
    rw [ErrorRenderer.renderHtml, hcode]
    rfl
  · refine ⟨_, _, .text, fun response => ?_⟩
    rw [ErrorRenderer.renderText, hcode]
    rfl

/-- **When a failed handler leaves no trace**: if and only if it has left the headers of the
response as they were.  The status and the content are replaced whatever they are. -/
theorem leavesNoTrace_iff (effect : Effect κ E) (e : Exception) (c : κ) (s : Exchange E) :
    LeavesNoTrace effect e c s ↔ (effect c s).2.1.headers = s.response.headers := by
  obtain ⟨contentType, content, hrendered, hrender⟩ :=
    exists_render e.message (s.request.getHeader (ascii "Accept"))
  have hresponse : ∀ effect : Effect κ E, errorResponse effect e c s =
      ErrorRenderer.rendered (effect c s).2.1 .internalServerError contentType content :=
    fun effect => (errorResponse_eq effect e c s).trans (hrender _)
  constructor
  · intro h
    have hheaders := congrArg Response.headers h.response
    rw [hresponse, hresponse] at hheaders
    exact List.append_cancel_right hheaders
  · intro hheaders
    have hsame : errorResponse effect e c s = errorResponse untouched e c s := by
      rw [hresponse, hresponse, ErrorRenderer.rendered, hheaders]
      rfl
    refine ⟨hsame, fun hempty => ⟨contentType, ?_, ?_⟩⟩
    · rw [hresponse, ErrorRenderer.rendered, hheaders, hempty]
      rfl
    · rw [hresponse]
      exact hrendered

/-- A handler that has described the file it is about to send. -/
def describing : Effect Unit Unit := fun c s =>
  (c, ⟨.ok, [⟨ascii "Content-Type", ascii "image/png"⟩, ⟨ascii "Content-Length", ascii "9"⟩], []⟩,
    s.captured)

/-- The error is announced as an image of nine bytes. -/
theorem not_leavesNoTrace_describing :
    ¬ LeavesNoTrace describing (.std (ascii "No such file")) ()
      ⟨.empty 1 1, ⟨.ok, [], []⟩, ()⟩ := by
  intro h
  have hlength := congrArg (fun response : Response => response.headers.length) h.response
  revert hlength
  decide +kernel

end GinCpp.Middleware
