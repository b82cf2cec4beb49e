import GinCpp.Checked.Basic
import GinCpp.Middleware.RequestId

/-!
# Sessions

`middleware/session.cpp`.  The id of a session is a cookie of the request or a new one.  The
middleware hands it down in a header that it puts behind those of the client, and `getHeader` looks
for the first one: `seesSession_iff`.
-/

namespace GinCpp.Middleware

open Callback Http

/-! ## Cookies -/

/-- `std::unordered_map<std::string, std::string>`. -/
abbrev Cookies := Str → Option Str

/-- The bytes that are trimmed from the front of a key. -/
def cookieBlank (c : UInt8) : Bool := (ascii " \t\n\x0d\x0c\x0b").contains c

/-- `find_first_not_of`, `none` for `npos`. -/
def findFirstNotOf (p : UInt8 → Bool) (text : Str) : Option ℕ := text.findIdx? (!p ·)

/-- `erase(0, count)`; all of the text is erased for `npos`. -/
def eraseFront (text : Str) : Option ℕ → Str
  | some count => text.drop count
  | none => []

/-- What the loop body does with the text of one pair. -/
def readPair (cookies : Cookies) (pair : Str) : Cookies :=
  match Checked.find pair '='.toUInt8 with
  | none => cookies
  | some eq =>
      let key := pair.take eq
      let value := pair.drop (eq + 1)
      Function.update cookies (eraseFront key (findFirstNotOf cookieBlank key)) (some value)

/-- The loop of `parse_cookies`, from `pos` on.  Each turn moves `pos` on, so `fuel` need not be
more than what is left of the text. -/
def cookieLoop (cookieHeader : Str) : ℕ → ℕ → Cookies → Cookies
  | 0, _, cookies => cookies
  | fuel + 1, pos, cookies =>
      if pos < cookieHeader.length then
        let stop := match Checked.find (cookieHeader.drop pos) ';'.toUInt8 with
          | some i => pos + i
          | none => cookieHeader.length
        let pair := (cookieHeader.drop pos).take (stop - pos)
        cookieLoop cookieHeader fuel (stop + 1) (readPair cookies pair)
      else cookies

/-- `parse_cookies`. -/
def parseCookies (cookieHeader : Str) : Cookies :=
  cookieLoop cookieHeader cookieHeader.length 0 fun _ => none

example : parseCookies (ascii "theme=dark; session_id=a=b") (ascii "session_id") =
    some (ascii "a=b") := by decide +kernel

/-! ## The middleware -/

variable {κ E : Type}

/-- The session cookie of a request, in its first header named `Cookie`. -/
def sessionCookie (request : Request) : Option Str :=
  parseCookies (request.getHeader (ascii "Cookie")) (ascii "session_id")

/-- The value of `session_id`. -/
def sessionId (draws : RequestIdGenerator.Draws) (request : Request) : Str :=
  (sessionCookie request).getD (RequestIdGenerator.generate draws)

/-- The header that sets the cookie. -/
def setCookie (sessionId : Str) : Header :=
  ⟨ascii "Set-Cookie", ascii "session_id=" ++ sessionId ++ ascii "; HttpOnly; Secure"⟩

/-- The part of the handler in front of `next`. -/
def establish (random : Exchange E → RequestIdGenerator.Draws) (s : Exchange E) : Exchange E :=
  let id := sessionId (random s) s.request
  { s with
    request := { s.request with headers := s.request.headers ++ [⟨ascii "X-Session-ID", id⟩] }
    response :=
      match sessionCookie s.request with
      | some _ => s.response
      | none => { s.response with headers := s.response.headers ++ [setCookie id] } }

/-- `create_session_middleware`; its store is not used.  `random` is the source of the draws. -/
def createSessionMiddleware (random : Exchange E → RequestIdGenerator.Draws) :
    Middleware (Exchange E) Exception where
  handler := .act (establish random) fun _ => .passOn

/-- The session id that was established between two states: the cookie of the request, or the one
that the response sets. -/
def Establishes (s s' : Exchange E) (id : Str) : Prop :=
  match sessionCookie s.request with
  | some cookie => id = cookie
  | none => s'.response.headers = s.response.headers ++ [setCookie id]

/-- **What is seen downstream is the session's**: in every state in which `next` is called. -/
def SeesSession (random : Exchange E → RequestIdGenerator.Draws)
    (next : Callee κ (Exchange E) Exception) (c : κ) (s : Exchange E) : Prop :=
  ∀ call ∈ (createSessionMiddleware random).handler.arguments next c s,
    Establishes s call.2 (call.2.request.getHeader (ascii "X-Session-ID"))

/-! ## What is seen downstream -/

variable {random : Exchange E → RequestIdGenerator.Draws}

theorem arguments_session (random : Exchange E → RequestIdGenerator.Draws)
    (next : Callee κ (Exchange E) Exception) (c : κ) (s : Exchange E) :
    (createSessionMiddleware random).handler.arguments next c s = [(c, establish random s)] := by
  have hcall : (createSessionMiddleware random).handler.arguments next c s =
      Program.passOn.arguments next c (establish random s) := rfl
  rw [hcall, Program.passOn, Program.arguments]
  cases (next c (establish random s)).2.2 <;> rfl

theorem setCookie_injective : Function.Injective setCookie := by
  intro id id' h
  have hvalue : ascii "session_id=" ++ id ++ ascii "; HttpOnly; Secure" =
      ascii "session_id=" ++ id' ++ ascii "; HttpOnly; Secure" := congrArg Header.value h
  exact List.append_cancel_left (List.append_cancel_right hvalue)

/-- The id is the one the middleware puts in the header. -/
theorem establishes_iff {s : Exchange E} {id : Str} :
    Establishes s (establish random s) id ↔ id = sessionId (random s) s.request := by
  unfold Establishes establish sessionId
  dsimp only
  cases sessionCookie s.request with
  | some cookie => exact Iff.rfl
  | none =>
      dsimp only [Option.getD_none]
      rw [List.append_cancel_left_eq, List.cons.injEq, setCookie_injective.eq_iff,
        and_iff_left rfl, eq_comm]

/-- A header behind the others is found if there is none of its name before it. -/
theorem getHeader_append (req : Request) (header : Header) :
    ({ req with headers := req.headers ++ [header] } : Request).getHeader header.name =
      ((req.headers.find? (·.name == header.name)).getD header).value := by
  unfold Request.getHeader
  dsimp only
  rw [List.find?_append]
  cases req.headers.find? (·.name == header.name) with
  | some first => rfl
  | none => simp

/-- **When the session id seen downstream is the session's**: if and only if the client sent no
header `X-Session-ID`, or the value of its first one happens to be that id. -/
theorem seesSession_iff (random : Exchange E → RequestIdGenerator.Draws)
    (next : Callee κ (Exchange E) Exception) (c : κ) (s : Exchange E) :
    SeesSession random next c s ↔
      ∀ header, s.request.headers.find? (·.name == ascii "X-Session-ID") = some header →
        header.value = sessionId (random s) s.request := by
  have hseen : (establish random s).request.getHeader (ascii "X-Session-ID") =
      ((s.request.headers.find? (·.name == ascii "X-Session-ID")).getD
        ⟨ascii "X-Session-ID", sessionId (random s) s.request⟩).value :=
    getHeader_append s.request ⟨ascii "X-Session-ID", _⟩
  unfold SeesSession
  rw [arguments_session, List.forall_mem_singleton, establishes_iff, hseen]
  cases s.request.headers.find? (·.name == ascii "X-Session-ID") with
  | none => simp
  | some header => simp

/-- A client with a session cookie that names another session in a header of its own. -/
def forgedRequest : Request :=
  { Request.empty 1 1 with
    headers := [⟨ascii "Cookie", ascii "session_id=mine"⟩, ⟨ascii "X-Session-ID", ascii "yours"⟩] }

/-- The other session is seen. -/
theorem not_seesSession_forged :
    ¬ SeesSession (fun _ => ⟨fun _ => 0, 0⟩) (fun (c : Unit) s => (c, s, none)) ()
      (⟨forgedRequest, ⟨.ok, [], []⟩, ()⟩ : Exchange Unit) := by
  intro hsees
  have hcall := hsees _ (by rw [arguments_session]; exact List.mem_singleton_self _)
  rw [establishes_iff] at hcall
  revert hcall
  decide +kernel

end GinCpp.Middleware
