import GinCpp.Middleware.CookieParsing
import GinCpp.Transition.Basic

/-!
# Sessions over many exchanges

The session middleware remembers nothing; its memory is the cookies that the clients keep and send
back.  Any number of clients take turns in any order.  Each keeps what it is told to, whatever else
the handlers tell it, and sends some of it back, the session cookie among it: so it has one session
from its first turn on, which it is told once (`continuity`).
-/

namespace GinCpp.Middleware

open Assignment Callback CookieParsing Http Transition

variable {ι κ E : Type}

/-! ## Clients -/

/-- A header as a client reads it: the cookie in front of the attributes. -/
def setCookieOf (header : Header) : Option (Str × Str) :=
  if header.name = ascii "Set-Cookie" then cookieOf (name SEPARATOR header.value) else none

/-- The cookies that a response sets. -/
def cookiesSet (response : Response) : List (Str × Str) := response.headers.filterMap setCookieOf

def SESSION : Str := ascii "session_id"

/-- The session cookies among them. -/
def sessionsSet (response : Response) : List (Str × Str) :=
  (cookiesSet response).filter (·.1 = SESSION)

/-- A turn of a client: the exchange as the middleware gets it. -/
structure Turn (ι κ E : Type) where
  client : ι
  cookies : List (Str × Str)
  control : κ
  before : Exchange E

/-- The response to it. -/
def Turn.response (random : Exchange E → RequestIdGenerator.Draws)
    (next : Callee κ (Exchange E) Exception) (turn : Turn ι κ E) : Response :=
  ((createSessionMiddleware random).handler.run next turn.control turn.before).state.response

/-- A turn of a client that sends back what it has kept, and at any rate its session. -/
structure Turn.Faithful (kept : ι → Cookies) (turn : Turn ι κ E) : Prop where
  header : turn.before.request.getHeader (ascii "Cookie") = headerOf turn.cookies
  nodup : (turn.cookies.map Prod.fst).Nodup
  of_kept : ∀ cookie ∈ turn.cookies, kept turn.client cookie.1 = some cookie.2
  session : ∀ id, kept turn.client SESSION = some id → (SESSION, id) ∈ turn.cookies
  unnamed : ∀ header ∈ turn.before.request.headers, header.name ≠ ascii "X-Session-ID"
  unset : sessionsSet turn.before.response = []

/-- The clients with what they have kept. -/
def conversation (ι : Type) [DecidableEq ι] (random : Exchange E → RequestIdGenerator.Draws)
    (next : Callee κ (Exchange E) Exception) : System (ι → Cookies) (Turn ι κ E) where
  Permits kept turn := turn.Faithful kept
  step kept turn := Function.update kept turn.client
    (assignAll (kept turn.client) (cookiesSet (turn.response random next)))

/-- The session that a client has after some turns: the id drawn in its first one. -/
def established [DecidableEq ι] (random : Exchange E → RequestIdGenerator.Draws)
    (turns : List (Turn ι κ E)) (client : ι) : Option Str :=
  (turns.find? (·.client = client)).map fun turn => RequestIdGenerator.generate (random turn.before)

/-! ## Cookies that are set -/

section Set

variable {cookie : Str × Str} {piece : Str} {kept : Cookies} {response : Response}

/-- What is read can be written. -/
theorem wellFormed_of_cookieOf (hpiece : SEPARATOR ∉ piece) (h : cookieOf piece = some cookie) :
    WellFormed cookie := by
  unfold cookieOf at h
  split_ifs at h with hassign
  obtain rfl := Option.some_inj.mp h
  obtain ⟨before, after, rfl, hbefore⟩ := List.eq_append_cons_of_mem hassign
  rw [name_append_cons hbefore, value_append_cons hbefore]
  have hmem : ∀ c ∈ before.dropWhile cookieBlank, c ∈ before :=
    fun c hc => (List.dropWhile_sublist _).mem hc
  rw [List.mem_append, List.mem_cons, not_or] at hpiece
  refine ⟨fun hc => hbefore (hmem _ hc), fun hc => hpiece.1 (hmem _ hc), fun c hc => ?_,
    fun hc => hpiece.2 (.inr hc)⟩
  have hhead := List.head?_dropWhile_not cookieBlank before
  rw [Option.mem_def.mp hc] at hhead
  exact hhead

theorem wellFormed_of_setCookieOf {header : Header} (h : setCookieOf header = some cookie) :
    WellFormed cookie := by
  unfold setCookieOf at h
  split_ifs at h
  exact wellFormed_of_cookieOf (fun hc => by simpa using List.mem_takeWhile_imp hc) h

/-- A client can send what it has been told to keep. -/
theorem wellFormed_assignAll (h : ∀ n v, kept n = some v → WellFormed (n, v)) {n v : Str}
    (hkept : assignAll kept (cookiesSet response) n = some v) : WellFormed (n, v) := by
  rcases mem_of_assignAll hkept with hold | hmem
  · exact h n v hold
  · obtain ⟨header, -, hset⟩ := List.mem_filterMap.mp hmem
    exact wellFormed_of_setCookieOf hset

/-- What holds of the digits and of the dash holds of every byte of an id. -/
theorem forall_mem_generate {P : UInt8 → Prop} (hdigit : ∀ n, P (RequestIdGenerator.hexDigit n))
    (hdash : P '-'.toUInt8) (draws : RequestIdGenerator.Draws) :
    ∀ c ∈ RequestIdGenerator.generate draws, P c := by
  have hdigits : ∀ first count, ∀ c ∈ RequestIdGenerator.hexDigits draws first count, P c := by
    intro first count c hc
    obtain ⟨i, -, rfl⟩ := List.mem_map.mp hc
    exact hdigit _
  have hdash' : ∀ c ∈ ascii "-", P c := List.forall_mem_singleton.mpr hdash
  have hversion : ∀ c ∈ ascii "-4", P c :=
    List.forall_mem_cons.mpr ⟨hdash, List.forall_mem_singleton.mpr (hdigit 4)⟩
  simp only [RequestIdGenerator.generate, List.forall_mem_append, List.forall_mem_singleton]
  exact ⟨⟨⟨⟨⟨⟨⟨⟨⟨hdigits _ _, hdash'⟩, hdigits _ _⟩, hversion⟩, hdigits _ _⟩, hdash'⟩, hdigit _⟩,
    hdigits _ _⟩, hdash'⟩, hdigits _ _⟩

theorem separator_notMem_generate (draws : RequestIdGenerator.Draws) :
    SEPARATOR ∉ RequestIdGenerator.generate draws :=
  fun hmem => forall_mem_generate (P := (· ≠ SEPARATOR)) (by decide) (by decide) draws _ hmem rfl

/-- The header that sets the cookie is read as it is meant. -/
theorem setCookieOf_setCookie {id : Str} (h : SEPARATOR ∉ id) :
    setCookieOf (setCookie id) = some (SESSION, id) := by
  have hattributes : (setCookie id).value =
      written (SESSION, id) ++ SEPARATOR :: ascii " HttpOnly; Secure" := by
    rw [setCookie, written, List.append_assoc, List.append_assoc]
    rfl
  have hsession : WellFormed (SESSION, id) := by
    have hname : ASSIGN ∉ SESSION ∧ SEPARATOR ∉ SESSION := by decide
    have hfirst : SESSION.head? = some 's'.toUInt8 := rfl
    refine ⟨hname.1, hname.2, fun c hc => ?_, h⟩
    rw [hfirst] at hc
    obtain rfl := Option.some_inj.mp hc
    rfl
  have hheader : (setCookie id).name = ascii "Set-Cookie" := rfl
  rw [setCookieOf, if_pos hheader, hattributes,
    name_append_cons (separator_notMem_written hsession)]
  have hwritten : cookieOf ([] ++ written (SESSION, id)) = some (SESSION, id) :=
    cookieOf_written hsession (List.forall_mem_nil _)
  exact hwritten

end Set

/-! ## A turn -/

section Turn

variable {kept : ι → Cookies} {turn : Turn ι κ E} {random : Exchange E → RequestIdGenerator.Draws}
  {next : Callee κ (Exchange E) Exception}

/-- The cookies that are sent are read, the session among them. -/
theorem Turn.Faithful.sessionCookie_eq (h : turn.Faithful kept)
    (hkept : ∀ n v, kept turn.client n = some v → WellFormed (n, v)) :
    sessionCookie turn.before.request = kept turn.client SESSION := by
  have hcookies : ∀ cookie ∈ turn.cookies, WellFormed cookie :=
    fun cookie hmem => hkept _ _ (h.of_kept cookie hmem)
  have hread : cookiesOf ([] ++ headerOf turn.cookies) = turn.cookies :=
    cookiesOf_headerOf hcookies (List.forall_mem_nil _)
  ext id
  rw [List.nil_append] at hread
  rw [sessionCookie, h.header, parseCookies_eq, reference, hread]
  exact (assignAll_eq_some_iff h.nodup).trans ⟨h.of_kept (SESSION, id), h.session id⟩

/-- What is handed down. -/
theorem Turn.Faithful.getHeader_establish (h : turn.Faithful kept) :
    (establish random turn.before).request.getHeader (ascii "X-Session-ID") =
      sessionId (random turn.before) turn.before.request := by
  have hnone : turn.before.request.headers.find? (·.name == ascii "X-Session-ID") = none :=
    List.find?_eq_none.mpr fun header hmem => by simpa using h.unnamed header hmem
  have hfirst := getHeader_append turn.before.request
    ⟨ascii "X-Session-ID", sessionId (random turn.before) turn.before.request⟩
  rw [hnone] at hfirst
  exact hfirst

theorem Turn.response_eq (random : Exchange E → RequestIdGenerator.Draws)
    (next : Callee κ (Exchange E) Exception) (turn : Turn ι κ E) :
    turn.response random next =
      (next turn.control (establish random turn.before)).2.1.response := by
  simp only [response, createSessionMiddleware, Program.run, Program.runFrom, Program.passOn]
  cases (next turn.control (establish random turn.before)).2.2 <;> rfl

/-- The session cookie is set where there is none. -/
theorem Turn.Faithful.sessionsSet_establish (h : turn.Faithful kept) :
    sessionsSet (establish random turn.before).response =
      match sessionCookie turn.before.request with
      | some _ => []
      | none => [(SESSION, sessionId (random turn.before) turn.before.request)] := by
  rw [establish]
  dsimp only
  cases hcookie : sessionCookie turn.before.request with
  | some id => exact h.unset
  | none =>
      have hset : setCookieOf (setCookie (sessionId (random turn.before) turn.before.request)) =
          some (SESSION, sessionId (random turn.before) turn.before.request) := by
        apply setCookieOf_setCookie
        rw [sessionId, hcookie]
        exact separator_notMem_generate _
      have hunset : (cookiesSet turn.before.response).filter (·.1 = SESSION) = [] := h.unset
      dsimp only
      rw [sessionsSet, cookiesSet, List.filterMap_append, List.filter_append]
      rw [cookiesSet] at hunset
      rw [hunset, List.filterMap_cons, hset]
      rfl

theorem Turn.sessionsSet_response
    (hnext : ∀ c s, sessionsSet (next c s).2.1.response = sessionsSet s.response) :
    sessionsSet (turn.response random next) =
      sessionsSet (establish random turn.before).response := by
  rw [turn.response_eq, hnext]

/-- A client that is sent such a response has the session of the turn. -/
theorem Turn.Faithful.kept_session (h : turn.Faithful kept)
    (hkept : ∀ n v, kept turn.client n = some v → WellFormed (n, v)) {response : Response}
    (hresponse : sessionsSet response = sessionsSet (establish random turn.before).response) :
    assignAll (kept turn.client) (cookiesSet response) SESSION =
      some (sessionId (random turn.before) turn.before.request) := by
  rw [h.sessionsSet_establish, sessionsSet] at hresponse
  rw [← assignAll_filter, hresponse, sessionId, h.sessionCookie_eq hkept]
  cases hsession : kept turn.client SESSION with
  | some id => exact hsession
  | none => rw [assignAll_cons, assignAll_nil, Option.getD_none, Function.update_self]

end Turn

/-! ## All turns -/

section Run

variable [DecidableEq ι] {random : Exchange E → RequestIdGenerator.Draws}
  {next : Callee κ (Exchange E) Exception} {kept : ι → Cookies} {turn : Turn ι κ E}
  {past turns : List (Turn ι κ E)} {client : ι}

theorem conversation_step : (conversation ι random next).step kept turn =
    Function.update kept turn.client
      (assignAll (kept turn.client) (cookiesSet (turn.response random next))) := rfl

theorem established_append (turns turns' : List (Turn ι κ E)) (client : ι) :
    established random (turns ++ turns') client =
      (established random turns client).or (established random turns' client) := by
  rw [established, List.find?_append, Option.map_or]
  rfl

theorem established_singleton_self : established random [turn] turn.client =
    some (RequestIdGenerator.generate (random turn.before)) := by
  rw [established, List.find?_cons_of_pos (by simp)]
  rfl

theorem established_singleton_of_ne (h : turn.client ≠ client) :
    established random [turn] client = none := by
  rw [established, List.find?_cons_of_neg (by simpa using h)]
  rfl

theorem established_eq_none_iff : established random turns client = none ↔
    ∀ turn ∈ turns, turn.client ≠ client := by
  simp [established]

/-- The session of a turn is that of its client, then and from then on. -/
theorem Turn.Faithful.established_append (h : turn.Faithful kept)
    (hkept : ∀ n v, kept turn.client n = some v → WellFormed (n, v))
    (hsession : kept turn.client SESSION = established random past turn.client) (client : ι) :
    established random (past ++ [turn]) client =
      if client = turn.client then some (sessionId (random turn.before) turn.before.request)
      else established random past client := by
  rw [Middleware.established_append]
  split_ifs with hclient
  · rw [hclient, established_singleton_self, ← hsession, ← h.sessionCookie_eq hkept, sessionId]
    cases sessionCookie turn.before.request <;> rfl
  · rw [established_singleton_of_ne (Ne.symm hclient), Option.or_none]

/-- What the clients have kept after some turns. -/
structure Settled (random : Exchange E → RequestIdGenerator.Draws) (past : List (Turn ι κ E))
    (kept : ι → Cookies) : Prop where
  wellFormed : ∀ client n v, kept client n = some v → WellFormed (n, v)
  session : ∀ client, kept client SESSION = established random past client

theorem Settled.step
    (hnext : ∀ c s, sessionsSet (next c s).2.1.response = sessionsSet s.response)
    (hsettled : Settled random past kept) (h : turn.Faithful kept) :
    Settled random (past ++ [turn]) ((conversation ι random next).step kept turn) := by
  have hwell := hsettled.wellFormed turn.client
  constructor
  · intro client n v hv
    by_cases hclient : client = turn.client
    · subst hclient
      rw [conversation_step, Function.update_self] at hv
      exact wellFormed_assignAll hwell hv
    · rw [conversation_step, Function.update_of_ne hclient] at hv
      exact hsettled.wellFormed client n v hv
  · intro client
    rw [h.established_append hwell (hsettled.session _), conversation_step]
    split_ifs with hclient
    · rw [hclient, Function.update_self, h.kept_session hwell (Turn.sessionsSet_response hnext)]
    · rw [Function.update_of_ne hclient, hsettled.session]

theorem settled_run
    (hnext : ∀ c s, sessionsSet (next c s).2.1.response = sessionsSet s.response)
    (hrun : (conversation ι random next).Run (fun _ _ => none) past) :
    Settled random past ((conversation ι random next).run (fun _ _ => none) past) := by
  induction past using List.reverseRecOn with
  | nil => exact ⟨nofun, fun _ => rfl⟩
  | append_singleton past turn ih =>
      obtain ⟨hpast, hturn, -⟩ := System.throughout_append.mp hrun
      rw [System.run_append]
      exact (ih hpast).step hnext hturn

/-- **Every client has one session**, over all of its turns and whoever takes turns between them,
and is told of it once. -/
theorem continuity
    (hnext : ∀ c s, sessionsSet (next c s).2.1.response = sessionsSet s.response)
    (hrun : (conversation ι random next).Run (fun _ _ => none) turns) :
    (∀ client, (conversation ι random next).run (fun _ _ => none) turns client SESSION =
      established random turns client) ∧
    ∀ past turn future, turns = past ++ turn :: future →
      ∃ id, established random turns turn.client = some id ∧
        (∀ call ∈ (createSessionMiddleware random).handler.arguments next turn.control turn.before,
          call.2.request.getHeader (ascii "X-Session-ID") = id) ∧
        sessionsSet (turn.response random next) =
          if ∀ earlier ∈ past, earlier.client ≠ turn.client then [(SESSION, id)] else [] := by
  refine ⟨(settled_run hnext hrun).session, ?_⟩
  rintro past turn future rfl
  obtain ⟨hpast, hturn, -⟩ := System.throughout_append.mp hrun
  have hsettled := settled_run hnext hpast
  have hcookie := hturn.sessionCookie_eq (hsettled.wellFormed turn.client)
  refine ⟨sessionId (random turn.before) turn.before.request, ?_, ?_, ?_⟩
  · rw [List.append_cons, established_append, hturn.established_append (hsettled.wellFormed _)
      (hsettled.session _), if_pos rfl, Option.some_or]
  · rw [arguments_session, List.forall_mem_singleton]
    exact hturn.getHeader_establish
  · rw [Turn.sessionsSet_response hnext, hturn.sessionsSet_establish, hcookie, hsettled.session]
    split
    · next id hsome =>
        rw [if_neg fun hnone => ?_]
        rw [established_eq_none_iff.mpr hnone] at hsome
        cases hsome
    · next hnone => rw [if_pos (established_eq_none_iff.mp hnone)]

end Run

/-- A handler that sets a cookie of its own. -/
def darken : Callee Unit (Exchange ℕ) Exception := fun c s =>
  (c, { s with response := { s.response with
    headers := s.response.headers ++ [⟨ascii "Set-Cookie", ascii "theme=dark; Path=/"⟩] } }, none)

/-- Draws that tell the exchanges apart. -/
def numbered (s : Exchange ℕ) : RequestIdGenerator.Draws := ⟨fun _ => Fin.ofNat 16 s.captured, 0⟩

/-- The turn of a client with these cookies. -/
def turnOf (client number : ℕ) (cookies : List (Str × Str)) : Turn ℕ Unit ℕ where
  client := client
  cookies := cookies
  control := ()
  before :=
    { request := { Request.empty 1 1 with headers := [⟨ascii "Cookie", headerOf cookies⟩] }
      response := .stockResponse .ok
      captured := number }

/-- Two turns of a client and one of another between them. -/
def threeTurns : List (Turn ℕ Unit ℕ) :=
  [turnOf 1 0 [], turnOf 2 1 [],
    turnOf 1 2 [(ascii "theme", ascii "dark"),
      (ascii "session_id", ascii "00000000-0000-4000-8000-000000000000")]]

theorem sessionsSet_darken (c : Unit) (s : Exchange ℕ) :
    sessionsSet (darken c s).2.1.response = sessionsSet s.response := by
  have htheme : sessionsSet ⟨.ok, [⟨ascii "Set-Cookie", ascii "theme=dark; Path=/"⟩], []⟩ = [] := by
    decide +kernel
  calc sessionsSet (darken c s).2.1.response
      = sessionsSet s.response ++
          sessionsSet ⟨.ok, [⟨ascii "Set-Cookie", ascii "theme=dark; Path=/"⟩], []⟩ := by
        simp only [darken, sessionsSet, cookiesSet, List.filterMap_append, List.filter_append]
    _ = sessionsSet s.response := by rw [htheme, List.append_nil]

/-- A client without cookies sends none. -/
theorem faithful_turnOf_nil {kept : ℕ → Cookies} {client number : ℕ}
    (h : kept client SESSION = none) : (turnOf client number []).Faithful kept := by
  have hunset : sessionsSet (.stockResponse .ok) = [] := by decide +kernel
  refine ⟨rfl, List.nodup_nil, List.forall_mem_nil _, fun id hid => ?_,
    List.forall_mem_singleton.mpr (by decide), hunset⟩
  cases h.symm.trans hid

theorem run_threeTurns :
    (conversation ℕ numbered darken).Run (fun _ _ => none) threeTurns := by
  refine ⟨faithful_turnOf_nil rfl, faithful_turnOf_nil rfl, ?_, trivial⟩
  refine ⟨rfl, by decide, by decide +kernel, fun id hid => ?_,
    List.forall_mem_singleton.mpr (by decide), by decide +kernel⟩
  have hkept : (conversation ℕ numbered darken).run (fun _ _ => none) (threeTurns.take 2) 1
      SESSION = some (ascii "00000000-0000-4000-8000-000000000000") := by decide +kernel
  obtain rfl := Option.some_inj.mp (hkept.symm.trans hid)
  decide

theorem continuity_threeTurns :
    (conversation ℕ numbered darken).run (fun _ _ => none) threeTurns 1 SESSION =
        established numbered threeTurns 1 ∧
      established numbered threeTurns 1 = some (ascii "00000000-0000-4000-8000-000000000000") ∧
      established numbered threeTurns 2 =
        some (ascii "11111111-1111-4111-8111-111111111111") :=
  ⟨(continuity sessionsSet_darken run_threeTurns).1 1, by decide +kernel, by decide +kernel⟩

end GinCpp.Middleware
