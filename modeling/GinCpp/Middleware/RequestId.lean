import GinCpp.Http.RoundTrip
import GinCpp.Middleware.ErrorHandler

/-!
# Request ids

`middleware/request_id.cpp` and `utils/request_id_generator.cpp`.  The middleware copies a header
of the request into the response.  Nothing the parser stores breaks a line
(`Parser.wellFormed_parse`), so the copy is one line of the response and no more:
`bytes_requestId`.
-/

namespace GinCpp.Middleware

open Callback Http

/-! ## The generator -/

namespace RequestIdGenerator

/-- What the two distributions draw, in order: numbers from 0 to 15, and one from 8 to 11, less
eight. -/
structure Draws where
  dis : ℕ → Fin 16
  dis2 : Fin 4

/-- A number below 16, as `std::hex` writes it. -/
def hexDigit (n : Fin 16) : UInt8 := (Nat.digitChar n).toUInt8

/-- The draws from `first` on. -/
def hexDigits (draws : Draws) (first count : ℕ) : Str :=
  (List.range' first count).map fun i => hexDigit (draws.dis i)

/-- `RequestIdGenerator::generate`. -/
def generate (draws : Draws) : Str :=
  hexDigits draws 0 8 ++ ascii "-" ++ hexDigits draws 8 4 ++ ascii "-4" ++ hexDigits draws 12 3 ++
    ascii "-" ++ [hexDigit ⟨8 + draws.dis2, by omega⟩] ++ hexDigits draws 15 3 ++ ascii "-" ++
      hexDigits draws 18 12

theorem iscntrl_hexDigit (n : Fin 16) : iscntrl (hexDigit n) = false := by
  revert n
  decide

theorem iscntrl_hexDigits {draws : Draws} {first count : ℕ} :
    ∀ c ∈ hexDigits draws first count, iscntrl c = false := by
  intro c hc
  obtain ⟨i, -, rfl⟩ := List.mem_map.mp hc
  exact iscntrl_hexDigit (draws.dis i)

theorem iscntrl_generate (draws : Draws) : ∀ c ∈ generate draws, iscntrl c = false := by
  have hdash : ∀ c ∈ ascii "-", iscntrl c = false := by decide +kernel
  have hversion : ∀ c ∈ ascii "-4", iscntrl c = false := by decide +kernel
  simp only [generate, List.forall_mem_append, List.forall_mem_singleton]
  exact ⟨⟨⟨⟨⟨⟨⟨⟨⟨iscntrl_hexDigits, hdash⟩, iscntrl_hexDigits⟩, hversion⟩, iscntrl_hexDigits⟩,
    hdash⟩, iscntrl_hexDigit _⟩, iscntrl_hexDigits⟩, hdash⟩, iscntrl_hexDigits⟩

end RequestIdGenerator

example : RequestIdGenerator.generate ⟨fun i => Fin.ofNat 16 i, 3⟩ =
    ascii "01234567-89ab-4cde-bf01-23456789abcd" := by decide

/-! ## The middleware -/

variable {κ E : Type}

/-- The value of `current_request_id`. -/
def requestId (draws : RequestIdGenerator.Draws) (request : Request) : Str :=
  let it := request.getHeader (ascii "X-Request-ID")
  if !it.isEmpty then it else RequestIdGenerator.generate draws

/-- The part of the handler in front of `next`. -/
def pushRequestId (random : Exchange E → RequestIdGenerator.Draws) (s : Exchange E) : Exchange E :=
  { s with response := { s.response with
      headers := s.response.headers ++
        [⟨ascii "X-Request-ID", requestId (random s) s.request⟩] } }

/-- `create_request_id_middleware`.  `random` is the source of the draws; `next` is never null in
a chain. -/
def createRequestIdMiddleware (random : Exchange E → RequestIdGenerator.Draws) :
    Middleware (Exchange E) Exception where
  priority := 90  -- "High priority, but after error handler"
  handler := .act (pushRequestId random) fun _ => .passOn

theorem state_requestId (random : Exchange E → RequestIdGenerator.Draws)
    (next : Callee κ (Exchange E) Exception) (c : κ) (s : Exchange E) :
    ((createRequestIdMiddleware random).handler.run next c s).state =
      (next c (pushRequestId random s)).2.1 := by
  simp only [createRequestIdMiddleware, Program.run, Program.runFrom, Program.passOn]
  cases (next c (pushRequestId random s)).2.2 <;> rfl

/-- A header of a request that the parser has filled in. -/
theorem iscntrl_getHeader {req : Request} (h : req.WellFormed) (name : Str) :
    ∀ c ∈ req.getHeader name, iscntrl c = false := by
  unfold Request.getHeader
  cases hfind : req.headers.find? (·.name == name) with
  | none => nofun
  | some header =>
      have hwell := h header (List.mem_of_find?_eq_some hfind)
      exact (Header.wellFormed_iff.mp hwell).2.2

theorem iscntrl_requestId {req : Request} (h : req.WellFormed)
    (draws : RequestIdGenerator.Draws) : ∀ c ∈ requestId draws req, iscntrl c = false := by
  unfold requestId
  dsimp only
  split
  · exact iscntrl_getHeader h _
  · exact RequestIdGenerator.iscntrl_generate draws

/-- **A reflected header stays within its line.**  Whatever bytes the request was read from, and
whatever `next` does to the status and the content: split at its first empty line, what is sent
is the status line and one line for each header, the last one being the request id, and the
content. -/
theorem bytes_requestId {major minor : Int} {chunks : List Str} {parser : Parser} {req : Request}
    (hparse : Parser.parseChunks {} (.empty major minor) chunks = (parser, req, .good))
    {response : Response}
    (hclean : ∀ header ∈ response.headers, Unbroken header.name ∧ Unbroken header.value)
    (captured : E) (random : Exchange E → RequestIdGenerator.Draws)
    {next : Callee κ (Exchange E) Exception}
    (hnext : ∀ c s, (next c s).2.1.response.headers = s.response.headers) (c : κ) :
    let sent := ((createRequestIdMiddleware random).handler.run next c
      ⟨req, response, captured⟩).state.response
    let lines := sent.status.statusLine :: sent.headers.map Header.text
    Separator.breakOn [CR, LF, CR, LF] sent.bytes =
        some ([CR, LF].intercalate lines, sent.content) ∧
      (∀ line ∈ lines, CR ∉ line ∧ LF ∉ line) ∧
      ∃ id, sent.headers = response.headers ++ [⟨ascii "X-Request-ID", id⟩] := by
  intro sent lines
  have hreq : req.WellFormed := by
    have hwell := Parser.wellFormed_parse {} (Request.wellFormed_empty major minor)
      chunks.flatten
    rwa [← Parser.parseChunks_eq, hparse] at hwell
  have hheaders : sent.headers = response.headers ++ [⟨ascii "X-Request-ID",
      requestId (random ⟨req, response, captured⟩) req⟩] :=
    (congrArg (·.response.headers) (state_requestId random next c _)).trans (hnext c _)
  have hsent : ∀ header ∈ sent.headers, Unbroken header.name ∧ Unbroken header.value := by
    rw [hheaders]
    refine List.forall_mem_append.mpr ⟨hclean, List.forall_mem_singleton.mpr ⟨?_, ?_⟩⟩
    · have hname : ∀ c ∈ ascii "X-Request-ID", iscntrl c = false := by decide +kernel
      exact unbroken_of_not_iscntrl hname
    · exact unbroken_of_not_iscntrl (iscntrl_requestId hreq _)
  exact ⟨sent.breakOn_bytes hsent, Response.unbroken_lines hsent, _, hheaders⟩

/-- The id is folded over two lines. -/
theorem bytes_requestId_folded : ∃ id,
    ((createRequestIdMiddleware fun _ => ⟨fun _ => 0, 0⟩).handler.run
      (fun (c : Unit) s => (c, s, none)) () ⟨⟨ascii "GET", ascii "/", 1, 1,
        [⟨ascii "X-Request-ID", ascii "ab"⟩], []⟩, ⟨.ok, [], []⟩, ()⟩).state.response.headers =
      [⟨ascii "X-Request-ID", id⟩] :=
  (bytes_requestId (by decide +kernel : Parser.parseChunks {} (.empty 0 0)
    [ascii "GET / HTTP/1.1\x0d\nX-Request-ID: a\x0d\n", ascii " b\x0d\n\x0d\n"] =
      (⟨.expectingNewline3⟩, _, .good)) (by simp) () _ (fun _ _ => rfl) ()).2.2

end GinCpp.Middleware
