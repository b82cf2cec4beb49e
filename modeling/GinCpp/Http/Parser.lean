import GinCpp.Http.Message
import GinCpp.Scanner.Basic

/-!
# The request parser

`http/parser.cpp`.  `Parser.step` is the body of the loop in `Parser::parse`, one byte and one
`switch`; the loop itself is `Scanner.scan`.

`Parser.step` computes the version numbers exactly.  `Parser.stepInt` is the same `switch` on `int`
fields, whose sums wrap; `parseInt_asInts` says that it fills in what the exact numbers wrap to.
-/

namespace GinCpp.Http

/-- `Parser::State`. -/
inductive State
  | methodStart | method | uri
  | httpVersionH | httpVersionT1 | httpVersionT2 | httpVersionP | httpVersionSlash
  | httpVersionMajorStart | httpVersionMajor | httpVersionMinorStart | httpVersionMinor
  | expectingNewline1
  | headerLineStart | headerLws | headerName | spaceBeforeHeaderValue | headerValue
  | expectingNewline2 | expectingNewline3
  deriving DecidableEq, Repr

/-- `Parser::ParseResult`. -/
inductive ParseResult
  | good | bad | indeterminate
  deriving DecidableEq, Repr

/-- `http::Parser`. -/
structure Parser where
  state : State := .methodStart
  deriving DecidableEq, Repr

/-! ## Filling in the request -/

/-- `headers.back()`, changed in place. -/
def modifyBack (f : Header → Header) : List Header → List Header
  | [] => []
  | [header] => [f header]
  | header :: rest => header :: modifyBack f rest

@[simp] theorem isEmpty_modifyBack (f : Header → Header) (headers : List Header) :
    (modifyBack f headers).isEmpty = headers.isEmpty := by
  cases headers with
  | nil => rfl
  | cons header rest => cases rest <;> rfl

namespace Request

def pushMethod (req : Request) (c : UInt8) : Request := { req with method := req.method ++ [c] }

def pushUri (req : Request) (c : UInt8) : Request := { req with uri := req.uri ++ [c] }

/-- A new header whose name is the one byte `c`. -/
def pushHeader (req : Request) (c : UInt8) : Request :=
  { req with headers := req.headers ++ [{ name := [c] }] }

def pushName (req : Request) (c : UInt8) : Request :=
  { req with headers := modifyBack (fun h => { h with name := h.name ++ [c] }) req.headers }

def pushValue (req : Request) (c : UInt8) : Request :=
  { req with headers := modifyBack (fun h => { h with value := h.value ++ [c] }) req.headers }

end Request

/-! ## One byte -/

/-- `input - '0'`. -/
def digitValue (input : UInt8) : Int := (input.toNat : Int) - 48

/-- A state that waits for one fixed byte. -/
def expect (byte : UInt8) (next : State) (req : Request) (input : UInt8) :
    Except ParseResult (Parser × Request) :=
  if input = byte then .ok (⟨next⟩, req) else .error .bad

/-- The body of the loop: the next state, or the value `parse` returns at this byte.  A byte that
ends the parse changes neither the parser nor the request. -/
def Parser.step (current : Parser × Request) (input : UInt8) :
    Except ParseResult (Parser × Request) :=
  let (parser, req) := current
  match parser.state with
  | .methodStart =>
      if isalpha input then .ok (⟨.method⟩, req.pushMethod input) else .error .bad
  | .method =>
      if input = SP then .ok (⟨.uri⟩, req)
      else if isalpha input then .ok (parser, req.pushMethod input)
      else .error .bad
  | .uri =>
      if input = SP then .ok (⟨.httpVersionH⟩, req)
      else if iscntrl input then .error .bad
      else .ok (parser, req.pushUri input)
  | .httpVersionH => expect 'H'.toUInt8 .httpVersionT1 req input
  | .httpVersionT1 => expect 'T'.toUInt8 .httpVersionT2 req input
  | .httpVersionT2 => expect 'T'.toUInt8 .httpVersionP req input
  | .httpVersionP => expect 'P'.toUInt8 .httpVersionSlash req input
  | .httpVersionSlash => expect '/'.toUInt8 .httpVersionMajorStart req input
  | .httpVersionMajorStart =>
      if isdigit input then
        .ok (⟨.httpVersionMajor⟩, { req with httpVersionMajor := digitValue input })
      else .error .bad
  | .httpVersionMajor =>
      if input = '.'.toUInt8 then .ok (⟨.httpVersionMinorStart⟩, req)
      else if isdigit input then
        .ok (parser, { req with
          httpVersionMajor := req.httpVersionMajor * 10 + digitValue input })
      else .error .bad
  | .httpVersionMinorStart =>
      if isdigit input then
        .ok (⟨.httpVersionMinor⟩, { req with httpVersionMinor := digitValue input })
      else .error .bad
  | .httpVersionMinor =>
      if input = CR then .ok (⟨.expectingNewline1⟩, req)
      else if isdigit input then
        .ok (parser, { req with
          httpVersionMinor := req.httpVersionMinor * 10 + digitValue input })
      else .error .bad
  | .expectingNewline1 => expect LF .headerLineStart req input
  | .headerLineStart =>
      if input = CR then .ok (⟨.expectingNewline3⟩, req)
      else if !req.headers.isEmpty && (input == SP || input == HTAB) then
        .ok (⟨.headerLws⟩, req)
      else if !iscntrl input && input != COLON && input != SP then
        .ok (⟨.headerName⟩, req.pushHeader input)
      else .error .bad
  | .headerLws =>
      if input = CR then .ok (⟨.expectingNewline2⟩, req)
      else if input == SP || input == HTAB then .ok (parser, req)
      else if !iscntrl input then .ok (⟨.headerValue⟩, req.pushValue input)
      else .error .bad
  | .headerName =>
      if input = COLON then .ok (⟨.spaceBeforeHeaderValue⟩, req)
      else if !iscntrl input && input != SP then .ok (parser, req.pushName input)
      else .error .bad
  | .spaceBeforeHeaderValue => expect SP .headerValue req input
  | .headerValue =>
      if input = CR then .ok (⟨.expectingNewline2⟩, req)
      else if iscntrl input then .error .bad
      else .ok (parser, req.pushValue input)
  | .expectingNewline2 => expect LF .headerLineStart req input
  | .expectingNewline3 => .error (if input = LF then .good else .bad)

/-! ## A block of bytes -/

/-- `Parser::parse`. -/
def Parser.parse (parser : Parser) (req : Request) (bytes : Str) :
    Parser × Request × ParseResult :=
  let ((parser, req), verdict) := Scanner.scan Parser.step (parser, req) bytes
  (parser, req, verdict.getD .indeterminate)

/-- Successive calls of `parse`, up to the first result that is not `INDETERMINATE`. -/
def Parser.parseChunks (parser : Parser) (req : Request) :
    List Str → Parser × Request × ParseResult
  | [] => (parser, req, .indeterminate)
  | chunk :: chunks =>
      match parser.parse req chunk with
      | (parser, req, .indeterminate) => parser.parseChunks req chunks
      | outcome => outcome

/-! ## On `int` fields -/

/-- The body of the loop where the fields are `int`s: the two sums wrap. -/
def Parser.stepInt (current : Parser × Request) (input : UInt8) :
    Except ParseResult (Parser × Request) :=
  let (parser, req) := current
  match parser.state with
  | .httpVersionMajor =>
      if input = '.'.toUInt8 then .ok (⟨.httpVersionMinorStart⟩, req)
      else if isdigit input then
        .ok (parser, { req with
          httpVersionMajor := asInt (req.httpVersionMajor * 10 + digitValue input) })
      else .error .bad
  | .httpVersionMinor =>
      if input = CR then .ok (⟨.expectingNewline1⟩, req)
      else if isdigit input then
        .ok (parser, { req with
          httpVersionMinor := asInt (req.httpVersionMinor * 10 + digitValue input) })
      else .error .bad
  | _ => Parser.step current input

/-- `Parser::parse` on `int` fields. -/
def Parser.parseInt (parser : Parser) (req : Request) (bytes : Str) :
    Parser × Request × ParseResult :=
  let ((parser, req), verdict) := Scanner.scan Parser.stepInt (parser, req) bytes
  (parser, req, verdict.getD .indeterminate)

theorem asInt_digitValue {c : UInt8} (h : isdigit c = true) :
    asInt (digitValue c) = digitValue c := by
  obtain ⟨hlow, hhigh⟩ : 48 ≤ c.toNat ∧ c.toNat ≤ 57 := by
    simpa [isdigit, UInt8.le_iff_toNat_le] using h
  unfold asInt digitValue
  apply Int.bmod_eq_of_le <;> omega

/-- One byte on `int` fields is the exact one, wrapped. -/
theorem Parser.stepInt_asInts (parser : Parser) (req : Request) (c : UInt8) :
    Parser.stepInt (parser, req.asInts) c =
      (Parser.step (parser, req) c).map fun next => (next.1, next.2.asInts) := by
  obtain ⟨state⟩ := parser
  cases state
  case httpVersionMajor =>
    simp only [Parser.stepInt, Parser.step]
    split_ifs
    · rfl
    · simp only [Except.map, Request.asInts, asInt_mul_add]
    · rfl
  case httpVersionMinor =>
    simp only [Parser.stepInt, Parser.step]
    split_ifs
    · rfl
    · simp only [Except.map, Request.asInts, asInt_mul_add]
    · rfl
  case httpVersionMajorStart | httpVersionMinorStart =>
    simp only [Parser.stepInt, Parser.step]
    split_ifs with hc
    · simp only [Except.map, Request.asInts, asInt_digitValue hc]
    · rfl
  all_goals
    simp only [Parser.stepInt, Parser.step, expect]
    split_ifs
    all_goals first | rfl | contradiction

/-- **The `int` fields hold what the exact numbers wrap to**, and nothing else differs. -/
theorem Parser.parseInt_asInts (parser : Parser) (req : Request) (bytes : Str) :
    parser.parseInt req.asInts bytes =
      let (parser, req, result) := parser.parse req bytes
      (parser, req.asInts, result) := by
  have hmap := Scanner.scan_map (fun s : Parser × Request => (s.1, s.2.asInts))
    (fun s c => Parser.stepInt_asInts s.1 s.2 c) (parser, req) bytes
  simp only at hmap
  rw [Parser.parseInt, hmap, Parser.parse]

theorem Parser.step_error {current : Parser × Request} {c : UInt8} {result : ParseResult}
    (h : Parser.step current c = .error result) : result = .good ∨ result = .bad := by
  obtain ⟨⟨state⟩, req⟩ := current
  cases state
  all_goals
    simp only [Parser.step, expect] at h
    split_ifs at h <;> cases h <;> simp

/-- Only the last byte of a request is accepted. -/
theorem Parser.state_of_step_good {s : Parser × Request} {c : UInt8}
    (h : Parser.step s c = .error .good) : s.1.state = .expectingNewline3 := by
  obtain ⟨⟨state⟩, req⟩ := s
  cases state
  case expectingNewline3 => rfl
  all_goals
    simp only [Parser.step, expect] at h
    split_ifs at h; cases h

theorem Parser.scan_verdict {current next : Parser × Request} {w : Str} {result : ParseResult}
    (h : Scanner.scan Parser.step current w = (next, some result)) :
    result = .good ∨ result = .bad := by
  obtain ⟨_, c, _, _, _, hc⟩ := Scanner.exists_of_scan_verdict h
  exact Parser.step_error hc

/-- The calls of `parse` are those of the scanner. -/
theorem Parser.parseChunks_eq_scanChunks (parser : Parser) (req : Request) (chunks : List Str) :
    parser.parseChunks req chunks =
      let ((parser, req), verdict) := Scanner.scanChunks Parser.step (parser, req) chunks
      (parser, req, verdict.getD .indeterminate) := by
  induction chunks generalizing parser req with
  | nil => rfl
  | cons chunk chunks ih =>
      rw [Parser.parseChunks, Parser.parse, Scanner.scanChunks]
      rcases hscan : Scanner.scan Parser.step (parser, req) chunk with ⟨⟨parser', req'⟩, _ | result⟩
      · exact ih parser' req'
      · rcases Parser.scan_verdict hscan with rfl | rfl <;> rfl

/-- Calling `parse` chunk by chunk is calling it once on everything. -/
theorem Parser.parseChunks_eq (parser : Parser) (req : Request) (chunks : List Str) :
    parser.parseChunks req chunks = parser.parse req chunks.flatten := by
  rw [Parser.parseChunks_eq_scanChunks, Scanner.scanChunks_eq]
  rfl

end GinCpp.Http
