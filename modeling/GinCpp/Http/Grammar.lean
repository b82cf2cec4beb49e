import GinCpp.Http.Parser
import GinCpp.Scanner.Residual

/-!
# The language of the request parser

`message` is the request grammar as a regular expression.  `rest` gives each state of
`Parser::State` the language of what is still missing there; it needs one bit of the request,
whether a header has been seen, because only then may a line be folded.  `residual_rest` checks
`rest` against the loop body one byte at a time, and `parseChunks_spec` reads the result off the
scanner library: acceptance, earliest rejection and independence of the chunk boundaries.
-/

namespace GinCpp.Http

open Scanner Computability

/-! ## The grammar -/

/-- A byte of the request target, or the first byte of the text of a folded line. -/
def visibleByte (c : UInt8) : Bool := !iscntrl c && c != SP

/-- A byte of a header name. -/
def nameByte (c : UInt8) : Bool := !iscntrl c && c != COLON && c != SP

/-- A byte that folds a line. -/
def blankByte (c : UInt8) : Bool := c == SP || c == HTAB

def byte (c : UInt8) : Language UInt8 := symbol (· = c)
def alpha : Language UInt8 := symbol (isalpha ·)
def digit : Language UInt8 := symbol (isdigit ·)
def visible : Language UInt8 := symbol (visibleByte ·)
def nameChar : Language UInt8 := symbol (nameByte ·)
def blank : Language UInt8 := symbol (blankByte ·)
def text : Language UInt8 := symbol fun c => !iscntrl c
def crlf : Language UInt8 := byte CR * byte LF

/-- `ALPHA+ SP VISIBLE* SP "HTTP/" DIGIT+ "." DIGIT+ CR LF`. -/
def requestLine : Language UInt8 :=
  alpha * alpha∗ * byte SP * visible∗ * byte SP * word (ascii "HTTP/") *
    digit * digit∗ * byte '.'.toUInt8 * digit * digit∗ * crlf

/-- A folded line: a blank, more blanks, then the end of the line or a visible byte and text. -/
def continuation : Language UInt8 :=
  blank * blank∗ * (crlf + visible * text∗ * crlf)

/-- `name ":" SP value CR LF` and its folded lines. -/
def headerBlock : Language UInt8 :=
  nameChar * nameChar∗ * byte COLON * byte SP * text∗ * crlf * continuation∗

/-- The language of requests. -/
def message : Language UInt8 := requestLine * headerBlock∗ * crlf

/-! ## What is missing in each state -/

/-- From the start of a header line on. -/
def lines (folding : Bool) : Language UInt8 :=
  if folding then continuation∗ * (headerBlock∗ * crlf) else headerBlock∗ * crlf

def lineEnd (folding : Bool) : Language UInt8 := byte LF * lines folding

def afterValue (folding : Bool) : Language UInt8 := text∗ * (byte CR * lineEnd folding)

def afterBlanks (folding : Bool) : Language UInt8 :=
  blank∗ * (byte CR * lineEnd folding + visible * afterValue folding)

def afterName (folding : Bool) : Language UInt8 :=
  nameChar∗ * (byte COLON * (byte SP * afterValue folding))

def afterMinor (folding : Bool) : Language UInt8 := digit∗ * (byte CR * lineEnd folding)

def afterMajor (folding : Bool) : Language UInt8 :=
  digit∗ * (byte '.'.toUInt8 * (digit * afterMinor folding))

def afterUri (folding : Bool) : Language UInt8 :=
  byte 'H'.toUInt8 * (byte 'T'.toUInt8 * (byte 'T'.toUInt8 * (byte 'P'.toUInt8 *
    (byte '/'.toUInt8 * (digit * afterMajor folding)))))

def afterMethod (folding : Bool) : Language UInt8 := visible∗ * (byte SP * afterUri folding)

/-- What is missing in a state of the parser, `folding` telling whether a header precedes. -/
def missing (folding : Bool) : State → Language UInt8
  | .methodStart => alpha * (alpha∗ * (byte SP * afterMethod folding))
  | .method => alpha∗ * (byte SP * afterMethod folding)
  | .uri => afterMethod folding
  | .httpVersionH => afterUri folding
  | .httpVersionT1 => byte 'T'.toUInt8 * (byte 'T'.toUInt8 * (byte 'P'.toUInt8 *
      (byte '/'.toUInt8 * (digit * afterMajor folding))))
  | .httpVersionT2 => byte 'T'.toUInt8 * (byte 'P'.toUInt8 *
      (byte '/'.toUInt8 * (digit * afterMajor folding)))
  | .httpVersionP => byte 'P'.toUInt8 * (byte '/'.toUInt8 * (digit * afterMajor folding))
  | .httpVersionSlash => byte '/'.toUInt8 * (digit * afterMajor folding)
  | .httpVersionMajorStart => digit * afterMajor folding
  | .httpVersionMajor => afterMajor folding
  | .httpVersionMinorStart => digit * afterMinor folding
  | .httpVersionMinor => afterMinor folding
  | .expectingNewline1 => lineEnd folding
  | .headerLineStart => lines folding
  | .headerLws => afterBlanks folding
  | .headerName => afterName folding
  | .spaceBeforeHeaderValue => byte SP * afterValue folding
  | .headerValue => afterValue folding
  | .expectingNewline2 => lineEnd folding
  | .expectingNewline3 => byte LF

/-- What is missing after some bytes were read into a request. -/
def rest (current : Parser × Request) : Language UInt8 :=
  missing (!current.2.headers.isEmpty) current.1.state

theorem word_http : word (ascii "HTTP/") = byte 'H'.toUInt8 * (byte 'T'.toUInt8 *
    (byte 'T'.toUInt8 * (byte 'P'.toUInt8 * byte '/'.toUInt8))) := by
  simp only [show ascii "HTTP/" = ['H'.toUInt8, 'T'.toUInt8, 'T'.toUInt8, 'P'.toUInt8,
    '/'.toUInt8] from rfl, word_cons, word_nil, mul_one, byte]

theorem rest_start (major minor : Int) : rest ({}, .empty major minor) = message := by
  simp only [rest, missing, message, requestLine, afterMethod, afterUri, afterMajor, afterMinor,
    lineEnd, lines, crlf, mul_assoc]
  simp [word_http, mul_assoc]

/-! ## The grammar follows the parser -/

theorem not_nameByte {c : UInt8} (h : blankByte c) : nameByte c = false := by
  rcases Bool.or_eq_true_iff.mp h with h | h <;> rw [eq_of_beq h] <;> rfl

theorem not_visibleByte {c : UInt8} (h : blankByte c) : visibleByte c = false := by
  rcases Bool.or_eq_true_iff.mp h with h | h <;> rw [eq_of_beq h] <;> rfl

theorem headerBlock_mul (K : Language UInt8) :
    headerBlock * K = nameChar * (nameChar∗ * (byte COLON * (byte SP * (text∗ * (byte CR *
      (byte LF * (continuation∗ * K))))))) := by
  simp only [headerBlock, crlf, mul_assoc]

theorem continuation_mul (K : Language UInt8) :
    continuation * K = blank * (blank∗ * (byte CR * (byte LF * K) +
      visible * (text∗ * (byte CR * (byte LF * K))))) := by
  simp only [continuation, crlf, mul_assoc, add_mul]

theorem cons_mem_headerLines {c : UInt8} {w : Str} :
    c :: w ∈ headerBlock∗ * crlf ↔
      (c = CR ∧ w ∈ byte LF) ∨ (nameByte c ∧ w ∈ afterName true) := by
  rw [kstar_mul_eq, Language.mem_add, headerBlock_mul]
  exact Iff.or cons_mem_symbol_mul cons_mem_symbol_mul

theorem cons_mem_lines {folding : Bool} {c : UInt8} {w : Str} :
    c :: w ∈ lines folding ↔ (c = CR ∧ w ∈ byte LF) ∨ (nameByte c ∧ w ∈ afterName true) ∨
      (folding ∧ blankByte c ∧ w ∈ afterBlanks true) := by
  cases folding with
  | false => simpa [lines] using cons_mem_headerLines
  | true =>
      have hfold : c :: w ∈ lines true ↔ c :: w ∈ headerBlock∗ * crlf ∨
          (blankByte c ∧ w ∈ afterBlanks true) := by
        rw [lines, if_pos rfl, kstar_mul_eq, Language.mem_add, continuation_mul]
        exact Iff.or Iff.rfl cons_mem_symbol_mul
      rw [hfold, cons_mem_headerLines]
      simp [or_assoc]

theorem cons_mem_afterBlanks {folding : Bool} {c : UInt8} {w : Str} :
    c :: w ∈ afterBlanks folding ↔ (c = CR ∧ w ∈ lineEnd folding) ∨
      (visibleByte c ∧ w ∈ afterValue folding) ∨
        (blankByte c ∧ w ∈ afterBlanks folding) := by
  rw [afterBlanks, blank, cons_mem_kstar_symbol_mul, Language.mem_add, byte, visible,
    cons_mem_symbol_mul, cons_mem_symbol_mul, or_assoc]

theorem nil_notMem_afterBlanks (folding : Bool) : [] ∉ afterBlanks folding := by
  rw [afterBlanks, blank, nil_mem_kstar_symbol_mul, Language.mem_add, byte, visible,
    nil_mem_symbol_mul, nil_mem_symbol_mul, or_false]
  exact not_false

theorem nil_notMem_lines (folding : Bool) : [] ∉ lines folding := by
  have hblock : [] ∉ headerBlock∗ * crlf := by
    rw [kstar_mul_eq, Language.mem_add, headerBlock_mul]
    simp [nameChar, crlf, byte]
  rw [lines]
  split
  · rw [kstar_mul_eq, Language.mem_add, continuation_mul]
    simp [blank, hblock]
  · exact hblock

theorem nil_notMem_rest (current : Parser × Request) : [] ∉ rest current := by
  obtain ⟨⟨state⟩, req⟩ := current
  cases state
  case headerLineStart => exact nil_notMem_lines _
  case headerLws => exact nil_notMem_afterBlanks _
  case expectingNewline3 =>
    rintro ⟨c, _, hc⟩
    cases hc
  all_goals
    simp [rest, missing, alpha, byte, digit, visible, nameChar, text, afterMethod,
      afterUri, afterMajor, afterMinor, lineEnd, afterName, afterValue]

/-- At the start of a line the block ends, the line before it is continued or a name begins. -/
theorem cons_mem_rest_headerLineStart (req : Request) (c : UInt8) (w : Str) :
    c :: w ∈ rest (⟨.headerLineStart⟩, req) ↔
      match Parser.step (⟨.headerLineStart⟩, req) c with
      | .ok next => w ∈ rest next
      | .error result => result = .good ∧ w = [] := by
  simp only [rest, missing, cons_mem_lines, Parser.step]
  split_ifs with hcr hfold hname
  · subst hcr
    simp [show nameByte CR = false from rfl, show blankByte CR = false from rfl]
  · -- a continuation, which the first line cannot be
    have hc : blankByte c = true := (Bool.and_eq_true_iff.mp hfold).2
    have hheaders : (!req.headers.isEmpty) = true := (Bool.and_eq_true_iff.mp hfold).1
    simp [hcr, not_nameByte hc, hc, hheaders]
  · have hc : nameByte c = true := hname
    have hblank : blankByte c = false := by
      by_contra h
      simp [not_nameByte (Bool.not_eq_false _ ▸ h)] at hc
    have hheaders : (req.pushHeader c).headers.isEmpty = false := by simp [Request.pushHeader]
    simp [hcr, hc, hblank, hheaders]
  · have hc : nameByte c = false := Bool.not_eq_true _ ▸ hname
    have hfold' : ¬ ((!req.headers.isEmpty) = true ∧ blankByte c = true) := fun h =>
      hfold (Bool.and_eq_true_iff.mpr h)
    simp only [hcr, hc, false_and, Bool.false_eq_true, false_or, reduceCtorEq, iff_false]
    exact fun h => hfold' ⟨h.1, h.2.1⟩

/-- In a continuation the blanks are skipped, and the first byte after them goes to the value. -/
theorem cons_mem_rest_headerLws (req : Request) (c : UInt8) (w : Str) :
    c :: w ∈ rest (⟨.headerLws⟩, req) ↔
      match Parser.step (⟨.headerLws⟩, req) c with
      | .ok next => w ∈ rest next
      | .error result => result = .good ∧ w = [] := by
  simp only [rest, missing, cons_mem_afterBlanks, Parser.step]
  split_ifs with hcr hblank htext
  · subst hcr
    simp [show visibleByte CR = false from rfl, show blankByte CR = false from rfl]
  · have hc : blankByte c = true := hblank
    simp [hcr, hc, not_visibleByte hc]
  · -- the blanks are over, so the byte is no control character and no space
    have hc : blankByte c = false := Bool.not_eq_true _ ▸ hblank
    have hsp : c ≠ SP := by
      rintro rfl
      simp at hblank
    simp [hcr, hc, visibleByte, htext, hsp, Request.pushValue]
  · have hc : blankByte c = false := Bool.not_eq_true _ ▸ hblank
    simp [hcr, hc, visibleByte, htext]

/-- The grammar follows the loop body byte by byte. -/
theorem cons_mem_rest (current : Parser × Request) (c : UInt8) (w : Str) :
    c :: w ∈ rest current ↔
      match Parser.step current c with
      | .ok next => w ∈ rest next
      | .error result => result = .good ∧ w = [] := by
  obtain ⟨⟨state⟩, req⟩ := current
  cases state
  case methodStart =>
    simp only [rest, missing, alpha, cons_mem_symbol_mul, Parser.step]
    split_ifs <;> simp_all [Request.pushMethod]
  case method =>
    simp only [rest, missing, alpha, byte, cons_mem_kstar_symbol_mul, cons_mem_symbol_mul,
      Parser.step]
    split_ifs <;> simp_all [Request.pushMethod, isalpha, isupper, islower, SP]
  case uri =>
    simp only [rest, missing, afterMethod, visible, byte, cons_mem_kstar_symbol_mul,
      cons_mem_symbol_mul, Parser.step]
    split_ifs <;> simp_all [Request.pushUri, visibleByte]
  case httpVersionMajor | httpVersionMinor =>
    simp only [rest, missing, afterMajor, afterMinor, digit, byte, cons_mem_kstar_symbol_mul,
      cons_mem_symbol_mul, Parser.step]
    split_ifs <;> simp_all [isdigit, CR, Char.toUInt8]
  case httpVersionMajorStart | httpVersionMinorStart =>
    simp only [rest, missing, digit, cons_mem_symbol_mul, Parser.step]
    split_ifs <;> simp_all
  case headerLineStart => exact cons_mem_rest_headerLineStart req c w
  case headerLws => exact cons_mem_rest_headerLws req c w
  case headerName =>
    simp only [rest, missing, afterName, nameChar, byte, cons_mem_kstar_symbol_mul,
      cons_mem_symbol_mul, Parser.step]
    split_ifs <;> simp_all [nameByte, iscntrl, SP, COLON, Request.pushName]
  case headerValue =>
    simp only [rest, missing, afterValue, text, byte, cons_mem_kstar_symbol_mul,
      cons_mem_symbol_mul, Parser.step]
    split_ifs with hcr hctl
    · subst hcr
      simp [show iscntrl CR = true from rfl]
    · simp [hcr, hctl]
    · simp [hcr, hctl, Request.pushValue]
  case expectingNewline3 =>
    simp only [rest, missing, byte, cons_mem_symbol, Parser.step]
    split_ifs <;> simp_all
  all_goals
    simp only [rest, missing, afterUri, lineEnd, byte, cons_mem_symbol_mul, Parser.step, expect]
    split_ifs <;> simp_all

/-- A shortest way to end a request from each state. -/
def completion : State → Str
  | .methodStart => ascii "G / HTTP/1.1\x0d\n\x0d\n"
  | .method => ascii " / HTTP/1.1\x0d\n\x0d\n"
  | .uri => ascii " HTTP/1.1\x0d\n\x0d\n"
  | .httpVersionH => ascii "HTTP/1.1\x0d\n\x0d\n"
  | .httpVersionT1 => ascii "TTP/1.1\x0d\n\x0d\n"
  | .httpVersionT2 => ascii "TP/1.1\x0d\n\x0d\n"
  | .httpVersionP => ascii "P/1.1\x0d\n\x0d\n"
  | .httpVersionSlash => ascii "/1.1\x0d\n\x0d\n"
  | .httpVersionMajorStart => ascii "1.1\x0d\n\x0d\n"
  | .httpVersionMajor => ascii ".1\x0d\n\x0d\n"
  | .httpVersionMinorStart => ascii "1\x0d\n\x0d\n"
  | .httpVersionMinor => ascii "\x0d\n\x0d\n"
  | .expectingNewline1 => ascii "\n\x0d\n"
  | .headerLineStart => ascii "\x0d\n"
  | .headerLws => ascii "\x0d\n\x0d\n"
  | .headerName => ascii ": \x0d\n\x0d\n"
  | .spaceBeforeHeaderValue => ascii " \x0d\n\x0d\n"
  | .headerValue => ascii "\x0d\n\x0d\n"
  | .expectingNewline2 => ascii "\n\x0d\n"
  | .expectingNewline3 => ascii "\n"

/-- No state is dead. -/
theorem scan_completion (state : State) (req : Request) :
    (scan Parser.step (⟨state⟩, req) (completion state)).2 = some .good := by
  cases state <;> rfl

theorem residual_rest : Residual Parser.step .good rest where
  nil_notMem := nil_notMem_rest
  mem_ok w h := by rw [cons_mem_rest, h]
  mem_error w h := by rw [cons_mem_rest, h]
  live current := ⟨completion current.1.state, scan_completion _ _⟩

/-! ## The specification of `parse` -/

/-- The result of a parse in terms of the verdict of the scan. -/
theorem Parser.parse_result (parser : Parser) (req : Request) (w : Str) :
    ((parser.parse req w).2.2 = .good ↔ (scan Parser.step (parser, req) w).2 = some .good) ∧
    ((parser.parse req w).2.2 = .bad ↔
      ∃ v, v ≠ .good ∧ (scan Parser.step (parser, req) w).2 = some v) := by
  rcases hscan : scan Parser.step (parser, req) w with ⟨next, _ | v⟩
  · simp [Parser.parse, hscan]
  · rcases Parser.scan_verdict hscan with rfl | rfl <;> simp [Parser.parse, hscan]

/-- **The parser decides the request grammar at the earliest byte, however the bytes are cut.**
With `bytes` what the chunks make up together: the outcome is `GOOD` when a prefix of `bytes` is
a request, `BAD` when no continuation of `bytes` has such a prefix, `INDETERMINATE` otherwise;
and the parser, the request and the outcome are those of a single call on `bytes`. -/
theorem parseChunks_spec (major minor : Int) (chunks : List Str) :
    let bytes := chunks.flatten
    let outcome := Parser.parseChunks {} (.empty major minor) chunks
    (outcome.2.2 = .good ↔ ∃ p, p <+: bytes ∧ p ∈ message) ∧
    (outcome.2.2 = .bad ↔ ¬ ∃ e p, p <+: bytes ++ e ∧ p ∈ message) ∧
    (outcome.2.2 = .indeterminate ↔ (¬ ∃ p, p <+: bytes ∧ p ∈ message) ∧
      ∃ e p, p <+: bytes ++ e ∧ p ∈ message) ∧
    outcome = Parser.parse {} (.empty major minor) bytes := by
  intro bytes outcome
  have hsame : outcome = Parser.parse {} (.empty major minor) bytes := Parser.parseChunks_eq ..
  obtain ⟨hresultGood, hresultBad⟩ := Parser.parse_result {} (.empty major minor) bytes
  have hgood : outcome.2.2 = .good ↔ ∃ p, p <+: bytes ∧ p ∈ message := by
    rw [hsame, hresultGood, ← residual_rest.exists_prefix_iff, rest_start]
  have hbad : outcome.2.2 = .bad ↔ ¬ ∃ e p, p <+: bytes ++ e ∧ p ∈ message := by
    rw [hsame, hresultBad, ← residual_rest.not_exists_extension_iff, rest_start]
  refine ⟨hgood, hbad, ?_, hsame⟩
  have hlive : (∃ e p, p <+: bytes ++ e ∧ p ∈ message) ↔ outcome.2.2 ≠ .bad := by
    rw [Ne, hbad, not_not]
  rw [← hgood, hlive]
  cases outcome.2.2 <;> simp

end GinCpp.Http
