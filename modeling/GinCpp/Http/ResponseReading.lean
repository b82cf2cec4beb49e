import GinCpp.Framing.Basic
import GinCpp.Http.Serializer
import GinCpp.Http.Version

/-!
# Reading responses

What a client makes of the bytes of `to_buffers`.  It looks for the empty line, takes the lines in
front of it apart, and reads as many bytes of content as `Content-Length` says; the next response
begins behind them.  From a stream of responses that say how long they are it reads exactly those
responses (`readResponses_bytes`).
-/

namespace GinCpp.Http

open Separator Framing

/-! ## The client -/

/-- All status codes. -/
def StatusCode.all : List StatusCode :=
  [ok, created, accepted, noContent, multipleChoices, movedPermanently, movedTemporarily,
    notModified, badRequest, unauthorized, forbidden, notFound, internalServerError,
    notImplemented, badGateway, serviceUnavailable]

/-- The status of a status line, by its number. -/
def StatusCode.read (line : Str) : Option StatusCode :=
  all.find? fun status => toString status.code == (line.drop (ascii "HTTP/1.0 ").length).take 3

/-- A header line. -/
def Header.read (line : Str) : Option Header :=
  (breakOn [COLON, SP] line).map fun (name, value) => { name, value }

/-- A number, of at least one digit. -/
def readDecimal (text : Str) : Option ℕ :=
  if text ≠ [] ∧ text.all isdigit then some (decimal text) else none

/-- A header that gives the length of the content, its name in any case. -/
def Header.isContentLength (header : Header) : Bool :=
  header.name.map tolower == ascii "content-length"

/-- The length of the content, as the headers say. -/
def contentLength (headers : List Header) : Option ℕ :=
  (headers.find? Header.isContentLength).bind fun header => readDecimal header.value

/-- A line of a text, without its end. -/
def readLine : Str → Option (Str × Str) := breakOn MiscStrings.crlf

/-- **A response at the front of a text**, and what follows it. -/
def readResponse (text : Str) : Option (Response × Str) := do
  let (head, body) ← breakOn [CR, LF, CR, LF] text
  match ← readAll readLine (head ++ MiscStrings.crlf) with
  | [] => none
  | line :: lines =>
      let status ← StatusCode.read line
      let headers ← lines.mapM Header.read
      let length ← contentLength headers
      if body.length < length then none
      else some ({ status, headers, content := body.take length }, body.drop length)

/-- The responses of a stream. -/
def readResponses : Str → Option (List Response) := readAll readResponse

/-! ## What the server sends -/

/-- A response that says how long it is, in headers that are lines. -/
structure Response.Framed (response : Response) : Prop where
  unbroken : ∀ header ∈ response.headers, Unbroken header.name ∧ Unbroken header.value
  names : ∀ header ∈ response.headers, COLON ∉ header.name
  length : (response.headers.find? Header.isContentLength).map Header.value =
    some (toString response.content.length)

instance (text : Str) : Decidable (Unbroken text) :=
  inferInstanceAs (Decidable (CR ∉ text ∧ LF ∉ text))

theorem StatusCode.read_statusLine (status : StatusCode) :
    StatusCode.read status.statusLine = some status := by
  cases status <;> decide +kernel

theorem Header.read_text {header : Header} (hname : COLON ∉ header.name) :
    Header.read header.text = some header := by
  have hbreak : breakOn [COLON, SP] ([COLON, SP] ++ header.value) = some ([], header.value) :=
    breakOn_append _ _
  have htext : header.text = header.name ++ ([COLON, SP] ++ header.value) :=
    List.append_assoc _ _ _
  rw [Header.read, htext, breakOn_append_of_notMem hname, hbreak]
  simp

theorem decimal_toString (n : ℕ) : decimal (toString n) = n := by
  obtain ⟨c, digits, htext, hc, hdigits, hvalue⟩ := exists_digits n
  rw [htext]
  exact Int.ofNat.inj ((readNumber_eq hc hdigits).symm.trans hvalue)

theorem readDecimal_toString (n : ℕ) : readDecimal (toString n) = some n := by
  have hnumber : toString n ≠ [] ∧ (toString n).all isdigit := by
    obtain ⟨c, digits, htext, -⟩ := exists_digits n
    refine ⟨by rw [htext]; exact List.cons_ne_nil _ _, List.all_eq_true.mpr fun d hd => ?_⟩
    exact isdigit_of_mem_toString hd
  rw [readDecimal, if_pos hnumber, decimal_toString]

theorem readLine_append {line : Str} (h : CR ∉ line) (rest : Str) :
    readLine (line ++ MiscStrings.crlf ++ rest) = some (line, rest) := by
  rw [readLine, List.append_assoc]
  show breakOn (CR :: [LF]) _ = _
  rw [breakOn_append_of_notMem h]
  have hbreak : breakOn [CR, LF] (MiscStrings.crlf ++ rest) = some ([], rest) := breakOn_append _ _
  rw [hbreak]
  simp

namespace Response

variable {response : Response}

/-- The lines in front of the empty line are found again. -/
theorem Framed.readAll_lines (h : response.Framed) :
    readAll readLine (MiscStrings.crlf.intercalate response.lines ++ MiscStrings.crlf) =
      some response.lines := by
  have hne : response.lines ≠ [] := List.cons_ne_nil _ _
  rw [intercalate_append hne]
  apply readAll_flatMap
  · intro line hline rest
    exact readLine_append (unbroken_lines h.unbroken line hline).1 rest
  · intro line _
    exact List.append_ne_nil_of_right_ne_nil _ (List.cons_ne_nil _ _)

theorem Framed.mapM_read (h : response.Framed) :
    (response.headers.map Header.text).mapM Header.read = some response.headers := by
  have hnames := h.names
  generalize response.headers = headers at hnames
  induction headers with
  | nil => rfl
  | cons header headers ih =>
      obtain ⟨hname, hnames⟩ := List.forall_mem_cons.mp hnames
      rw [List.map_cons, List.mapM_cons, Header.read_text hname, ih hnames]
      rfl

theorem Framed.contentLength_eq (h : response.Framed) :
    contentLength response.headers = some response.content.length := by
  obtain ⟨header, hfind, hvalue⟩ := Option.map_eq_some_iff.mp h.length
  rw [contentLength, hfind, Option.bind_some, hvalue, readDecimal_toString]

theorem Framed.breakOn_append (h : response.Framed) (rest : Str) :
    breakOn [CR, LF, CR, LF] (response.bytes ++ rest) =
      some (MiscStrings.crlf.intercalate response.lines, response.content ++ rest) := by
  have hbreak := breakOn_bytes h.unbroken
  have hoccurs : [CR, LF, CR, LF] <:+: response.bytes :=
    isSome_breakOn_iff.mp (by rw [hbreak]; rfl)
  rw [breakOn_append_of_isInfix hoccurs, hbreak]
  rfl

/-- **A response is read back whatever follows it.** -/
theorem Framed.readResponse_append (h : response.Framed) (rest : Str) :
    readResponse (response.bytes ++ rest) = some (response, rest) := by
  have hlines : response.lines = response.status.statusLine :: response.headers.map Header.text :=
    rfl
  have hlong : ¬ (response.content ++ rest).length < response.content.length := by
    rw [List.length_append]
    omega
  simp only [readResponse, h.breakOn_append, Option.bind_eq_bind, Option.bind_some,
    h.readAll_lines]
  rw [hlines]
  simp only [StatusCode.read_statusLine, h.mapM_read, h.contentLength_eq, Option.bind_some]
  rw [if_neg hlong, List.take_left, List.drop_left]

theorem bytes_ne_nil (response : Response) : response.bytes ≠ [] := by
  rw [bytes_eq, response.status.toBuffer_eq.1]
  simp [MiscStrings.crlf]

theorem framed_stockResponse (status : StatusCode) : (stockResponse status).Framed := by
  refine ⟨?_, ?_, rfl⟩
  · simp only [stockResponse, List.forall_mem_cons]
    exact ⟨by decide, by decide, List.forall_mem_nil _⟩
  · simp only [stockResponse, List.forall_mem_cons]
    exact ⟨by decide, by decide, List.forall_mem_nil _⟩

end Response

/-- **A stream of responses is read back as it was sent.** -/
theorem readResponses_bytes (responses : List Response)
    (h : ∀ response ∈ responses, response.Framed) :
    readResponses (responses.flatMap Response.bytes) = some responses :=
  readAll_flatMap (fun response hresponse => (h response hresponse).readResponse_append)
    fun response _ => response.bytes_ne_nil

/-- The content may hold an empty line. -/
theorem readResponses_stockResponse :
    let response : Response :=
      { status := .ok
        headers := [{ name := ascii "content-length", value := ascii "4" }]
        content := [CR, LF, CR, LF] }
    readResponses ([response, .stockResponse .notFound].flatMap Response.bytes) =
      some [response, .stockResponse .notFound] := by
  refine readResponses_bytes _ (List.forall_mem_cons.mpr ⟨⟨?_, ?_, ?_⟩, ?_⟩)
  · exact List.forall_mem_singleton.mpr ⟨by decide, by decide⟩
  · exact List.forall_mem_singleton.mpr (by decide)
  · decide +kernel
  · exact List.forall_mem_singleton.mpr (Response.framed_stockResponse .notFound)

end GinCpp.Http
