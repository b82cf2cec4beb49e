import GinCpp.Http.HeaderLines
import GinCpp.Separator.Basic

/-!
# The response serializer

`http/response.cpp`.  `toBuffers` is the list of buffers handed to the socket.  A client looks for
the first empty line: `Response.breakOn_bytes` says what it finds in front of it.
-/

namespace GinCpp.Http

/-- `status_strings::to_buffer`. -/
def StatusCode.toBuffer : StatusCode → Str
  | ok => ascii "HTTP/1.0 200 OK\x0d\n"
  | created => ascii "HTTP/1.0 201 Created\x0d\n"
  | accepted => ascii "HTTP/1.0 202 Accepted\x0d\n"
  | noContent => ascii "HTTP/1.0 204 No Content\x0d\n"
  | multipleChoices => ascii "HTTP/1.0 300 Multiple Choices\x0d\n"
  | movedPermanently => ascii "HTTP/1.0 301 Moved Permanently\x0d\n"
  | movedTemporarily => ascii "HTTP/1.0 302 Moved Temporarily\x0d\n"
  | notModified => ascii "HTTP/1.0 304 Not Modified\x0d\n"
  | badRequest => ascii "HTTP/1.0 400 Bad Request\x0d\n"
  | unauthorized => ascii "HTTP/1.0 401 Unauthorized\x0d\n"
  | forbidden => ascii "HTTP/1.0 403 Forbidden\x0d\n"
  | notFound => ascii "HTTP/1.0 404 Not Found\x0d\n"
  | internalServerError => ascii "HTTP/1.0 500 Internal Server Error\x0d\n"
  | notImplemented => ascii "HTTP/1.0 501 Not Implemented\x0d\n"
  | badGateway => ascii "HTTP/1.0 502 Bad Gateway\x0d\n"
  | serviceUnavailable => ascii "HTTP/1.0 503 Service Unavailable\x0d\n"

namespace MiscStrings

def nameValueSeparator : Str := [COLON, SP]

def crlf : Str := [CR, LF]

end MiscStrings

/-- The buffers of one turn of the loop in `to_buffers`. -/
def Header.toBuffers (h : Header) : List Str :=
  [h.name, MiscStrings.nameValueSeparator, h.value, MiscStrings.crlf]

/-- `Response::to_buffers`. -/
def Response.toBuffers (response : Response) : List Str :=
  response.status.toBuffer ::
    (response.headers.flatMap Header.toBuffers ++ [MiscStrings.crlf, response.content])

/-- What the socket sends. -/
def Response.bytes (response : Response) : Str := response.toBuffers.flatten

/-- What the socket sends between the status line and the content. -/
def Response.headerBytes (response : Response) : Str := response.toBuffers.tail.dropLast.flatten

theorem Header.flatten_toBuffers (h : Header) : h.toBuffers.flatten = h.line := by
  have hseparator : MiscStrings.nameValueSeparator = ascii ": " := rfl
  simp [Header.toBuffers, Header.line, MiscStrings.crlf, hseparator]

theorem flatten_flatMap_toBuffers (headers : List Header) :
    (headers.flatMap Header.toBuffers).flatten = headers.flatMap Header.line := by
  induction headers with
  | nil => rfl
  | cons header headers ih =>
      rw [List.flatMap_cons, List.flatten_append, ih, Header.flatten_toBuffers, List.flatMap_cons]

theorem Response.headerBytes_eq (response : Response) :
    response.headerBytes = response.headers.flatMap Header.line ++ MiscStrings.crlf := by
  have hbuffers : response.toBuffers.tail.dropLast =
      response.headers.flatMap Header.toBuffers ++ [MiscStrings.crlf] := by
    rw [toBuffers, List.tail_cons, List.dropLast_append_of_ne_nil (by simp)]
    rfl
  rw [headerBytes, hbuffers, List.flatten_append, flatten_flatMap_toBuffers, List.flatten_singleton]

theorem Response.bytes_eq (response : Response) :
    response.bytes = response.status.toBuffer ++ response.headerBytes ++ response.content := by
  rw [headerBytes_eq, bytes, toBuffers, List.flatten_cons, List.flatten_append,
    flatten_flatMap_toBuffers]
  simp

/-! ## What a client reads -/

/-- Text within one line. -/
def Unbroken (text : Str) : Prop := CR ∉ text ∧ LF ∉ text

theorem Unbroken.append {first second : Str} (h : Unbroken first) (h' : Unbroken second) :
    Unbroken (first ++ second) :=
  ⟨by simp [h.1, h'.1], by simp [h.2, h'.2]⟩

theorem unbroken_of_not_iscntrl {text : Str} (h : ∀ c ∈ text, iscntrl c = false) :
    Unbroken text :=
  ⟨fun hcr => absurd (h CR hcr) (by decide), fun hlf => absurd (h LF hlf) (by decide)⟩

/-- `name: value`. -/
def Header.text (h : Header) : Str := h.name ++ ascii ": " ++ h.value

/-- The status line without its end. -/
def StatusCode.statusLine (status : StatusCode) : Str := status.toBuffer.dropLast.dropLast

/-- The lines of a response in front of its empty line. -/
def Response.lines (response : Response) : List Str :=
  response.status.statusLine :: response.headers.map Header.text

/-- A status line is one line. -/
theorem StatusCode.toBuffer_eq (status : StatusCode) :
    status.toBuffer = status.statusLine ++ MiscStrings.crlf ∧ status.statusLine ≠ [] ∧
      ∀ c ∈ status.statusLine, iscntrl c = false := by
  cases status <;> decide +kernel

theorem Header.text_ne_nil (h : Header) : h.text ≠ [] := by
  simp [text, ascii]

theorem Header.unbroken_text {h : Header} (hname : Unbroken h.name) (hvalue : Unbroken h.value) :
    Unbroken h.text :=
  (hname.append ⟨by decide, by decide⟩).append hvalue

theorem Response.bytes_eq_lines (response : Response) :
    response.bytes = MiscStrings.crlf.intercalate response.lines ++
      ([CR, LF, CR, LF] ++ response.content) := by
  have hlines : response.lines.flatMap (· ++ MiscStrings.crlf) =
      response.status.toBuffer ++ response.headers.flatMap Header.line := by
    rw [lines, List.flatMap_cons, ← response.status.toBuffer_eq.1, List.flatMap_map]
    rfl
  calc response.bytes
      = response.lines.flatMap (· ++ MiscStrings.crlf) ++
          (MiscStrings.crlf ++ response.content) := by
        rw [bytes_eq, headerBytes_eq, hlines]
        simp
    _ = MiscStrings.crlf.intercalate response.lines ++ ([CR, LF, CR, LF] ++ response.content) := by
        have hne : response.lines ≠ [] := List.cons_ne_nil _ _
        rw [← Separator.intercalate_append hne, List.append_assoc]
        rfl

theorem Response.unbroken_lines {response : Response}
    (h : ∀ header ∈ response.headers, Unbroken header.name ∧ Unbroken header.value) :
    ∀ line ∈ response.lines, Unbroken line := by
  refine List.forall_mem_cons.mpr ⟨?_, ?_⟩
  · exact unbroken_of_not_iscntrl response.status.toBuffer_eq.2.2
  · intro line hline
    obtain ⟨header, hheader, rfl⟩ := List.mem_map.mp hline
    exact Header.unbroken_text (h header hheader).1 (h header hheader).2

/-- **The first empty line is the one behind the headers.** -/
theorem Response.breakOn_bytes {response : Response}
    (h : ∀ header ∈ response.headers, Unbroken header.name ∧ Unbroken header.value) :
    Separator.breakOn [CR, LF, CR, LF] response.bytes =
      some (MiscStrings.crlf.intercalate response.lines, response.content) := by
  rw [bytes_eq_lines]
  apply Separator.breakOn_lines (by decide) (List.cons_ne_nil _ _)
  intro line hline
  refine ⟨?_, (unbroken_lines h line hline).1⟩
  rcases List.mem_cons.mp hline with rfl | hmem
  · exact response.status.toBuffer_eq.2.1
  · obtain ⟨header, -, rfl⟩ := List.mem_map.mp hmem
    exact header.text_ne_nil

end GinCpp.Http
