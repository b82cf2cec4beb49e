import GinCpp.Logging.Formatter
import GinCpp.Middleware.ErrorHandler
import GinCpp.Utils.Encoding

/-!
# JSON that is put together by hand

`ErrorRenderer::render` and `JsonFormatter::format` put texts between quotation marks as they are.
What is decoded is what was put in, if and only if no character of the texts needs an escape and the
latency is a number (`decodes_iff`).
-/

namespace GinCpp.Logging

open Http Json Middleware Utils

/-! ## Texts of ASCII -/

/-- A byte string of characters that stand for themselves. -/
def Plain (text : Str) : Prop := ∃ chars, text = utf8 chars ∧ Verbatim chars

theorem Plain.append {text more : Str} (h : Plain text) (h' : Plain more) :
    Plain (text ++ more) := by
  obtain ⟨chars, rfl, hchars⟩ := h
  obtain ⟨others, rfl, hothers⟩ := h'
  exact ⟨chars ++ others, (utf8_append _ _).symm, List.forall_mem_append.mpr ⟨hchars, hothers⟩⟩

theorem plain_ascii {text : String} (h : text.toList.all (·.toNat < 128))
    (hverbatim : Verbatim text.toList) : Plain (ascii text) :=
  ⟨_, ascii_eq_utf8 h, hverbatim⟩

theorem verbatim_of_isDigit {chars : List Char} (h : ∀ c ∈ chars, c.isDigit) : Verbatim chars := by
  intro c hc
  obtain ⟨hle, hge, -⟩ := toNat_of_isDigit (h c hc)
  refine ⟨?_, ?_, by omega⟩
  · rintro rfl
    exact absurd hle (by decide)
  · rintro rfl
    exact absurd hge (by decide)

/-- The digits of a number with zeros in front. -/
def paddedDigits (width n : ℕ) : List Char :=
  List.replicate (width - (Nat.toDigits 10 n).length) '0' ++ Nat.toDigits 10 n

theorem padded_eq_utf8 (width n : ℕ) : padded width n = utf8 (paddedDigits width n) := by
  have hlength : (Http.toString n).length = (Nat.toDigits 10 n).length := List.length_map _
  have hzeros : ∀ k, List.replicate k '0'.toUInt8 = utf8 (List.replicate k '0') := by
    intro k
    rw [utf8_of_ascii (by simp), List.map_replicate]
  rw [padded, hlength, hzeros, toString_eq_utf8, ← utf8_append]
  rfl

theorem isDigit_of_mem_paddedDigits {width n : ℕ} {c : Char} (h : c ∈ paddedDigits width n) :
    c.isDigit := by
  rcases List.mem_append.mp h with hzero | hdigit
  · rw [List.eq_of_mem_replicate hzero]
    rfl
  · exact Nat.isDigit_of_mem_toDigits (by omega) (by omega) hdigit

theorem plain_toString (n : ℕ) : Plain (Http.toString n) :=
  ⟨_, toString_eq_utf8 n,
    verbatim_of_isDigit fun _ hc => Nat.isDigit_of_mem_toDigits (by omega) (by omega) hc⟩

theorem plain_padded (width n : ℕ) : Plain (padded width n) :=
  ⟨_, padded_eq_utf8 width n, verbatim_of_isDigit fun _ hc => isDigit_of_mem_paddedDigits hc⟩

theorem plain_timeToString (localtime : ℤ → BrokenDownTime) (timestamp : ℤ) :
    Plain (timeToString localtime timestamp) := by
  have hdash : Plain (ascii "-") := plain_ascii (by decide) (by decide)
  have hspace : Plain (ascii " ") := plain_ascii (by decide) (by decide)
  have hcolon : Plain (ascii ":") := plain_ascii (by decide) (by decide)
  have hdate : Plain (ascii "-" ++ padded 2 (localtime (toTimeT timestamp)).month ++ ascii "-" ++
      padded 2 (localtime (toTimeT timestamp)).day) :=
    ((hdash.append (plain_padded _ _)).append hdash).append (plain_padded _ _)
  have htime : Plain (ascii " " ++ padded 2 (localtime (toTimeT timestamp)).hour ++ ascii ":" ++
      padded 2 (localtime (toTimeT timestamp)).minute ++ ascii ":" ++
      padded 2 (localtime (toTimeT timestamp)).second) :=
    ((((hspace.append (plain_padded _ _)).append hcolon).append (plain_padded _ _)).append
      hcolon).append (plain_padded _ _)
  have htext := (plain_toString (localtime (toTimeT timestamp)).year).append (hdate.append htime)
  simpa only [timeToString, List.append_assoc] using htext

/-! ## Numbers -/

def Double.IsFinite : Double → Prop
  | finite _ _ _ => True
  | _ => False

/-- A latency is printed as a number, unless it is not one. -/
theorem Double.exists_fixed (latency : Double) :
    ∃ chars value, latency.fixed = utf8 chars ∧ Reads chars value ∧
      (value.isSome ↔ latency.IsFinite) := by
  cases latency with
  | finite negative mantissa exponent =>
      refine ⟨numeral negative (Nat.toDigits 10 (millionths mantissa exponent / 1000000))
        (paddedDigits 6 (millionths mantissa exponent % 1000000)), some _, ?_,
        reads_numeral negative (integerPart_toDigits _) fun _ hc => isDigit_of_mem_paddedDigits hc,
        by simp [IsFinite]⟩
      have hne : paddedDigits 6 (millionths mantissa exponent % 1000000) ≠ [] :=
        List.append_ne_nil_of_right_ne_nil _ Nat.toDigits_ne_nil
      have hpoint : ascii "." = utf8 ['.'] := ascii_eq_utf8 (by decide)
      rw [fixed, sign_eq_utf8, toString_eq_utf8, hpoint, padded_eq_utf8, ← utf8_append,
        ← utf8_append, ← utf8_append, numeral, behindPoint, if_neg hne]
      simp
  | infinite negative =>
      have hname : ascii "inf" = utf8 "inf".toList := ascii_eq_utf8 (by decide)
      refine ⟨(if negative then ['-'] else []) ++ "inf".toList, none, ?_, fun fuel cs _ => ?_,
        by simp [IsFinite]⟩
      · rw [fixed, sign_eq_utf8, hname, ← utf8_append]
      · cases negative <;> rfl
  | nan negative =>
      have hname : ascii "nan" = utf8 "nan".toList := ascii_eq_utf8 (by decide)
      refine ⟨(if negative then ['-'] else []) ++ "nan".toList, none, ?_, fun fuel cs _ => ?_,
        by simp [IsFinite]⟩
      · rw [fixed, sign_eq_utf8, hname, ← utf8_append]
      · cases negative with
        | true => rfl
        | false =>
            have hnull : ¬ "null".toList <+: 'n' :: 'a' :: 'n' :: cs := by
              simp [List.cons_prefix_cons]
            change readName "null".toList .null ('n' :: 'a' :: 'n' :: cs) = none
            rw [readName, if_neg hnull]

/-! ## The error body -/

/-- The content is an object with the status and the message, and nothing else. -/
def TellsError (response : Response) (status : StatusCode) (message : List Char) : Prop :=
  Denotes response.content (.object
    [("status".toList, .number status.code 0), ("error".toList, .text message)])

/-- The members of an error body. -/
def errorStatus (status : StatusCode) : Field :=
  .other "status".toList (numeral false (Nat.toDigits 10 status.code) [])
    (some (.number status.code 0))

theorem content_render (response : Response) (status : StatusCode) (message : List Char)
    (front back : Str) :
    (ErrorRenderer.render response status (utf8 message)
      (front ++ ascii "application/json" ++ back)).content =
        utf8 (objectText (errorStatus status) [.text "error".toList message]) := by
  have haccept : ascii "application/json" <:+: front ++ ascii "application/json" ++ back :=
    ⟨front, back, rfl⟩
  have hopen : ascii "\x7b\"status\": " = utf8 "\x7b\"status\": ".toList :=
    ascii_eq_utf8 (by decide)
  have herror : ascii ", \"error\": \"" = utf8 ", \"error\": \"".toList := ascii_eq_utf8 (by decide)
  have hclose : ascii "\"\x7d" = utf8 "\"\x7d".toList := ascii_eq_utf8 (by decide)
  rw [ErrorRenderer.render, if_pos haccept, ErrorRenderer.renderJson, ErrorRenderer.rendered]
  dsimp only
  rw [hopen, herror, hclose, toString_eq_utf8, ← utf8_append, ← utf8_append, ← utf8_append,
    ← utf8_append]
  congr 1
  simp [objectText, closing, Field.written, errorStatus, member, quoted, numeral, behindPoint]

theorem sound_errorStatus (status : StatusCode) : (errorStatus status).Sound := by
  have hsign : decide ((status.code : ℤ) < 0) = false := by simp
  have hreads := reads_integer status.code
  rw [hsign, Int.natAbs_natCast] at hreads
  exact ⟨by decide, hreads⟩

theorem tellsError_iff (response : Response) (status : StatusCode) (message : List Char)
    (front back : Str) :
    TellsError (ErrorRenderer.render response status (utf8 message)
      (front ++ ascii "application/json" ++ back)) status message ↔ Verbatim message := by
  have hsound : ∀ field ∈ [errorStatus status, .text "error".toList message], field.Sound := by
    refine List.forall_mem_cons.mpr ⟨sound_errorStatus status, List.forall_mem_singleton.mpr ?_⟩
    exact (by decide : Verbatim "error".toList)
  rw [TellsError, content_render, denotes_utf8]
  constructor
  · intro hread
    have hfaithful := faithful_of_read hsound hread ?_
    · exact hfaithful (.text "error".toList message) (by simp)
    · refine List.forall_mem_cons.mpr ⟨trivial, List.forall_mem_singleton.mpr ?_⟩
      intro value hvalue
      simpa using hvalue
  · intro hverbatim
    have hfaithful : ∀ field ∈ [errorStatus status, .text "error".toList message],
        field.Faithful := List.forall_mem_cons.mpr ⟨rfl, List.forall_mem_singleton.mpr hverbatim⟩
    exact read_of_faithful hsound hfaithful

/-! ## The log line -/

/-- The line is an object whose address, method and path are these texts. -/
def TellsRecord (line : Str) (remoteIp method path : List Char) : Prop :=
  ∃ members, Denotes line (.object members) ∧
    ∀ told ∈ [("remote_ip".toList, remoteIp), ("method".toList, method), ("path".toList, path)],
      ∀ value, (told.1, value) ∈ members ↔ value = .text told.2

/-- The first member of a log line. -/
def lineTime (time : List Char) : Field :=
  .other "timestamp".toList (quoted time) (some (.text time))

/-- The other members. -/
def lineFields (remoteIp method path : List Char) (statusCode : ℤ) (latency : List Char)
    (value : Option Value) : List Field :=
  [.text "remote_ip".toList remoteIp, .text "method".toList method, .text "path".toList path,
    .other "status".toList (numeral (statusCode < 0) (Nat.toDigits 10 statusCode.natAbs) [])
      (some (.number statusCode 0)),
    .other "latency_s".toList latency value]

theorem format_eq_utf8 (localtime : ℤ → BrokenDownTime) (record : LogRecord)
    {time remoteIp method path seconds : List Char} (value : Option Value)
    (htime : timeToString localtime record.timestamp = utf8 time)
    (hremoteIp : record.remoteIp = utf8 remoteIp) (hmethod : record.method = utf8 method)
    (hpath : record.path = utf8 path) (hseconds : record.latency.fixed = utf8 seconds) :
    JsonFormatter.format localtime record = utf8 (objectText (lineTime time)
      (lineFields remoteIp method path record.statusCode seconds value)) := by
  have hopen : ascii "\x7b" = utf8 "\x7b".toList := ascii_eq_utf8 (by decide)
  have htimestamp : ascii "\"timestamp\": \"" = utf8 "\"timestamp\": \"".toList :=
    ascii_eq_utf8 (by decide)
  have hip : ascii "\"remote_ip\": \"" = utf8 "\"remote_ip\": \"".toList :=
    ascii_eq_utf8 (by decide)
  have hname : ascii "\"method\": \"" = utf8 "\"method\": \"".toList := ascii_eq_utf8 (by decide)
  have huri : ascii "\"path\": \"" = utf8 "\"path\": \"".toList := ascii_eq_utf8 (by decide)
  have hstatus : ascii "\"status\": " = utf8 "\"status\": ".toList := ascii_eq_utf8 (by decide)
  have hlatency : ascii "\"latency_s\": " = utf8 "\"latency_s\": ".toList :=
    ascii_eq_utf8 (by decide)
  have hnext : ascii "\", " = utf8 "\", ".toList := ascii_eq_utf8 (by decide)
  have hcomma : ascii ", " = utf8 ", ".toList := ascii_eq_utf8 (by decide)
  have hclose : ascii "\x7d" = utf8 "\x7d".toList := ascii_eq_utf8 (by decide)
  delta JsonFormatter.format
  simp only [hopen, htimestamp, hip, hname, huri, hstatus, hlatency, hnext,
    hcomma, hclose, htime, hremoteIp, hmethod, hpath, hseconds, intToString_eq_utf8, ← utf8_append]
  refine congrArg utf8 ?_
  simp [objectText, closing, lineTime, lineFields, Field.written, member, quoted]

section

variable {time remoteIp method path seconds : List Char} {statusCode : ℤ} {value : Option Value}

theorem sound_line (htime : Verbatim time) (hseconds : Reads seconds value) :
    ∀ field ∈ lineTime time :: lineFields remoteIp method path statusCode seconds value,
      field.Sound := by
  have hkey : ∀ key ∈ ["remote_ip".toList, "method".toList, "path".toList], Verbatim key := by
    decide
  simp only [lineTime, lineFields, List.forall_mem_cons, List.not_mem_nil, false_implies,
    implies_true, and_true] at hkey ⊢
  exact ⟨⟨by decide, reads_quoted htime⟩, hkey.1, hkey.2.1, hkey.2.2,
    ⟨by decide, reads_integer statusCode⟩, by decide, hseconds⟩

theorem faithful_line :
    (∀ field ∈ lineTime time :: lineFields remoteIp method path statusCode seconds value,
      field.Faithful) ↔
        Verbatim remoteIp ∧ Verbatim method ∧ Verbatim path ∧ value.isSome := by
  simp [lineTime, lineFields, Field.Faithful]

end

theorem tellsRecord_iff (localtime : ℤ → BrokenDownTime) (timestamp statusCode : ℤ)
    (latency : Double) (remoteIp method path : List Char) :
    TellsRecord (JsonFormatter.format localtime
      ⟨timestamp, utf8 remoteIp, utf8 method, utf8 path, statusCode, latency⟩)
        remoteIp method path ↔
      Verbatim remoteIp ∧ Verbatim method ∧ Verbatim path ∧ latency.IsFinite := by
  obtain ⟨time, htime, hverbatim⟩ := plain_timeToString localtime timestamp
  obtain ⟨seconds, value, hseconds, hreads, hfinite⟩ := latency.exists_fixed
  have hsound : ∀ field ∈ lineTime time :: lineFields remoteIp method path statusCode seconds value,
      field.Sound := sound_line hverbatim hreads
  have hformat := format_eq_utf8 localtime
    ⟨timestamp, utf8 remoteIp, utf8 method, utf8 path, statusCode, latency⟩ value htime rfl rfl rfl
    hseconds
  rw [TellsRecord, hformat, ← hfinite, ← faithful_line]
  constructor
  · rintro ⟨members, hdenotes, htold⟩
    refine faithful_of_read hsound (denotes_utf8.mp hdenotes) ?_
    simp only [List.forall_mem_cons, List.not_mem_nil, false_implies, implies_true,
      and_true] at htold
    simp only [lineTime, lineFields, List.forall_mem_cons, List.not_mem_nil, false_implies,
      implies_true, and_true]
    exact ⟨trivial, fun value => (htold.1 value).mp, fun value => (htold.2.1 value).mp,
      fun value => (htold.2.2 value).mp, trivial, trivial⟩
  · intro hfaithful
    refine ⟨_, denotes_utf8.mpr (read_of_faithful hsound hfaithful), ?_⟩
    simp [lineTime, lineFields, Field.meant]

/-- **What is decoded is what was put in**, unless an escape is missing or a latency is not a
number. -/
theorem decodes_iff (response : Response) (status : StatusCode) (message : List Char)
    (front back : Str) (localtime : ℤ → BrokenDownTime) (timestamp statusCode : ℤ)
    (latency : Double) (remoteIp method path : List Char) :
    (TellsError (ErrorRenderer.render response status (utf8 message)
      (front ++ ascii "application/json" ++ back)) status message ↔ Verbatim message) ∧
    (TellsRecord (JsonFormatter.format localtime
      ⟨timestamp, utf8 remoteIp, utf8 method, utf8 path, statusCode, latency⟩)
        remoteIp method path ↔
      Verbatim remoteIp ∧ Verbatim method ∧ Verbatim path ∧ latency.IsFinite) :=
  ⟨tellsError_iff response status message front back,
    tellsRecord_iff localtime timestamp statusCode latency remoteIp method path⟩

/-- An exception with a quotation mark in its text. -/
theorem not_tellsError_quotation :
    ¬ TellsError (ErrorRenderer.render ⟨.ok, [], []⟩ .internalServerError
      (utf8 "missing \"id\"".toList) (ascii "application/json")) .internalServerError
        "missing \"id\"".toList := by
  have hiff := tellsError_iff ⟨.ok, [], []⟩ .internalServerError "missing \"id\"".toList [] []
  exact fun htells => absurd (hiff.mp htells) (by decide)

end GinCpp.Logging
