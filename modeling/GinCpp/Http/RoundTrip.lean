import GinCpp.Http.Serializer

/-!
# The header encoder and the header decoder

The serializer writes headers for a client, the parser reads those of a client; here the one is
fed to the other.  `parse_headerBytes_iff` says which headers survive.

Nothing but well-formed headers ever reaches a request (`Parser.wellFormed_parse`), so an
ill-formed one cannot come back as itself.  In the other direction each piece of the text is read
by `Scanner.scan_collect` and `Scanner.scan_absorb`, one push for each byte.
-/

namespace GinCpp.Http

open Scanner

/-! ## What the parser stores -/

/-- All headers read so far could be sent in one line each. -/
def Request.WellFormed (req : Request) : Prop := ∀ header ∈ req.headers, header.wellFormed = true

theorem Header.wellFormed_iff {header : Header} :
    header.wellFormed = true ↔ header.name ≠ [] ∧ (∀ c ∈ header.name, nameByte c = true) ∧
      ∀ c ∈ header.value, iscntrl c = false := by
  simp [wellFormed, and_assoc]

theorem forall_mem_modifyBack {P : Header → Prop} {f : Header → Header} {headers : List Header}
    (hf : ∀ header, P header → P (f header)) (h : ∀ header ∈ headers, P header) :
    ∀ header ∈ modifyBack f headers, P header := by
  induction headers using List.reverseRecOn with
  | nil => exact h
  | append_singleton headers last _ =>
      rw [modifyBack_concat]
      intro header hmem
      rcases List.mem_append.mp hmem with hmem | hmem
      · exact h header (List.mem_append_left _ hmem)
      · rw [List.mem_singleton.mp hmem]
        exact hf last (h last (by simp))

namespace Request.WellFormed

variable {req : Request} {c : UInt8}

theorem pushHeader (h : req.WellFormed) (hc : nameByte c = true) :
    (req.pushHeader c).WellFormed := by
  intro header hmem
  rcases List.mem_append.mp hmem with hmem | hmem
  · exact h header hmem
  · rw [List.mem_singleton.mp hmem, Header.wellFormed_iff]
    simp [hc]

theorem pushName (h : req.WellFormed) (hc : nameByte c = true) : (req.pushName c).WellFormed := by
  apply forall_mem_modifyBack _ h
  intro header hheader
  obtain ⟨-, hname, hvalue⟩ := Header.wellFormed_iff.mp hheader
  refine Header.wellFormed_iff.mpr ⟨by simp, ?_, hvalue⟩
  exact List.forall_mem_append.mpr ⟨hname, by simpa using hc⟩

theorem pushValue (h : req.WellFormed) (hc : iscntrl c = false) : (req.pushValue c).WellFormed := by
  apply forall_mem_modifyBack _ h
  intro header hheader
  obtain ⟨hne, hname, hvalue⟩ := Header.wellFormed_iff.mp hheader
  refine Header.wellFormed_iff.mpr ⟨hne, hname, ?_⟩
  exact List.forall_mem_append.mpr ⟨hvalue, by simpa using hc⟩

end Request.WellFormed

/-- Only the four states that push onto a header can break it, and each checks its byte. -/
theorem Parser.wellFormed_step {current next : Parser × Request} {c : UInt8}
    (h : current.2.WellFormed) (hstep : Parser.step current c = .ok next) :
    next.2.WellFormed := by
  obtain ⟨⟨state⟩, req⟩ := current
  cases state
  case headerLineStart =>
    simp only [Parser.step] at hstep
    split_ifs at hstep with hcr hfold hname <;> cases hstep
    · exact h
    · exact h
    · exact Request.WellFormed.pushHeader h hname
  case headerLws =>
    simp only [Parser.step] at hstep
    split_ifs at hstep with hcr hblank htext <;> cases hstep
    · exact h
    · exact h
    · exact Request.WellFormed.pushValue h (by simpa using htext)
  case headerName =>
    simp only [Parser.step] at hstep
    split_ifs at hstep with hcolon hname <;> cases hstep
    · exact h
    · apply Request.WellFormed.pushName h
      simp_all [nameByte]
  case headerValue =>
    simp only [Parser.step] at hstep
    split_ifs at hstep with hcr htext <;> cases hstep
    · exact h
    · exact Request.WellFormed.pushValue h (by simpa using htext)
  all_goals
    simp only [Parser.step, expect] at hstep
    split_ifs at hstep <;> cases hstep <;> exact h

/-- **Whatever the bytes, the headers of the request are well formed.** -/
theorem Parser.wellFormed_parse (parser : Parser) {req : Request} (h : req.WellFormed)
    (bytes : Str) : (parser.parse req bytes).2.1.WellFormed :=
  scan_induction (P := fun current => current.2.WellFormed)
    (fun _ _ _ hcurrent hstep => Parser.wellFormed_step hcurrent hstep) h

theorem Request.wellFormed_empty (major minor : Int) : (empty major minor).WellFormed := by
  simp [WellFormed]

/-! ## Decimal numbers -/

/-- The number that successive digits make up, as the parser computes it. -/
def readNumber (value : Int) (digits : Str) : Int :=
  digits.foldl (fun value c => value * 10 + digitValue c) value

theorem digitValue_toUInt8 {c : Char} (h : c.isDigit = true) :
    digitValue c.toUInt8 = (c.toNat - 48 : ℕ) := by
  obtain ⟨hlow, -, htoNat⟩ := toNat_of_isDigit h
  rw [digitValue, htoNat]
  omega

theorem readNumber_map {digits : List Char} (h : ∀ c ∈ digits, c.isDigit = true) (value : ℕ) :
    readNumber value (digits.map Char.toUInt8) = (Nat.ofDigitChars 10 digits value : ℕ) := by
  induction digits generalizing value with
  | nil => rfl
  | cons c digits ih =>
      obtain ⟨hc, hdigits⟩ := List.forall_mem_cons.mp h
      have hvalue : (value : Int) * 10 + digitValue c.toUInt8 =
          (10 * value + (c.toNat - '0'.toNat) : ℕ) := by
        rw [digitValue_toUInt8 hc]
        show _ = ((10 * value + (c.toNat - 48) : ℕ) : Int)
        omega
      calc readNumber value ((c :: digits).map Char.toUInt8)
          = readNumber (value * 10 + digitValue c.toUInt8) (digits.map Char.toUInt8) := rfl
        _ = (Nat.ofDigitChars 10 (c :: digits) value : ℕ) := by
            rw [hvalue, ih hdigits, Nat.ofDigitChars_cons]

/-- A number is written with at least one digit, and reading the digits gives it back. -/
theorem exists_digits (n : ℕ) : ∃ c digits, toString n = c :: digits ∧ isdigit c = true ∧
    (∀ d ∈ digits, isdigit d = true) ∧ readNumber (digitValue c) digits = n := by
  obtain ⟨c, digits, hcons⟩ : ∃ c digits, toString n = c :: digits :=
    List.exists_cons_of_ne_nil (by simp [toString, Nat.toDigits_ne_nil])
  have hall : ∀ d ∈ c :: digits, isdigit d = true := fun d hd =>
    isdigit_of_mem_toString (hcons ▸ hd)
  refine ⟨c, digits, hcons, hall c List.mem_cons_self,
    fun d hd => hall d (List.mem_cons_of_mem c hd), ?_⟩
  have hchars : ∀ d ∈ Nat.toDigits 10 n, d.isDigit = true := fun d hd =>
    Nat.isDigit_of_mem_toDigits (by decide) (by decide) hd
  calc readNumber (digitValue c) digits
      = readNumber (0 : ℕ) (c :: digits) := by simp [readNumber]
    _ = n := by rw [← hcons, toString, readNumber_map hchars, Nat.ofDigitChars_ten_toDigits]

/-! ## The request line -/

/-- The request line of a client. -/
def requestLineBytes (method uri : Str) (major minor : ℕ) : Str :=
  method ++ SP :: (uri ++ SP :: (ascii "HTTP/" ++
    (toString major ++ '.'.toUInt8 :: (toString minor ++ [CR, LF]))))

variable (req : Request) (w : Str)

theorem scan_method {text : Str} (htext : ∀ c ∈ text, isalpha c = true) (method : Str) :
    scan Parser.step (⟨.method⟩, { req with method }) (text ++ w) =
      scan Parser.step (⟨.method⟩, { req with method := method ++ text }) w := by
  refine scan_collect (fun method => ((⟨.method⟩ : Parser), ({ req with method } : Request)))
    (fun method c hc => ?_) method
  have hsp : c ≠ SP := by
    rintro rfl
    exact absurd (htext SP hc) (by decide)
  simp [Parser.step, hsp, htext c hc, Request.pushMethod]

theorem scan_uri {text : Str} (htext : ∀ c ∈ text, visibleByte c = true) (uri : Str) :
    scan Parser.step (⟨.uri⟩, { req with uri }) (text ++ w) =
      scan Parser.step (⟨.uri⟩, { req with uri := uri ++ text }) w := by
  refine scan_collect (fun uri => ((⟨.uri⟩ : Parser), ({ req with uri } : Request)))
    (fun uri c hc => ?_) uri
  obtain ⟨hcntrl, hsp⟩ : iscntrl c = false ∧ c ≠ SP := by simpa [visibleByte] using htext c hc
  simp [Parser.step, hsp, hcntrl, Request.pushUri]

/-- A number is read, the first digit in a state of its own. -/
theorem scan_digits {start : Parser × Request} (embed : Int → Parser × Request)
    (hfirst : ∀ c, isdigit c = true → Parser.step start c = .ok (embed (digitValue c)))
    (hstep : ∀ value c, isdigit c = true →
      Parser.step (embed value) c = .ok (embed (value * 10 + digitValue c))) {c : UInt8}
    {digits : Str} (hc : isdigit c = true) (hdigits : ∀ d ∈ digits, isdigit d = true) :
    scan Parser.step start (c :: digits ++ w) =
      scan Parser.step (embed (readNumber (digitValue c) digits)) w := by
  rw [List.cons_append, scan_cons_ok (hfirst c hc)]
  exact scan_absorb embed _ (fun value d hd => hstep value d (hdigits d hd)) (digitValue c)

theorem step_major {c : UInt8} (hc : isdigit c = true) :
    Parser.step (⟨.httpVersionMajor⟩, req) c =
      .ok (⟨.httpVersionMajor⟩,
        { req with httpVersionMajor := req.httpVersionMajor * 10 + digitValue c }) := by
  have hdot : c ≠ '.'.toUInt8 := ne_of_isdigit hc (by decide)
  simp [Parser.step, hdot, hc]

theorem step_minor {c : UInt8} (hc : isdigit c = true) :
    Parser.step (⟨.httpVersionMinor⟩, req) c =
      .ok (⟨.httpVersionMinor⟩,
        { req with httpVersionMinor := req.httpVersionMinor * 10 + digitValue c }) := by
  have hcr : c ≠ CR := ne_of_isdigit hc (by decide)
  simp [Parser.step, hcr, hc]

theorem scan_majorDigits {c : UInt8} {digits : Str} (hc : isdigit c = true)
    (hdigits : ∀ d ∈ digits, isdigit d = true) :
    scan Parser.step (⟨.httpVersionMajorStart⟩, req) (c :: digits ++ w) =
      scan Parser.step (⟨.httpVersionMajor⟩,
        { req with httpVersionMajor := readNumber (digitValue c) digits }) w :=
  scan_digits w (fun value => ((⟨.httpVersionMajor⟩ : Parser),
      ({ req with httpVersionMajor := value } : Request)))
    (fun c hc => by simp [Parser.step, hc]) (fun _ _ hc => step_major _ hc) hc hdigits

theorem scan_minorDigits {c : UInt8} {digits : Str} (hc : isdigit c = true)
    (hdigits : ∀ d ∈ digits, isdigit d = true) :
    scan Parser.step (⟨.httpVersionMinorStart⟩, req) (c :: digits ++ w) =
      scan Parser.step (⟨.httpVersionMinor⟩,
        { req with httpVersionMinor := readNumber (digitValue c) digits }) w :=
  scan_digits w (fun value => ((⟨.httpVersionMinor⟩ : Parser),
      ({ req with httpVersionMinor := value } : Request)))
    (fun c hc => by simp [Parser.step, hc]) (fun _ _ hc => step_minor _ hc) hc hdigits

theorem scan_major (n : ℕ) :
    scan Parser.step (⟨.httpVersionMajorStart⟩, req) (toString n ++ w) =
      scan Parser.step (⟨.httpVersionMajor⟩, { req with httpVersionMajor := n }) w := by
  obtain ⟨c, digits, htext, hc, hdigits, hvalue⟩ := exists_digits n
  rw [htext, scan_majorDigits req w hc hdigits, hvalue]

theorem scan_minor (n : ℕ) :
    scan Parser.step (⟨.httpVersionMinorStart⟩, req) (toString n ++ w) =
      scan Parser.step (⟨.httpVersionMinor⟩, { req with httpVersionMinor := n }) w := by
  obtain ⟨c, digits, htext, hc, hdigits, hvalue⟩ := exists_digits n
  rw [htext, scan_minorDigits req w hc hdigits, hvalue]

/-- **The request line fills in the request.** -/
theorem scan_requestLine {method uri : Str} (hne : method ≠ [])
    (hmethod : ∀ c ∈ method, isalpha c = true) (huri : ∀ c ∈ uri, visibleByte c = true)
    (major minor : ℕ) (m n : Int) :
    scan Parser.step ({}, .empty m n) (requestLineBytes method uri major minor ++ w) =
      scan Parser.step (⟨.headerLineStart⟩,
        { method, uri, httpVersionMajor := major, httpVersionMinor := minor }) w := by
  obtain ⟨c, method, rfl⟩ := List.exists_cons_of_ne_nil hne
  obtain ⟨hc, hmethod⟩ := List.forall_mem_cons.mp hmethod
  have hstart : Parser.step ({}, .empty m n) c =
      .ok (⟨.method⟩, { Request.empty m n with method := [c] }) := by
    simp [Parser.step, hc, Request.pushMethod]
  -- the fixed bytes are single steps
  have hsp : ∀ req w, scan Parser.step (⟨.method⟩, req) (SP :: w) =
      scan Parser.step (⟨.uri⟩, req) w := fun _ _ => rfl
  have hprotocol : ∀ req w, scan Parser.step (⟨.uri⟩, req) (SP :: (ascii "HTTP/" ++ w)) =
      scan Parser.step (⟨.httpVersionMajorStart⟩, req) w := fun _ _ => rfl
  have hdot : ∀ req w, scan Parser.step (⟨.httpVersionMajor⟩, req) ('.'.toUInt8 :: w) =
      scan Parser.step (⟨.httpVersionMinorStart⟩, req) w := fun _ _ => rfl
  have hend : ∀ req w, scan Parser.step (⟨.httpVersionMinor⟩, req) (CR :: LF :: w) =
      scan Parser.step (⟨.headerLineStart⟩, req) w := fun _ _ => rfl
  simp only [requestLineBytes, List.cons_append, List.append_assoc, List.nil_append]
  rw [scan_cons_ok hstart, scan_method _ _ hmethod, hsp]
  apply (scan_uri { Request.empty m n with method := c :: method } _ huri []).trans
  rw [hprotocol, scan_major, hdot, scan_minor, hend]
  rfl

/-! ## The header lines -/

theorem scan_lines {headers : List Header} (h : ∀ header ∈ headers, header.wellFormed = true) :
    scan Parser.step (⟨.headerLineStart⟩, req) (headers.flatMap Header.line ++ w) =
      scan Parser.step (⟨.headerLineStart⟩, { req with headers := req.headers ++ headers }) w := by
  induction headers generalizing req with
  | nil => simp
  | cons header headers ih =>
      obtain ⟨hheader, hheaders⟩ := List.forall_mem_cons.mp h
      rw [List.flatMap_cons, List.append_assoc, scan_line hheader, ih _ hheaders]
      simp [Request.addHeader]

theorem scan_emptyLine : scan Parser.step (⟨.headerLineStart⟩, req) MiscStrings.crlf =
    ((⟨.expectingNewline3⟩, req), some .good) := rfl

/-- **The parser reads back exactly the well-formed headers.** -/
theorem parse_headerBytes_iff {method uri : Str} (hne : method ≠ [])
    (hmethod : ∀ c ∈ method, isalpha c = true) (huri : ∀ c ∈ uri, visibleByte c = true)
    (major minor : ℕ) (m n : Int) (response : Response) :
    (∃ parser req, Parser.parse {} (.empty m n)
        (requestLineBytes method uri major minor ++ response.headerBytes) = (parser, req, .good) ∧
      req.method = method ∧ req.uri = uri ∧ req.httpVersionMajor = major ∧
        req.httpVersionMinor = minor ∧ req.headers = response.headers) ↔
    ∀ header ∈ response.headers, header.name ≠ [] ∧
      (∀ c ∈ header.name, iscntrl c = false ∧ c ≠ SP ∧ c ≠ COLON) ∧
      ∀ c ∈ header.value, iscntrl c = false := by
  have hiff : ∀ header : Header, (header.name ≠ [] ∧
      (∀ c ∈ header.name, iscntrl c = false ∧ c ≠ SP ∧ c ≠ COLON) ∧
      ∀ c ∈ header.value, iscntrl c = false) ↔ header.wellFormed = true := by
    intro header
    simp only [Header.wellFormed_iff, nameByte_iff, and_comm (a := _ ≠ COLON)]
  simp only [hiff]
  constructor
  · rintro ⟨parser, req, hparse, -, -, -, -, hheaders⟩
    have hreq := Parser.wellFormed_parse {} (Request.wellFormed_empty m n)
      (requestLineBytes method uri major minor ++ response.headerBytes)
    rw [hparse] at hreq
    rwa [← hheaders]
  · intro h
    refine ⟨⟨.expectingNewline3⟩, ⟨method, uri, major, minor, response.headers, []⟩, ?_,
      rfl, rfl, rfl, rfl, rfl⟩
    rw [Parser.parse, scan_requestLine _ hne hmethod huri, Response.headerBytes_eq,
      scan_lines _ _ h, scan_emptyLine]
    rfl

theorem parse_headerBytes_host : ∃ parser req, Parser.parse {} (.empty 0 0)
      (requestLineBytes (ascii "GET") (ascii "/a?b") 1 10 ++
        Response.headerBytes ⟨.ok, [⟨ascii "Host", ascii "a b"⟩], []⟩) = (parser, req, .good) ∧
    req.method = ascii "GET" ∧ req.uri = ascii "/a?b" ∧ req.httpVersionMajor = (1 : ℕ) ∧
      req.httpVersionMinor = (10 : ℕ) ∧ req.headers = [⟨ascii "Host", ascii "a b"⟩] :=
  (parse_headerBytes_iff (by decide +kernel) (by decide +kernel) (by decide +kernel) 1 10 0 0 _).mpr
    (by decide +kernel)

end GinCpp.Http
