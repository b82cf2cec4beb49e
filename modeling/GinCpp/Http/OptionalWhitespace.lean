import GinCpp.Http.Version
import Mathlib.Data.List.DropRight

/-!
# Whitespace around header values

A header value may stand between any spaces and tabs, which do not belong to it.  The parser wants
one space in front of it and takes the next ones for a part of the value, and a tab for a control
character like any other: `parse_respaced_iff`.

An accepted text without folded lines is cut into its lines by the grammar (`exists_lines`).  What
the parser makes of a line whose whitespace was changed is said line by line, by
`scan_respaced_of_plain` and `scan_respaced_of_not_plain`.
-/

namespace GinCpp.Http

open Scanner Computability

/-! ## Changing the whitespace -/

/-- Spaces and tabs in front of a value and behind it. -/
structure Spacing where
  before : Str
  after : Str
  blank : ∀ c ∈ before ++ after, blankByte c = true

/-- A header line with other whitespace. -/
abbrev SpacedLine := Header × Spacing

namespace SpacedLine

/-- What is between the colon and the line end. -/
def field (line : SpacedLine) : Str := line.2.before ++ line.1.value ++ line.2.after

/-- The bytes of the line. -/
def bytes (line : SpacedLine) : Str := line.1.name ++ COLON :: (line.field ++ [CR, LF])

/-- There is still a space behind the colon, and no tab was put in. -/
def Plain (line : SpacedLine) : Prop :=
  line.field.head? = some SP ∧ HTAB ∉ line.2.before ∧ HTAB ∉ line.2.after

instance (line : SpacedLine) : Decidable line.Plain := inferInstanceAs (Decidable (_ ∧ _ ∧ _))

end SpacedLine

/-- A text without the spaces and tabs around it. -/
def trim (text : Str) : Str := (text.dropWhile blankByte).rdropWhile blankByte

/-- The same request up to the whitespace around its header values. -/
structure SameUpToBlanks (req' req : Request) : Prop where
  method : req'.method = req.method
  uri : req'.uri = req.uri
  major : req'.httpVersionMajor = req.httpVersionMajor
  minor : req'.httpVersionMinor = req.httpVersionMinor
  names : req'.headers.map Header.name = req.headers.map Header.name
  values : req'.headers.map (fun h => trim h.value) = req.headers.map fun h => trim h.value

/-- No line of the request is folded: the parser is never in the state of a folded line. -/
def Unfolded (major minor : Int) (text : Str) : Prop :=
  ∀ p, p <+: text → (Parser.parse {} (.empty major minor) p).1.state ≠ .headerLws

/-! ## Trimming -/

section Trim

variable {blanks text : Str}

theorem trim_append_left (h : ∀ c ∈ blanks, blankByte c = true) :
    trim (blanks ++ text) = trim text := by
  rw [trim, List.dropWhile_append_of_pos h, trim]

theorem rdropWhile_append_of_pos {p : UInt8 → Bool} (h : ∀ c ∈ blanks, p c = true) :
    (text ++ blanks).rdropWhile p = text.rdropWhile p := by
  have hreverse : ∀ c ∈ blanks.reverse, p c = true := fun c hc => h c (List.mem_reverse.mp hc)
  rw [List.rdropWhile, List.reverse_append, List.dropWhile_append_of_pos hreverse,
    List.rdropWhile]

theorem trim_append_right (h : ∀ c ∈ blanks, blankByte c = true) :
    trim (text ++ blanks) = trim text := by
  rw [trim, trim, List.dropWhile_append]
  split
  · next hempty =>
    -- nothing but blanks before, nothing but blanks after
    rw [List.isEmpty_iff.mp hempty, List.dropWhile_eq_nil_iff.mpr h]
  · exact rdropWhile_append_of_pos h

end Trim

namespace SpacedLine

variable {line : SpacedLine}

theorem trim_field (line : SpacedLine) : trim line.field = trim line.1.value := by
  obtain ⟨hbefore, hafter⟩ := List.forall_mem_append.mp line.2.blank
  rw [field, trim_append_right hafter, trim_append_left hbefore]

/-- What the parser stores for the line. -/
def header (line : SpacedLine) : Header := ⟨line.1.name, line.field.tail⟩

theorem Plain.field_eq (h : line.Plain) : line.field = SP :: line.header.value := by
  obtain ⟨c, rest, hfield⟩ := List.exists_cons_of_ne_nil (List.ne_nil_of_mem
    (List.mem_of_mem_head? h.1))
  have hc : c = SP := by
    have hhead := h.1
    rw [hfield] at hhead
    exact Option.some_inj.mp hhead
  rw [header, hfield, hc, List.tail_cons]

theorem Plain.trim_header (h : line.Plain) : trim line.header.value = trim line.1.value := by
  have hblank : ∀ c ∈ [SP], blankByte c = true := List.forall_mem_singleton.mpr rfl
  rw [← line.trim_field, h.field_eq, ← List.singleton_append, trim_append_left hblank]

/-- A blank that is no tab is a space, and no control character. -/
theorem iscntrl_eq_false {c : UInt8} (hblank : blankByte c = true) (htab : c ≠ HTAB) :
    iscntrl c = false := by
  have hsp : c = SP := by simpa [blankByte, htab] using hblank
  rw [hsp]
  decide

theorem iscntrl_field (hvalue : ∀ c ∈ line.1.value, iscntrl c = false)
    (hbefore : HTAB ∉ line.2.before) (hafter : HTAB ∉ line.2.after) :
    ∀ c ∈ line.field, iscntrl c = false := by
  obtain ⟨hblank, hblank'⟩ := List.forall_mem_append.mp line.2.blank
  refine List.forall_mem_append.mpr ⟨List.forall_mem_append.mpr ⟨?_, hvalue⟩, ?_⟩
  · intro c hc
    exact iscntrl_eq_false (hblank c hc) (ne_of_mem_of_not_mem hc hbefore)
  · intro c hc
    exact iscntrl_eq_false (hblank' c hc) (ne_of_mem_of_not_mem hc hafter)

theorem Plain.wellFormed (h : line.Plain) (hline : line.1.wellFormed = true) :
    line.header.wellFormed = true := by
  obtain ⟨hne, hname, hvalue⟩ := Header.wellFormed_iff.mp hline
  have hfield := iscntrl_field hvalue h.2.1 h.2.2
  rw [h.field_eq] at hfield
  exact Header.wellFormed_iff.mpr ⟨hne, hname, (List.forall_mem_cons.mp hfield).2⟩

theorem Plain.bytes_eq (h : line.Plain) : line.bytes = line.header.line := by
  have hcolon : ascii ": " = [COLON, SP] := by decide
  rw [bytes, h.field_eq, Header.line, hcolon]
  simp [header]

end SpacedLine

/-! ## Reading a line -/

/-- A name and its colon. -/
theorem scan_name_colon {name : Str} (hne : name ≠ []) (hname : ∀ c ∈ name, nameByte c = true)
    (req : Request) (w : Str) :
    scan Parser.step (⟨.headerLineStart⟩, req) (name ++ COLON :: w) =
      scan Parser.step (⟨.spaceBeforeHeaderValue⟩, req.addHeader ⟨name, []⟩) w := by
  obtain ⟨c, name, rfl⟩ := List.exists_cons_of_ne_nil hne
  obtain ⟨hc, hname⟩ := List.forall_mem_cons.mp hname
  rw [List.cons_append, scan_cons_ok (step_nameByte hc req), scan_name hname]
  rfl

/-- A value ends at a control character, and badly if this is not the line end. -/
theorem scan_value_cntrl {text : Str} (htext : ∀ c ∈ text, iscntrl c = false) {c : UInt8}
    (hc : iscntrl c = true) (hcr : c ≠ CR) (req : Request) (w : Str) :
    (scan Parser.step (⟨.headerValue⟩, req) (text ++ c :: w)).2 = some .bad := by
  have hstep : ∀ req : Request, Parser.step (⟨.headerValue⟩, req) c = .error .bad := by
    intro req
    simp [Parser.step, hcr, hc]
  rw [scan_value htext, scan_cons_error (hstep _)]

/-- A field that is no value behind a single space. -/
theorem scan_field_bad {field : Str} (hfield : ∀ c ∈ field, iscntrl c = false ∨ c = HTAB)
    (h : field.head? ≠ some SP ∨ HTAB ∈ field) (req : Request) (w : Str) :
    (scan Parser.step (⟨.spaceBeforeHeaderValue⟩, req) (field ++ CR :: w)).2 = some .bad := by
  by_cases hhead : field.head? = some SP
  · have htab : HTAB ∈ field := h.resolve_left fun hne => hne hhead
    obtain ⟨text, rest, rfl, hfirst⟩ := List.eq_append_cons_of_mem htab
    cases text with
    | nil => cases hhead
    | cons c text =>
        obtain rfl : c = SP := Option.some_inj.mp hhead
        -- the text in front of the first tab is read
        have htext : ∀ c ∈ text, iscntrl c = false := by
          intro c hc
          refine (hfield c (by simp [hc])).resolve_right ?_
          rintro rfl
          exact hfirst (List.mem_cons_of_mem SP hc)
        rw [List.append_assoc]
        exact scan_value_cntrl htext (by decide) (by decide) req _
  · have hstep : ∀ c, c ≠ SP → Parser.step (⟨.spaceBeforeHeaderValue⟩, req) c = .error .bad :=
      fun c hc => if_neg hc
    cases field with
    | nil => exact congrArg Prod.snd (scan_cons_error (hstep CR (by decide)))
    | cons c field =>
        have hc : c ≠ SP := fun hsp => hhead (congrArg some hsp)
        exact congrArg Prod.snd (scan_cons_error (hstep c hc))

/-- A line whose whitespace the parser accepts. -/
theorem scan_respaced_of_plain {line : SpacedLine} (hline : line.1.wellFormed = true)
    (h : line.Plain) (req : Request) (w : Str) :
    scan Parser.step (⟨.headerLineStart⟩, req) (line.bytes ++ w) =
      scan Parser.step (⟨.headerLineStart⟩, req.addHeader line.header) w := by
  rw [h.bytes_eq, scan_line (h.wellFormed hline)]

/-- A line whose whitespace it does not accept. -/
theorem scan_respaced_of_not_plain {line : SpacedLine} (hline : line.1.wellFormed = true)
    (h : ¬ line.Plain) (req : Request) (w : Str) :
    (scan Parser.step (⟨.headerLineStart⟩, req) (line.bytes ++ w)).2 = some .bad := by
  obtain ⟨hne, hname, hvalue⟩ := Header.wellFormed_iff.mp hline
  have hbytes : line.bytes ++ w = line.1.name ++ COLON :: (line.field ++ CR :: (LF :: w)) := by
    simp [SpacedLine.bytes]
  rw [hbytes, scan_name_colon hne hname]
  apply scan_field_bad
  · intro c hc
    by_cases htab : c = HTAB
    · exact Or.inr htab
    · rcases List.mem_append.mp hc with hc | hafter
      · rcases List.mem_append.mp hc with hbefore | hc
        · exact Or.inl (SpacedLine.iscntrl_eq_false
            (line.2.blank c (List.mem_append_left _ hbefore)) htab)
        · exact Or.inl (hvalue c hc)
      · exact Or.inl (SpacedLine.iscntrl_eq_false
          (line.2.blank c (List.mem_append_right _ hafter)) htab)
  · by_contra hplain
    obtain ⟨hhead, htab⟩ := not_or.mp hplain
    refine h ⟨not_not.mp hhead, fun hbefore => htab ?_, fun hafter => htab ?_⟩
    · simp [SpacedLine.field, hbefore]
    · simp [SpacedLine.field, hafter]

/-! ## Cutting a text into lines -/

theorem forall_of_mem_kstar_symbol {p : UInt8 → Prop} {w : Str} (h : w ∈ (symbol p)∗) :
    ∀ c ∈ w, p c := by
  obtain ⟨words, rfl, hwords⟩ := Language.mem_kstar.mp h
  intro c hc
  obtain ⟨word, hword, hc⟩ := List.mem_flatten.mp hc
  obtain ⟨d, hd, rfl⟩ := hwords word hword
  rwa [List.mem_singleton.mp hc]

/-- A header line and its folded lines. -/
theorem exists_of_mem_headerBlock {block : Str} (h : block ∈ headerBlock) :
    ∃ header : Header, header.wellFormed = true ∧
      ∃ folded ∈ continuation∗, block = header.line ++ folded := by
  obtain ⟨_, hline, folded, hfolded, rfl⟩ := Language.mem_mul.mp h
  obtain ⟨_, htext, _, hcrlf, rfl⟩ := Language.mem_mul.mp hline
  obtain ⟨_, hsp, value, hvalue, rfl⟩ := Language.mem_mul.mp htext
  obtain ⟨_, hcolon, _, ⟨_, rfl, rfl⟩, rfl⟩ := Language.mem_mul.mp hsp
  obtain ⟨_, hnames, _, ⟨_, rfl, rfl⟩, rfl⟩ := Language.mem_mul.mp hcolon
  obtain ⟨_, ⟨c, hc, rfl⟩, name, hname, rfl⟩ := Language.mem_mul.mp hnames
  obtain ⟨_, ⟨_, rfl, rfl⟩, _, ⟨_, rfl, rfl⟩, rfl⟩ := Language.mem_mul.mp hcrlf
  have hvalue := forall_of_mem_kstar_symbol hvalue
  refine ⟨⟨c :: name, value⟩, Header.wellFormed_iff.mpr ⟨List.cons_ne_nil _ _, ?_, ?_⟩, folded,
    hfolded, ?_⟩
  · exact List.forall_mem_cons.mpr ⟨hc, forall_of_mem_kstar_symbol hname⟩
  · intro c hc
    simpa using hvalue c hc
  · have hcolon : ascii ": " = [COLON, SP] := by decide
    simp [Header.line, hcolon]

/-- A folded line begins with a blank. -/
theorem eq_nil_or_exists_blank {folded : Str} (h : folded ∈ continuation∗) :
    folded = [] ∨ ∃ c rest, folded = c :: rest ∧ blankByte c = true := by
  obtain ⟨words, rfl, hwords⟩ := Language.mem_kstar.mp h
  cases words with
  | nil => exact Or.inl rfl
  | cons word words =>
      have hword := hwords word List.mem_cons_self
      rw [continuation, mul_assoc] at hword
      obtain ⟨_, ⟨c, hc, rfl⟩, rest, -, rfl⟩ := Language.mem_mul.mp hword
      exact Or.inr ⟨c, rest ++ words.flatten, rfl, hc⟩

/-- A blank behind a header line leads to the state of a folded line. -/
theorem scan_line_blank {header : Header} (h : header.wellFormed = true) {c : UInt8}
    (hc : blankByte c = true) (req : Request) :
    (scan Parser.step (⟨.headerLineStart⟩, req) (header.line ++ [c])).1.1.state = .headerLws := by
  have hstep : Parser.step (⟨.headerLineStart⟩, req.addHeader header) c =
      .ok (⟨.headerLws⟩, req.addHeader header) := by
    have hcr : c ≠ CR := by
      rintro rfl
      cases hc
    have hblank : (c == SP || c == HTAB) = true := hc
    simp only [Parser.step]
    rw [if_neg hcr, if_pos]
    rw [hblank]
    simp [Request.addHeader]
  rw [scan_line h, scan_cons_ok hstep, scan_nil]

/-- Header lines none of which is folded. -/
theorem exists_lines {w : Str} (h : w ∈ headerBlock∗ * crlf) (req : Request)
    (hunfolded : ∀ p, p <+: w →
      (scan Parser.step (⟨.headerLineStart⟩, req) p).1.1.state ≠ .headerLws) :
    ∃ headers : List Header, (∀ header ∈ headers, header.wellFormed = true) ∧
      w = headers.flatMap Header.line ++ [CR, LF] := by
  obtain ⟨_, hstar, _, hcrlf, rfl⟩ := Language.mem_mul.mp h
  obtain ⟨_, ⟨_, rfl, rfl⟩, _, ⟨_, rfl, rfl⟩, rfl⟩ := Language.mem_mul.mp hcrlf
  obtain ⟨blocks, rfl, hblocks⟩ := Language.mem_kstar.mp hstar
  clear h hcrlf hstar
  induction blocks generalizing req with
  | nil => exact ⟨[], List.forall_mem_nil _, rfl⟩
  | cons block blocks ih =>
      obtain ⟨hblock, hmore⟩ := List.forall_mem_cons.mp hblocks
      obtain ⟨header, hheader, folded, hfolded, rfl⟩ := exists_of_mem_headerBlock hblock
      rcases eq_nil_or_exists_blank hfolded with rfl | ⟨c, rest, rfl, hc⟩
      · have hnext : ∀ p, p <+: blocks.flatten ++ ([CR] ++ [LF]) →
            (scan Parser.step (⟨.headerLineStart⟩, req.addHeader header) p).1.1.state ≠
              .headerLws := by
          intro p hp
          rw [← scan_line hheader]
          apply hunfolded
          simpa using hp
        obtain ⟨headers, hheaders, hrest⟩ := ih (req.addHeader header) hmore hnext
        refine ⟨header :: headers, List.forall_mem_cons.mpr ⟨hheader, hheaders⟩, ?_⟩
        rw [List.flatten_cons, List.append_nil, List.append_assoc, List.flatMap_cons,
          List.append_assoc]
        exact congrArg (header.line ++ ·) hrest
      · refine absurd (scan_line_blank hheader hc req) (hunfolded _ ?_)
        simp

/-- The states before the header lines. -/
def State.inRequestLine : State → Bool
  | .headerLineStart | .headerLws | .headerName | .spaceBeforeHeaderValue | .headerValue
  | .expectingNewline2 | .expectingNewline3 => false
  | _ => true

/-- No header is stored before the request line is over. -/
theorem headers_eq_nil {m n : Int} {w : Str} {s : Parser × Request}
    (h : scan Parser.step ({}, .empty m n) w = (s, none)) :
    s.1.state.inRequestLine = true → s.2.headers = [] := by
  have hkeep : ∀ (s : Parser × Request) (c : UInt8) (s' : Parser × Request),
      (s.1.state.inRequestLine = true → s.2.headers = []) → Parser.step s c = .ok s' →
        s'.1.state.inRequestLine = true → s'.2.headers = [] := by
    rintro ⟨⟨state⟩, req⟩ c s' hs hstep
    cases state
    all_goals
      simp only [Parser.step, expect] at hstep
      split_ifs at hstep <;> cases hstep
    all_goals first
      | exact fun _ => hs rfl
      | exact fun hline => Bool.noConfusion hline
  have hscan := scan_induction (w := w) hkeep (s := ({}, .empty m n)) fun _ => rfl
  rwa [h] at hscan

/-- The request line. -/
theorem scan_of_mem_requestLine {m n : Int} {start : Str} (h : start ∈ requestLine) :
    ∃ req : Request, scan Parser.step ({}, .empty m n) start = ((⟨.headerLineStart⟩, req), none) ∧
      req.headers = [] := by
  have hleads : Leads Parser.step (InState .methodStart) (majorPart * digit * digit∗ * byte CR)
      (InState .expectingNewline1) := by
    have hcr : Leads Parser.step (InState .httpVersionMinor) (byte CR)
        (InState .expectingNewline1) := leads_byte fun req => ⟨req, rfl⟩
    refine ((leads_majorPart.mul (leads_symbol fun req c hc => ?_)).mul
      (leads_symbol fun req c hc => ?_).kstar).mul hcr
    · exact ⟨_, if_pos hc⟩
    · exact ⟨_, step_minor req hc⟩
  rw [requestLine_eq, crlf, ← mul_assoc] at h
  obtain ⟨front, hfront, _, ⟨_, rfl, rfl⟩, rfl⟩ := Language.mem_mul.mp h
  obtain ⟨⟨⟨_⟩, req⟩, hscan, rfl⟩ := hleads ({}, .empty m n) front rfl hfront
  exact ⟨req, scan_append hscan, headers_eq_nil hscan rfl⟩

/-! ## The whole text -/

theorem scan_respaced {lines : List SpacedLine} (hlines : ∀ line ∈ lines, line.1.wellFormed = true)
    (hplain : ∀ line ∈ lines, line.Plain) (req : Request) (w : Str) :
    scan Parser.step (⟨.headerLineStart⟩, req) (lines.flatMap SpacedLine.bytes ++ w) =
      scan Parser.step (⟨.headerLineStart⟩,
        { req with headers := req.headers ++ lines.map SpacedLine.header }) w := by
  have hbytes : lines.flatMap SpacedLine.bytes =
      (lines.map SpacedLine.header).flatMap Header.line := by
    rw [List.flatMap_map]
    exact List.flatMap_congr fun line hline => (hplain line hline).bytes_eq
  rw [hbytes]
  apply scan_lines
  intro header hheader
  obtain ⟨line, hline, rfl⟩ := List.mem_map.mp hheader
  exact (hplain line hline).wellFormed (hlines line hline)

/-- The first line that is not accepted. -/
theorem scan_respaced_bad {lines : List SpacedLine}
    (hlines : ∀ line ∈ lines, line.1.wellFormed = true) (hplain : ¬ ∀ line ∈ lines, line.Plain)
    (req : Request) (w : Str) :
    (scan Parser.step (⟨.headerLineStart⟩, req) (lines.flatMap SpacedLine.bytes ++ w)).2 =
      some .bad := by
  induction lines generalizing req with
  | nil => exact absurd (List.forall_mem_nil _) hplain
  | cons line lines ih =>
      obtain ⟨hline, hlines⟩ := List.forall_mem_cons.mp hlines
      rw [List.flatMap_cons, List.append_assoc]
      by_cases hfirst : line.Plain
      · rw [scan_respaced_of_plain hline hfirst]
        apply ih hlines
        intro hrest
        exact hplain (List.forall_mem_cons.mpr ⟨hfirst, hrest⟩)
      · exact scan_respaced_of_not_plain hline hfirst req _

/-- An accepted text without folded lines, cut into its lines. -/
theorem exists_of_good {m n : Int} {text : Str} {s : Parser × Request}
    (h : scan Parser.step ({}, .empty m n) text = (s, some .good)) (hunfolded : Unfolded m n text) :
    ∃ start after req, start ∈ requestLine ∧
      scan Parser.step ({}, .empty m n) start = ((⟨.headerLineStart⟩, req), none) ∧
      (∀ header ∈ s.2.headers, header.wellFormed = true) ∧
      text = start ++ (s.2.headers.flatMap Header.line ++ ([CR, LF] ++ after)) ∧
      req.headers = [] ∧ s.2 = { req with headers := s.2.headers } := by
  obtain ⟨p, ⟨after, rfl⟩, hp⟩ := residual_rest.exists_prefix_iff.mpr (congrArg Prod.snd h)
  rw [rest_start, message, mul_assoc] at hp
  obtain ⟨start, hstart, w, hw, rfl⟩ := Language.mem_mul.mp hp
  obtain ⟨req, hscan, hheaders⟩ := scan_of_mem_requestLine (m := m) (n := n) hstart
  obtain ⟨headers, hwellFormed, rfl⟩ := exists_lines hw req fun q hq => by
    rw [← scan_append hscan]
    exact hunfolded (start ++ q) (((List.prefix_append_right_inj start).mpr hq).trans
      (List.prefix_append _ _))
  have hend : scan Parser.step ({}, .empty m n)
      (start ++ (headers.flatMap Header.line ++ [CR, LF]) ++ after) =
        ((⟨.expectingNewline3⟩, { req with headers := headers }), some .good) := by
    rw [List.append_assoc, scan_append hscan, List.append_assoc, scan_lines _ _ hwellFormed,
      hheaders]
    rfl
  obtain ⟨rfl, -⟩ := Prod.mk.inj (h.symm.trans hend)
  exact ⟨start, after, req, hstart, hscan, hwellFormed, by simp, hheaders, rfl⟩

/-- **When whitespace around header values is insignificant.**  An accepted text without folded
lines is a request line, the lines of its headers, an empty line and more.  With other whitespace
around the values it is accepted as the same request if and only if there is still a space behind
each colon and no tab was put in. -/
theorem parse_respaced_iff (m n : Int) {text : Str} {parser : Parser} {req : Request}
    (hgood : Parser.parse {} (.empty m n) text = (parser, req, .good))
    (hunfolded : Unfolded m n text) :
    ∃ start after, start ∈ requestLine ∧
      text = start ++ (req.headers.flatMap Header.line ++ ([CR, LF] ++ after)) ∧
      ∀ lines : List SpacedLine, lines.map Prod.fst = req.headers →
        ((∃ parser' req', Parser.parse {} (.empty m n)
            (start ++ (lines.flatMap SpacedLine.bytes ++ ([CR, LF] ++ after))) =
              (parser', req', .good) ∧ SameUpToBlanks req' req) ↔
          ∀ line ∈ lines, line.Plain) := by
  have hverdict : (scan Parser.step ({}, .empty m n) text).2 = some .good :=
    (Parser.parse_result {} (.empty m n) text).1.mp (by rw [hgood])
  have hreq : (scan Parser.step ({}, .empty m n) text).1.2 = req :=
    congrArg (fun outcome => outcome.2.1) hgood
  obtain ⟨start, after, req₀, hstart, hscan, hwellFormed, htext, hheaders, heq⟩ :=
    exists_of_good (Prod.ext rfl hverdict) hunfolded
  rw [hreq] at hwellFormed htext heq
  refine ⟨start, after, hstart, htext, fun lines hlines => ?_⟩
  have hlinesWellFormed : ∀ line ∈ lines, line.1.wellFormed = true := fun line hline =>
    hwellFormed line.1 (hlines ▸ List.mem_map_of_mem hline)
  constructor
  · rintro ⟨parser', req', hparse, -⟩
    by_contra hplain
    have hbad := scan_respaced_bad hlinesWellFormed hplain req₀ ([CR, LF] ++ after)
    rw [← scan_append hscan] at hbad
    have hgood' := (Parser.parse_result {} (.empty m n) _).1.mp (by rw [hparse])
    rw [hbad] at hgood'
    cases hgood'
  · intro hplain
    refine ⟨⟨.expectingNewline3⟩, { req₀ with headers := lines.map SpacedLine.header }, ?_, ?_⟩
    · rw [Parser.parse, scan_append hscan, scan_respaced hlinesWellFormed hplain, hheaders]
      rfl
    · rw [heq, ← hlines]
      refine ⟨rfl, rfl, rfl, rfl, ?_, ?_⟩
      · simp [SpacedLine.header]
      · rw [List.map_map, List.map_map]
        exact List.map_congr_left fun line hline => (hplain line hline).trim_header

/-! ## A request with one header -/

def pageLine : Str := ascii "GET / HTTP/1.1\x0d\n"

def pageHeader : Header := ⟨ascii "Host", ascii "a"⟩

/-- The header line comes with a single space. -/
def pageText : Str := pageLine ++ (pageHeader.line ++ [CR, LF])

def pageRequest : Request := ⟨ascii "GET", ascii "/", 1, 1, [pageHeader], []⟩

theorem parse_page :
    Parser.parse {} (.empty 0 0) pageText = (⟨.expectingNewline3⟩, pageRequest, .good) := by
  decide +kernel

theorem unfolded_page : Unfolded 0 0 pageText := by
  have hinits : ∀ p ∈ pageText.inits, (Parser.parse {} (.empty 0 0) p).1.state ≠ .headerLws := by
    decide +kernel
  exact fun p hp => hinits p ((List.mem_inits p pageText).mpr hp)

theorem parse_respaced_iff_page :
    ∃ start after, start ∈ requestLine ∧
      pageText = start ++ (pageRequest.headers.flatMap Header.line ++ ([CR, LF] ++ after)) ∧
      ∀ lines : List SpacedLine, lines.map Prod.fst = pageRequest.headers →
        ((∃ parser' req', Parser.parse {} (.empty 0 0)
            (start ++ (lines.flatMap SpacedLine.bytes ++ ([CR, LF] ++ after))) =
              (parser', req', .good) ∧ SameUpToBlanks req' pageRequest) ↔
          ∀ line ∈ lines, line.Plain) :=
  parse_respaced_iff 0 0 parse_page unfolded_page

/-- Without the space the request is refused, and with a tab in its place as well. -/
theorem not_parse_respaced_page :
    Parser.parse {} (.empty 0 0) pageText = (⟨.expectingNewline3⟩, pageRequest, .good) ∧
      Unfolded 0 0 pageText ∧
      ∀ before ∈ [[], [HTAB]], ∃ spacing : Spacing, spacing.before = before ∧ spacing.after = [] ∧
        (Parser.parse {} (.empty 0 0)
          (pageLine ++ (SpacedLine.bytes (pageHeader, spacing) ++ [CR, LF]))).2.2 = .bad := by
  refine ⟨parse_page, unfolded_page, ?_⟩
  intro before hbefore
  have hblank : (before ++ []).all blankByte = true := by
    revert before
    decide
  refine ⟨⟨before, [], List.all_eq_true.mp hblank⟩, rfl, rfl, ?_⟩
  revert before
  decide +kernel

end GinCpp.Http
