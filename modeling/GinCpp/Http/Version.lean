import GinCpp.Http.RoundTrip
import GinCpp.Scanner.Calls
import GinCpp.Scanner.Triples
import Mathlib.Data.Nat.Digits.Defs

/-!
# The version numbers

The two digit states compute `version * 10 + digit` on an `int`, as long as there are digits.
`Read` is what has been read in each state, and with it a number overflows if and only if its digits
say so (`clear_iff`).
-/

namespace GinCpp.Http

open Scanner Computability

/-! ## Decimal numbers -/

/-- The number that is written with these digits. -/
def decimal (digits : Str) : ℕ := Nat.ofDigits 10 (digits.reverse.map fun c => c.toNat - 48)

/-- A number has at least one digit. -/
def IsNumber (digits : Str) : Prop := digits ≠ [] ∧ ∀ c ∈ digits, isdigit c = true

variable {digits : Str} {c : UInt8}

theorem digitValue_eq (h : isdigit c = true) :
    digitValue c = ((c.toNat - 48 : ℕ) : Int) ∧ c.toNat - 48 < 10 := by
  obtain ⟨hlow, hhigh⟩ : 48 ≤ c.toNat ∧ c.toNat ≤ 57 := by
    simpa [isdigit, UInt8.le_iff_toNat_le] using h
  rw [digitValue]
  omega

theorem decimal_concat (digits : Str) (h : isdigit c = true) :
    (decimal (digits ++ [c]) : Int) = decimal digits * 10 + digitValue c := by
  rw [(digitValue_eq h).1, decimal, decimal, List.reverse_concat, List.map_cons,
    Nat.ofDigits_cons]
  push_cast
  ring

theorem decimal_singleton_lt (h : isdigit c = true) : decimal [c] < 10 := by
  simpa [decimal] using (digitValue_eq h).2

theorem digitValue_eq_decimal (h : isdigit c = true) : digitValue c = decimal [c] := by
  simpa [decimal] using (digitValue_eq h).1

/-- The parser computes the decimal number. -/
theorem readNumber_eq (hc : isdigit c = true) (h : ∀ d ∈ digits, isdigit d = true) :
    readNumber (digitValue c) digits = decimal (c :: digits) := by
  induction digits using List.reverseRecOn with
  | nil => exact digitValue_eq_decimal hc
  | append_singleton digits d ih =>
      obtain ⟨hdigits, hd⟩ := List.forall_mem_append.mp h
      have hrest := ih hdigits
      rw [readNumber] at hrest
      rw [readNumber, List.foldl_concat, hrest, ← List.cons_append,
        decimal_concat _ (hd d List.mem_cons_self)]

theorem IsNumber.singleton (h : isdigit c = true) : IsNumber [c] :=
  ⟨List.cons_ne_nil _ _, List.forall_mem_singleton.mpr h⟩

theorem IsNumber.concat (h : ∀ d ∈ digits, isdigit d = true) (hc : isdigit c = true) :
    IsNumber (digits ++ [c]) :=
  ⟨by simp, List.forall_mem_append.mpr ⟨h, List.forall_mem_singleton.mpr hc⟩⟩

/-! ## Overflow -/

/-- An `int` of 32 bits. -/
def Fits (v : Int) : Prop := -2 ^ 31 ≤ v ∧ v < 2 ^ 31

instance (v : Int) : Decidable (Fits v) := inferInstanceAs (Decidable (_ ∧ _))

theorem asInt_of_fits {v : Int} (h : Fits v) : asInt v = v := by
  obtain ⟨hlow, hhigh⟩ := h
  unfold asInt
  apply Int.bmod_eq_of_le <;> omega

/-- The sum that the loop body computes at a further digit. -/
def Parser.computed (current : Parser × Request) (input : UInt8) : Option Int :=
  let (parser, req) := current
  match parser.state with
  | .httpVersionMajor =>
      if isdigit input then some (req.httpVersionMajor * 10 + digitValue input) else none
  | .httpVersionMinor =>
      if isdigit input then some (req.httpVersionMinor * 10 + digitValue input) else none
  | _ => none

/-- A sum that is no `int`. -/
def Overflows (current : Parser × Request) (input : UInt8) : Prop :=
  ∃ v ∈ Parser.computed current input, ¬ Fits v

instance (current : Parser × Request) (input : UInt8) : Decidable (Overflows current input) :=
  inferInstanceAs (Decidable (∃ v ∈ Parser.computed current input, ¬ Fits v))

/-- As long as nothing overflows, `parse` on `int`s is `parse`. -/
theorem Parser.parse_of_runCall {parser : Parser} {req : Request} {bytes : Str}
    {outcome : (Parser × Request) × Option ParseResult}
    (h : runCall Parser.step Overflows (parser, req) bytes = some outcome) :
    parser.parse req bytes =
      (outcome.1.1, outcome.1.2, outcome.2.getD .indeterminate) := by
  rw [Parser.parse, runCall_eq h]

/-- Sums are computed at digits that are read. -/
theorem computed_cases {s : Parser × Request} {v : Int} (h : Parser.computed s c = some v) :
    isdigit c = true ∧
      ((s.1.state = .httpVersionMajor ∧ v = s.2.httpVersionMajor * 10 + digitValue c) ∨
        (s.1.state = .httpVersionMinor ∧ v = s.2.httpVersionMinor * 10 + digitValue c)) := by
  obtain ⟨⟨state⟩, req⟩ := s
  cases state
  case httpVersionMajor =>
    obtain ⟨hc, hv⟩ := Option.ite_none_right_eq_some.mp h
    exact ⟨hc, Or.inl ⟨rfl, (Option.some_inj.mp hv).symm⟩⟩
  case httpVersionMinor =>
    obtain ⟨hc, hv⟩ := Option.ite_none_right_eq_some.mp h
    exact ⟨hc, Or.inr ⟨rfl, (Option.some_inj.mp hv).symm⟩⟩
  all_goals cases h

theorem exists_step_of_overflows (s : Parser × Request) (c : UInt8) (h : Overflows s c) :
    ∃ s', Parser.step s c = .ok s' := by
  obtain ⟨v, hv, -⟩ := h
  obtain ⟨⟨state⟩, req⟩ := s
  obtain ⟨hc, ⟨rfl, -⟩ | ⟨rfl, -⟩⟩ := computed_cases hv
  · exact ⟨_, step_major req hc⟩
  · exact ⟨_, step_minor req hc⟩

/-! ## What has been read -/

/-- The request line in front of `HTTP`. -/
def target : Language UInt8 := alpha * alpha∗ * byte SP * visible∗ * byte SP

/-- The request line in front of the version. -/
def opening : Language UInt8 := target * word (ascii "HTTP/")

/-- The request line in front of the second number. -/
def majorPart : Language UInt8 := opening * digit * digit∗ * byte '.'.toUInt8

theorem requestLine_eq : requestLine = majorPart * digit * digit∗ * crlf := rfl

/-- The text in which the version has been read. -/
def withVersion (major minor more : Str) : Language UInt8 :=
  opening * word major * byte '.'.toUInt8 * word minor * byte CR * word more

/-- The version of a request is the one in the text. -/
structure Denotes (text : Str) (req : Request) (major minor : Str) : Prop where
  major_isNumber : IsNumber major
  minor_isNumber : IsNumber minor
  mem : ∃ more, text ∈ withVersion major minor more
  major_eq : req.httpVersionMajor = decimal major
  minor_eq : req.httpVersionMinor = decimal minor

/-- What has been read in a state. -/
def Read (text : Str) (s : Parser × Request) : Prop :=
  match s.1.state with
  | .methodStart => text = []
  | .method => text ∈ alpha * alpha∗
  | .uri => text ∈ alpha * alpha∗ * byte SP * visible∗
  | .httpVersionH => text ∈ target * word []
  | .httpVersionT1 => text ∈ target * word (ascii "H")
  | .httpVersionT2 => text ∈ target * word (ascii "HT")
  | .httpVersionP => text ∈ target * word (ascii "HTT")
  | .httpVersionSlash => text ∈ target * word (ascii "HTTP")
  | .httpVersionMajorStart => text ∈ opening * word []
  | .httpVersionMajor => ∃ major, IsNumber major ∧ text ∈ opening * word major ∧
      s.2.httpVersionMajor = decimal major
  | .httpVersionMinorStart => ∃ major, IsNumber major ∧
      text ∈ opening * word major * byte '.'.toUInt8 ∧ s.2.httpVersionMajor = decimal major
  | .httpVersionMinor => ∃ major minor, IsNumber major ∧ IsNumber minor ∧
      text ∈ opening * word major * byte '.'.toUInt8 * word minor ∧
      s.2.httpVersionMajor = decimal major ∧ s.2.httpVersionMinor = decimal minor
  | _ => ∃ major minor, Denotes text s.2 major minor

variable {text : Str} {s s' : Parser × Request}

theorem Denotes.concat {req req' : Request} {major minor : Str} (h : Denotes text req major minor)
    (hmajor : req'.httpVersionMajor = req.httpVersionMajor)
    (hminor : req'.httpVersionMinor = req.httpVersionMinor) (c : UInt8) :
    Denotes (text ++ [c]) req' major minor := by
  obtain ⟨more, hmem⟩ := h.mem
  exact ⟨h.major_isNumber, h.minor_isNumber, ⟨more ++ [c], concat_mem_mul_word hmem c⟩,
    hmajor.trans h.major_eq, hminor.trans h.minor_eq⟩

theorem eq_of_expect {b : UInt8} {next : State} {req : Request}
    (h : expect b next req c = .ok s') : c = b ∧ s' = (⟨next⟩, req) := by
  unfold expect at h
  split_ifs at h with hc
  exact ⟨hc, (Except.ok.inj h).symm⟩

/-- One byte is read. -/
theorem Read.step (h : Read text s) (hstep : Parser.step s c = .ok s') :
    Read (text ++ [c]) s' := by
  obtain ⟨⟨state⟩, req⟩ := s
  cases state
  case methodStart =>
    obtain rfl : text = [] := h
    simp only [Parser.step] at hstep
    split_ifs at hstep with hc
    obtain rfl := Except.ok.inj hstep
    exact mem_mul_kstar (singleton_mem_symbol hc)
  case method =>
    have hmem : text ∈ alpha * alpha∗ := h
    simp only [Parser.step] at hstep
    split_ifs at hstep with hsp hc
    · obtain rfl := Except.ok.inj hstep
      exact mem_mul_kstar (concat_mem_mul_symbol hmem hsp)
    · obtain rfl := Except.ok.inj hstep
      exact concat_mem_mul_kstar hmem hc
  case uri =>
    have hmem : text ∈ alpha * alpha∗ * byte SP * visible∗ := h
    simp only [Parser.step] at hstep
    split_ifs at hstep with hsp hc
    · obtain rfl := Except.ok.inj hstep
      exact mem_mul_word_nil (concat_mem_mul_symbol hmem hsp)
    · obtain rfl := Except.ok.inj hstep
      refine concat_mem_mul_kstar hmem ?_
      simp [visibleByte, hsp, hc]
  case httpVersionH | httpVersionT1 | httpVersionT2 | httpVersionP =>
    obtain ⟨rfl, rfl⟩ := eq_of_expect hstep
    exact concat_mem_mul_word h _
  case httpVersionSlash =>
    obtain ⟨rfl, rfl⟩ := eq_of_expect hstep
    exact mem_mul_word_nil (concat_mem_mul_word h _)
  case httpVersionMajorStart =>
    simp only [Parser.step] at hstep
    split_ifs at hstep with hc
    obtain rfl := Except.ok.inj hstep
    exact ⟨[c], .singleton hc, concat_mem_mul_word h c, digitValue_eq_decimal hc⟩
  case httpVersionMajor =>
    obtain ⟨major, hnumber, hmem, hmajor⟩ := h
    simp only [Parser.step] at hstep
    split_ifs at hstep with hdot hc
    · obtain rfl := Except.ok.inj hstep
      exact ⟨major, hnumber, concat_mem_mul_symbol hmem hdot, hmajor⟩
    · obtain rfl := Except.ok.inj hstep
      refine ⟨major ++ [c], .concat hnumber.2 hc, concat_mem_mul_word hmem c, ?_⟩
      rw [decimal_concat major hc, ← hmajor]
  case httpVersionMinorStart =>
    obtain ⟨major, hnumber, hmem, hmajor⟩ := h
    simp only [Parser.step] at hstep
    split_ifs at hstep with hc
    obtain rfl := Except.ok.inj hstep
    exact ⟨major, [c], hnumber, .singleton hc, concat_mem_mul_word (mem_mul_word_nil hmem) c,
      hmajor, digitValue_eq_decimal hc⟩
  case httpVersionMinor =>
    obtain ⟨major, minor, hnumber, hnumber', hmem, hmajor, hminor⟩ := h
    simp only [Parser.step] at hstep
    split_ifs at hstep with hcr hc
    · obtain rfl := Except.ok.inj hstep
      exact ⟨major, minor, hnumber, hnumber',
        ⟨[], mem_mul_word_nil (concat_mem_mul_symbol hmem hcr)⟩, hmajor, hminor⟩
    · obtain rfl := Except.ok.inj hstep
      refine ⟨major, minor ++ [c], hnumber, .concat hnumber'.2 hc, concat_mem_mul_word hmem c,
        hmajor, ?_⟩
      rw [decimal_concat minor hc, ← hminor]
  -- the version is left alone from here on
  all_goals
    obtain ⟨major, minor, hdenotes⟩ := h
    simp only [Parser.step, expect] at hstep
    split_ifs at hstep
    all_goals
      obtain rfl := Except.ok.inj hstep
      refine ⟨major, minor, hdenotes.concat ?_ ?_ c⟩
      · rfl
      · rfl

theorem read_of_undecided {m n : Int}
    (h : scan Parser.step ({}, .empty m n) text = (s, none)) : Read text s := by
  have hstart : Read [] ({}, .empty m n) := rfl
  exact undecided_induction hstart (fun _ _ _ _ hread hstep => hread.step hstep) h

/-- A request that is accepted has the version of its text. -/
theorem denotes_of_good {m n : Int} (h : scan Parser.step ({}, .empty m n) text = (s, none))
    (hstep : Parser.step s c = .error .good) :
    text ++ [c] ∈ message ∧ ∃ major minor, Denotes text s.2 major minor := by
  have hmem : text ++ [c] ∈ rest ({}, .empty m n) :=
    (residual_rest.append_mem_iff h).mpr ((residual_rest.mem_error [] hstep).mpr ⟨rfl, rfl⟩)
  rw [rest_start] at hmem
  have hstate := Parser.state_of_step_good hstep
  have hread := read_of_undecided h
  obtain ⟨⟨state⟩, req⟩ := s
  obtain rfl : state = .expectingNewline3 := hstate
  exact ⟨hmem, hread⟩

/-! ## Where a number is read -/

/-- The states as conditions on the parser and the request. -/
def InState (state : State) (s : Parser × Request) : Prop := s.1.state = state

theorem leads_symbol {p : UInt8 → Prop} {state state' : State}
    (h : ∀ req c, p c → ∃ req', Parser.step (⟨state⟩, req) c = .ok (⟨state'⟩, req')) :
    Leads Parser.step (InState state) (symbol p) (InState state') := by
  refine Leads.symbol fun s c hs hc => ?_
  obtain ⟨⟨state⟩, req⟩ := s
  obtain rfl := hs
  obtain ⟨req', hstep⟩ := h req c hc
  exact ⟨_, hstep, rfl⟩

theorem leads_byte {b : UInt8} {state state' : State}
    (h : ∀ req, ∃ req', Parser.step (⟨state⟩, req) b = .ok (⟨state'⟩, req')) :
    Leads Parser.step (InState state) (byte b) (InState state') :=
  leads_symbol fun req _ hc => hc ▸ h req

theorem leads_opening :
    Leads Parser.step (InState .methodStart) opening (InState .httpVersionMajorStart) := by
  have hmethod : Leads Parser.step (InState .methodStart) (alpha * alpha∗) (InState .method) := by
    refine (leads_symbol fun req c hc => ?_).mul (leads_symbol fun req c hc => ?_).kstar
    · exact ⟨_, if_pos hc⟩
    · have hsp : c ≠ SP := by
        rintro rfl
        cases hc
      exact ⟨_, (if_neg hsp).trans (if_pos hc)⟩
  have huri : Leads Parser.step (InState .uri) visible∗ (InState .uri) := by
    refine (leads_symbol fun req c hc => ?_).kstar
    obtain ⟨hcntrl, hsp⟩ : iscntrl c = false ∧ c ≠ SP := by simpa [visibleByte] using hc
    exact ⟨req.pushUri c, by simp [Parser.step, hsp, hcntrl]⟩
  have hhttp : Leads Parser.step (InState .httpVersionH) (word (ascii "HTTP/"))
      (InState .httpVersionMajorStart) := by
    rw [word_http]
    exact (leads_byte fun req => ⟨req, rfl⟩).mul ((leads_byte fun req => ⟨req, rfl⟩).mul
      ((leads_byte fun req => ⟨req, rfl⟩).mul ((leads_byte fun req => ⟨req, rfl⟩).mul
        (leads_byte fun req => ⟨req, rfl⟩))))
  exact ((((hmethod.mul (leads_byte fun req => ⟨req, rfl⟩)).mul huri).mul
    (leads_byte fun req => ⟨req, rfl⟩)).mul hhttp)

theorem leads_majorPart :
    Leads Parser.step (InState .methodStart) majorPart (InState .httpVersionMinorStart) := by
  have hdot : Leads Parser.step (InState .httpVersionMajor) (byte '.'.toUInt8)
      (InState .httpVersionMinorStart) := leads_byte fun req => ⟨req, rfl⟩
  refine ((leads_opening.mul (leads_symbol fun req c hc => ?_)).mul
    (leads_symbol fun req c hc => ?_).kstar).mul hdot
  · exact ⟨_, if_pos hc⟩
  · exact ⟨_, step_major req hc⟩

/-! ## When a number overflows -/

/-- Every number of the version, as far as it is there, is less than 2³¹. -/
def Bounded (text : Str) : Prop :=
  ∀ front digits, front ++ digits <+: text → front ∈ opening + majorPart →
    (∀ c ∈ digits, isdigit c = true) → decimal digits < 2 ^ 31

/-- Digits behind the opening are read as the major version, behind the dot as the minor one. -/
theorem exists_computed {m n : Int} {front : Str} (hfront : front ∈ opening + majorPart)
    (hdigits : IsNumber digits) (hc : isdigit c = true) :
    Parser.computed (scan Parser.step ({}, .empty m n) (front ++ digits)).1 c =
      some ((decimal (digits ++ [c]) : ℕ) : Int) := by
  obtain ⟨hne, hdigits⟩ := hdigits
  obtain ⟨d, digits, rfl⟩ := List.exists_cons_of_ne_nil hne
  obtain ⟨hd, hmore⟩ := List.forall_mem_cons.mp hdigits
  rw [decimal_concat _ hc, ← readNumber_eq hd hmore]
  rcases (Language.mem_add _ _ _).mp hfront with hopening | hmajor
  · obtain ⟨⟨⟨_⟩, req⟩, hscan, rfl⟩ := leads_opening ({}, .empty m n) front rfl hopening
    have hnumber := scan_majorDigits req [] hd hmore
    rw [List.append_nil] at hnumber
    rw [scan_append hscan, hnumber, scan_nil]
    exact if_pos hc
  · obtain ⟨⟨⟨_⟩, req⟩, hscan, rfl⟩ := leads_majorPart ({}, .empty m n) front rfl hmajor
    have hnumber := scan_minorDigits req [] hd hmore
    rw [List.append_nil] at hnumber
    rw [scan_append hscan, hnumber, scan_nil]
    exact if_pos hc

/-- The digits of a number. -/
theorem mem_mul_digits {K : Language UInt8} (h : IsNumber digits) (hmem : text ∈ K * word digits) :
    text ∈ K * digit * digit∗ := by
  obtain ⟨k, hk, _, rfl, rfl⟩ := Language.mem_mul.mp hmem
  obtain ⟨c, more, rfl⟩ := List.exists_cons_of_ne_nil h.1
  obtain ⟨hc, hmore⟩ := List.forall_mem_cons.mp h.2
  rw [List.append_cons]
  exact Language.append_mem_mul (concat_mem_mul_symbol hk hc) (mem_kstar_symbol hmore)

/-- The numbers that are denoted are among the bounded ones. -/
theorem Denotes.decimal_lt {req : Request} {major minor : Str} (h : Denotes text req major minor)
    (hbounded : Bounded text) : decimal major < 2 ^ 31 ∧ decimal minor < 2 ^ 31 := by
  obtain ⟨rest, hmem⟩ := h.mem
  obtain ⟨line, hline, more, -, hmore⟩ := Language.mem_mul.mp hmem
  obtain ⟨version, hversion, cr, -, rfl⟩ := Language.mem_mul.mp hline
  obtain ⟨first, hfirst, minor, rfl, rfl⟩ := Language.mem_mul.mp hversion
  obtain ⟨number, hnumber, dot, hdot, rfl⟩ := Language.mem_mul.mp hfirst
  have hprefix : number ++ dot ++ minor <+: text := by
    rw [← hmore, List.append_assoc (number ++ dot ++ minor)]
    exact List.prefix_append _ _
  constructor
  · obtain ⟨front, hfront, major, rfl, rfl⟩ := Language.mem_mul.mp hnumber
    apply hbounded front major _ (Or.inl hfront) h.major_isNumber.2
    refine List.IsPrefix.trans ?_ hprefix
    rw [List.append_assoc (front ++ major)]
    exact List.prefix_append _ _
  · apply hbounded (number ++ dot) minor hprefix (Or.inr ?_) h.minor_isNumber.2
    exact Language.append_mem_mul (mem_mul_digits h.major_isNumber hnumber) hdot

/-- Bounded numbers are what the `int` fields hold. -/
theorem Denotes.asInts_eq {req : Request} {major minor : Str} (h : Denotes text req major minor)
    (hbounded : Bounded text) : req.asInts = req := by
  obtain ⟨hmajor, hminor⟩ := h.decimal_lt hbounded
  have hfits : ∀ n : ℕ, n < 2 ^ 31 → Fits n := fun n hn => ⟨by omega, by exact_mod_cast hn⟩
  unfold Request.asInts
  rw [asInt_of_fits (h.major_eq ▸ hfits _ hmajor), asInt_of_fits (h.minor_eq ▸ hfits _ hminor)]

/-- A sum is the number that the digits make up with the next one. -/
theorem exists_of_computed {v : Int} (hread : Read text s)
    (h : Parser.computed s c = some v) :
    ∃ front digits, text = front ++ digits ∧ front ∈ opening + majorPart ∧
      (∀ d ∈ digits ++ [c], isdigit d = true) ∧ v = decimal (digits ++ [c]) := by
  obtain ⟨⟨state⟩, req⟩ := s
  obtain ⟨hc, ⟨rfl, rfl⟩ | ⟨rfl, rfl⟩⟩ := computed_cases h
  · obtain ⟨major, hnumber, hmem, hmajor⟩ := hread
    obtain ⟨front, hfront, _, rfl, rfl⟩ := Language.mem_mul.mp hmem
    exact ⟨front, _, rfl, Or.inl hfront, (IsNumber.concat hnumber.2 hc).2,
      by rw [decimal_concat _ hc, ← hmajor]⟩
  · obtain ⟨major, minor, hnumber, hnumber', hmem, -, hminor⟩ := hread
    obtain ⟨front, hfront, _, rfl, rfl⟩ := Language.mem_mul.mp hmem
    refine ⟨front, _, rfl, Or.inr ?_, (IsNumber.concat hnumber'.2 hc).2,
      by rw [decimal_concat _ hc, ← hminor]⟩
    obtain ⟨number, hnumbers, dot, hdot, rfl⟩ := Language.mem_mul.mp hfront
    exact Language.append_mem_mul (mem_mul_digits hnumber hnumbers) hdot

/-- **A number overflows if and only if its digits say so.** -/
theorem clear_iff {m n : Int} (h : scan Parser.step ({}, .empty m n) text = (s, none)) :
    Clear Parser.step Overflows ({}, .empty m n) text ↔ Bounded text := by
  constructor
  · intro hclear front digits hprefix hfront hdigits
    by_contra hlarge
    rcases digits.eq_nil_or_concat' with rfl | ⟨digits, c, rfl⟩
    · exact hlarge (by decide)
    · obtain ⟨hdigits, hc⟩ := List.forall_mem_append.mp hdigits
      have hc : isdigit c = true := hc c List.mem_cons_self
      have hne : digits ≠ [] := by
        rintro rfl
        exact hlarge ((decimal_singleton_lt hc).trans (by decide))
      refine hclear (front ++ digits) c (by rwa [List.append_assoc])
        ⟨_, exists_computed hfront ⟨hne, hdigits⟩ hc, fun hfits => hlarge ?_⟩
      exact_mod_cast hfits.2
  · rintro hbounded p c hprefix ⟨v, hv, hoverflow⟩
    rcases hscan : scan Parser.step ({}, .empty m n) p with ⟨u, _ | verdict⟩
    · rw [hscan] at hv
      obtain ⟨front, digits, rfl, hfront, hdigits, rfl⟩ :=
        exists_of_computed (read_of_undecided hscan) hv
      rw [List.append_assoc] at hprefix
      have hsmall := hbounded front (digits ++ [c]) hprefix hfront hdigits
      exact hoverflow ⟨by omega, by exact_mod_cast hsmall⟩
    · exact not_prefix_of_undecided h hscan ((List.prefix_append p [c]).trans hprefix)

end GinCpp.Http
