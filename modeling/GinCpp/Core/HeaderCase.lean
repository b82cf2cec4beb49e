import GinCpp.Core.Conversation
import GinCpp.Scanner.Lockstep

/-!
# The case of header names

Header names are compared byte for byte, in `get_header` as in the connection, which looks for
`Connection` and for `Host`.  Two requests that differ in the case of letters in header names only
are parsed alike, and as long as they agree on where headers with these very names stand they are
answered alike: `answersAlike_of_recased`.
-/

namespace GinCpp.Core

open Http Scanner

/-! ## Recased requests -/

/-- The byte becomes part of a header name. -/
def InName (s : Parser × Request) (c : UInt8) : Prop :=
  (Parser.step s c).toOption.map (·.1.state) = some .headerName

/-- The same byte, or the same letter in a header name. -/
def Recasing (s : Parser × Request) (c c' : UInt8) : Prop :=
  c = c' ∨ (InName s c ∧ tolower c = tolower c')

instance (s : Parser × Request) (c c' : UInt8) : Decidable (Recasing s c c') :=
  inferInstanceAs (Decidable (_ ∨ (_ = _) ∧ _))

/-- A text in which the case of letters in header names was changed. -/
abbrev Recased : Parser × Request → Str → Str → Prop := Matched Parser.step Recasing

/-- A stream in which the case of letters in header names was changed, block by block. -/
def RecasedBlocks : Session → List Block → List Block → Prop
  | _, [], [] => True
  | some s, b :: bs, b' :: bs' =>
      Recased s b.bytes b'.bytes ∧ RecasedBlocks (Session.receive (some s) b) bs bs'
  | none, b :: bs, b' :: bs' => b.bytes = b'.bytes ∧ RecasedBlocks none bs bs'
  | _, _, _ => False

/-- The place of the first header with this very name. -/
def placeOf (req : Request) (name : Str) : Option ℕ := req.headers.findIdx? (·.name == name)

/-- The two searches of the connection end alike. -/
def FoundAlike (req req' : Request) : Prop :=
  placeOf req (ascii "Connection") = placeOf req' (ascii "Connection") ∧
    (placeOf req (ascii "Host")).isSome = (placeOf req' (ascii "Host")).isSome

instance (req req' : Request) : Decidable (FoundAlike req req') :=
  inferInstanceAs (Decidable (_ = _ ∧ _ = _))

/-- Whenever a response is due, the searches of the connection end alike. -/
def Agreeing : Session → Session → List Block → List Block → Prop
  | some s, some t, b :: bs, b' :: bs' =>
      ((scan Parser.step s b.bytes).2.isSome = true →
        FoundAlike (scan Parser.step s b.bytes).1.2 (scan Parser.step t b'.bytes).1.2) ∧
      Agreeing (Session.receive (some s) b) (Session.receive (some t) b') bs bs'
  | _, _, _, _ => True

/-! ## Case -/

variable {c c' : UInt8}

theorem islower_tolower (h : isupper c = true) : islower (tolower c) = true := by
  rw [tolower, if_pos h]
  simp only [isupper, islower, Bool.and_eq_true, decide_eq_true_eq] at h ⊢
  grind

/-- Lowering the case neither makes nor loses a byte that is no letter. -/
theorem tolower_eq_iff {d : UInt8} (hd : isalpha d = false) : tolower c = d ↔ c = d := by
  obtain ⟨hupper, hlower⟩ := Bool.or_eq_false_iff.mp hd
  by_cases hc : isupper c = true
  · refine iff_of_false (fun h => ?_) fun h => ?_
    · rw [← h, islower_tolower hc] at hlower
      cases hlower
    · rw [← h, hc] at hupper
      cases hupper
  · rw [tolower, if_neg hc]

theorem eq_iff_of_tolower_eq (h : tolower c = tolower c') {d : UInt8} (hd : isalpha d = false) :
    c = d ↔ c' = d := by
  rw [← tolower_eq_iff hd, h, tolower_eq_iff hd]

theorem beq_eq_of_tolower_eq (h : tolower c = tolower c') {d : UInt8} (hd : isalpha d = false) :
    (c == d) = (c' == d) := by
  rw [Bool.eq_iff_iff, beq_iff_eq, beq_iff_eq]
  exact eq_iff_of_tolower_eq h hd

theorem iscntrl_eq_of_tolower_eq (h : tolower c = tolower c') : iscntrl c = iscntrl c' := by
  unfold tolower isupper at h
  unfold iscntrl
  grind

/-! ## Parsing without case -/

/-- A header whose name is in lower case. -/
def lowered (header : Header) : Header := { header with name := header.name.map tolower }

/-- The same parse, up to the case of header names. -/
structure SameLowered (s t : Parser × Request) : Prop where
  parser : s.1 = t.1
  method : s.2.method = t.2.method
  uri : s.2.uri = t.2.uri
  major : s.2.httpVersionMajor = t.2.httpVersionMajor
  minor : s.2.httpVersionMinor = t.2.httpVersionMinor
  headers : s.2.headers.map lowered = t.2.headers.map lowered

variable {s t s' t' : Parser × Request} {state : State} {req req' : Request}

theorem SameLowered.refl (s : Parser × Request) : SameLowered s s := ⟨rfl, rfl, rfl, rfl, rfl, rfl⟩

theorem map_modifyBack {f g : Header → Header} {headers : List Header}
    (h : ∀ header, lowered (f header) = g (lowered header)) :
    (modifyBack f headers).map lowered = modifyBack g (headers.map lowered) := by
  induction headers with
  | nil => rfl
  | cons header rest ih =>
      cases rest with
      | nil => exact congrArg (fun x => [x]) (h header)
      | cons next rest => exact congrArg (lowered header :: ·) ih

/-- Growing the value of the last header. -/
theorem lowered_pushValue (req : Request) (c : UInt8) :
    (req.pushValue c).headers.map lowered =
      modifyBack (fun h => { h with value := h.value ++ [c] }) (req.headers.map lowered) :=
  map_modifyBack fun _ => rfl

/-- Growing the name of the last header. -/
theorem lowered_pushName (req : Request) (c : UInt8) :
    (req.pushName c).headers.map lowered =
      modifyBack (fun h => { h with name := h.name ++ [tolower c] })
        (req.headers.map lowered) := by
  refine map_modifyBack fun header => ?_
  simp only [lowered, List.map_append, List.map_cons, List.map_nil]

theorem lowered_pushHeader (req : Request) (c : UInt8) :
    (req.pushHeader c).headers.map lowered =
      req.headers.map lowered ++ [{ name := [tolower c] }] := List.map_append ..

/-- The parser looks at the names of headers nowhere. -/
theorem SameLowered.step_same (h : SameLowered s t) (c : UInt8) :
    Together SameLowered (Parser.step s c) (Parser.step t c) := by
  obtain ⟨⟨state⟩, req⟩ := s
  obtain ⟨⟨state'⟩, req'⟩ := t
  obtain ⟨hparser, hmethod, huri, hmajor, hminor, hheaders⟩ := h
  obtain rfl : state = state' := congrArg Parser.state hparser
  have hempty : req.headers.isEmpty = req'.headers.isEmpty := by
    rw [← List.isEmpty_map (f := lowered), hheaders, List.isEmpty_map]
  have hkeep : ∀ next : State, SameLowered (⟨next⟩, req) (⟨next⟩, req') :=
    fun next => ⟨rfl, hmethod, huri, hmajor, hminor, hheaders⟩
  cases state
  all_goals
    simp only [Parser.step, expect, hempty]
    split_ifs
  all_goals first
    | rfl
    | exact hkeep _
    | exact ⟨rfl, congrArg (· ++ [c]) hmethod, huri, hmajor, hminor, hheaders⟩
    | exact ⟨rfl, hmethod, congrArg (· ++ [c]) huri, hmajor, hminor, hheaders⟩
    | exact ⟨rfl, hmethod, huri, rfl, hminor, hheaders⟩
    | exact ⟨rfl, hmethod, huri, hmajor, rfl, hheaders⟩
    | exact ⟨rfl, hmethod, huri, congrArg (· * 10 + digitValue c) hmajor, hminor, hheaders⟩
    | exact ⟨rfl, hmethod, huri, hmajor, congrArg (· * 10 + digitValue c) hminor, hheaders⟩
    | exact ⟨rfl, hmethod, huri, hmajor, hminor, by
        simp only [lowered_pushValue, lowered_pushName, lowered_pushHeader, hheaders]⟩

/-- A byte of a name, in either case. -/
theorem SameLowered.step_recased (h : SameLowered s t) (hname : InName s c)
    (hc : tolower c = tolower c') :
    Together SameLowered (Parser.step s c) (Parser.step t c') := by
  obtain ⟨⟨state⟩, req⟩ := s
  obtain ⟨⟨state'⟩, req'⟩ := t
  obtain ⟨hparser, hmethod, huri, hmajor, hminor, hheaders⟩ := h
  obtain rfl : state = state' := congrArg Parser.state hparser
  have hcr : c = CR ↔ c' = CR := eq_iff_of_tolower_eq hc (by decide)
  have hsp : (c == SP) = (c' == SP) := beq_eq_of_tolower_eq hc (by decide)
  have htab : (c == HTAB) = (c' == HTAB) := beq_eq_of_tolower_eq hc (by decide)
  have hcolon : c = COLON ↔ c' = COLON := eq_iff_of_tolower_eq hc (by decide)
  have hcolon' : (c == COLON) = (c' == COLON) := beq_eq_of_tolower_eq hc (by decide)
  have hcntrl : iscntrl c = iscntrl c' := iscntrl_eq_of_tolower_eq hc
  have hempty : req.headers.isEmpty = req'.headers.isEmpty := by
    rw [← List.isEmpty_map (f := lowered), hheaders, List.isEmpty_map]
  unfold InName at hname
  -- a name begins and goes on in these two states only
  cases state
  case headerLineStart =>
    simp only [Parser.step, hempty, hcr, hsp, htab, hcolon', hcntrl, bne] at hname ⊢
    split_ifs at hname ⊢
    · cases hname
    · cases hname
    · refine ⟨rfl, hmethod, huri, hmajor, hminor, ?_⟩
      simp only [lowered_pushHeader, hheaders, hc]
    · cases hname
  case headerName =>
    simp only [Parser.step, hcolon, hsp, hcntrl, bne] at hname ⊢
    split_ifs at hname ⊢
    · cases hname
    · refine ⟨rfl, hmethod, huri, hmajor, hminor, ?_⟩
      simp only [lowered_pushName, hheaders, hc]
    · cases hname
  all_goals
    simp only [Parser.step, expect] at hname
    split_ifs at hname
    all_goals cases hname

theorem SameLowered.step (h : SameLowered s t) (hc : Recasing s c c') :
    Together SameLowered (Parser.step s c) (Parser.step t c') := by
  rcases hc with rfl | ⟨hname, hc⟩
  · exact h.step_same c
  · exact h.step_recased hname hc

/-! ## Answering without case -/

/-- The value of the first header with this very name. -/
def valueOf (req : Request) (name : Str) : Option Str :=
  (req.headers.find? (·.name == name)).map Header.value

theorem valueOf_eq (req : Request) (name : Str) :
    valueOf req name = (placeOf req name).bind fun i => (req.headers.map Header.value)[i]? := by
  rw [valueOf, List.find?_eq_bind_findIdx?_getElem?, Option.map_bind]
  refine congrArg _ (funext fun i => ?_)
  rw [Function.comp, List.getElem?_map]

theorem SameLowered.valueOf_eq (h : SameLowered s t) {name name' : Str}
    (hplace : placeOf s.2 name = placeOf t.2 name') : valueOf s.2 name = valueOf t.2 name' := by
  have hvalues := congrArg (List.map Header.value) h.headers
  rw [List.map_map, List.map_map] at hvalues
  rw [Core.valueOf_eq, Core.valueOf_eq, hplace]
  exact congrArg (fun values : List Str => (placeOf t.2 name').bind fun i => values[i]?) hvalues

theorem getHeader_eq (req : Request) (name : Str) :
    req.getHeader name = (valueOf req name).getD [] := by
  unfold Request.getHeader valueOf
  cases req.headers.find? (·.name == name) <;> rfl

theorem keepAliveFor_eq (req : Request) : keepAliveFor req =
    ((valueOf req (ascii "Connection")).map fun value =>
      decide (ascii "keep-alive" <:+: value.map tolower)).getD
        (asInt req.httpVersionMajor == 1 && asInt req.httpVersionMinor == 1) := by
  unfold keepAliveFor valueOf
  cases req.headers.find? (·.name == ascii "Connection") <;> rfl

theorem isSome_find?_eq (req : Request) (name : Str) :
    (req.headers.find? (·.name == name)).isSome = (placeOf req name).isSome := by
  rw [placeOf, List.findIdx?_isSome, List.isSome_find?]

theorem SameLowered.keepAliveFor_eq (h : SameLowered s t) (hfound : FoundAlike s.2 t.2) :
    keepAliveFor s.2 = keepAliveFor t.2 := by
  rw [Core.keepAliveFor_eq, Core.keepAliveFor_eq, h.valueOf_eq hfound.1, h.major, h.minor]

theorem SameLowered.statusFor_eq (h : SameLowered s t) (hfound : FoundAlike s.2 t.2)
    (v : ParseResult) : statusFor s.2 v = statusFor t.2 v := by
  have hcompliant : compliant s.2 = compliant t.2 := by
    unfold compliant
    simp only [isSome_find?_eq, hfound.2, h.major, h.minor, h.method, h.uri]
  unfold statusFor
  rw [hcompliant]

/-- **Sessions.** -/
theorem SameLowered.alike (h : SameLowered s t) {bs bs' : List Block}
    (hrecased : RecasedBlocks (some s) bs bs') (hagree : Agreeing (some s) (some t) bs bs') :
    Session.Alike (some s) (some t) bs bs' := by
  induction bs generalizing s t bs' with
  | nil =>
      cases bs' with
      | nil => exact .nil rfl
      | cons b' bs' => exact hrecased.elim
  | cons b bs ih =>
      cases bs' with
      | nil => exact hrecased.elim
      | cons b' bs' =>
          obtain ⟨hblock, hrest⟩ := hrecased
          obtain ⟨hfound, hagree⟩ := hagree
          obtain ⟨hsame, hverdict⟩ := scan_lockstep (fun _ _ _ _ h hc => h.step hc) hblock h
          rcases hscan : scan Parser.step s b.bytes with ⟨s', v⟩
          rcases hscan' : scan Parser.step t b'.bytes with ⟨t', v'⟩
          rw [hscan, hscan'] at hsame hverdict hfound
          obtain rfl : v = v' := hverdict
          cases v with
          | none =>
              rw [Session.receive_of_undecided hscan] at hrest hagree
              rw [Session.receive_of_undecided hscan'] at hagree
              exact .undecided hscan hscan' (ih hsame hrest hagree)
          | some v =>
              -- the searches end alike, so both answer the same and both stay open or close
              have hkeep := hsame.keepAliveFor_eq (hfound rfl)
              have hstatus := hsame.statusFor_eq (hfound rfl) v
              rw [Session.receive_of_verdict hscan] at hrest hagree
              rw [Session.receive_of_verdict hscan', ← hkeep] at hagree
              apply Session.Alike.verdict hscan hscan' hstatus
              rw [← hkeep]
              cases hk : keepAliveFor s'.2 with
              | true =>
                  rw [hk] at hrest hagree
                  exact ih hsame hrest hagree
              | false => exact .none bs bs'

/-- The request that the parser fills in from `w`. -/
def parsed (major minor : Int) (w : Str) : Request :=
  (scan Parser.step ({}, .empty major minor) w).1.2

/-- **Names are compared byte for byte.**  A stream and a recased one are answered alike if the
searches for `Connection` and `Host` end alike, and two lookups give the same value if they end at
the same place. -/
theorem answersAlike_of_recased (major minor : Int) :
    (∀ bs bs', RecasedBlocks (Connection.fresh major minor).session bs bs' →
      Agreeing (Connection.fresh major minor).session (Connection.fresh major minor).session bs
        bs' → (Connection.fresh major minor).AnswersAlike (Connection.fresh major minor) bs bs') ∧
    ∀ w w', Recased ({}, .empty major minor) w w' → ∀ name name',
      placeOf (parsed major minor w) name = placeOf (parsed major minor w') name' →
        (parsed major minor w).getHeader name = (parsed major minor w').getHeader name' := by
  constructor
  · intro bs bs' hrecased hagree
    rw [Connection.answersAlike_iff bs bs' (Connection.fresh_atRest major minor)
      (Connection.fresh_atRest major minor), Connection.fresh_session]
    exact (SameLowered.refl _).alike hrecased hagree
  · intro w w' hrecased name name' hplace
    obtain ⟨hsame, -⟩ :=
      scan_lockstep (fun _ _ _ _ h hc => h.step hc) hrecased (SameLowered.refl _)
    rw [getHeader_eq, getHeader_eq]
    exact congrArg (Option.getD · []) (hsame.valueOf_eq hplace)

def accepting : Str := ascii "GET / HTTP/1.1\x0d\nHost: a\x0d\nAccept: b\x0d\n\x0d\n"

/-- The same, with one header name in upper case. -/
def acceptingUpper : Str := ascii "GET / HTTP/1.1\x0d\nHost: a\x0d\nACCEPT: b\x0d\n\x0d\n"

theorem answersAlike_accepting :
    (Connection.fresh 0 0).AnswersAlike (Connection.fresh 0 0)
      [⟨accepting, by decide, by decide⟩] [⟨acceptingUpper, by decide, by decide⟩] ∧
    (parsed 0 0 accepting).getHeader (ascii "Accept") =
      (parsed 0 0 acceptingUpper).getHeader (ascii "ACCEPT") := by
  obtain ⟨hanswers, hlookup⟩ := answersAlike_of_recased 0 0
  have hrecased : Recased ({}, .empty 0 0) accepting acceptingUpper := by decide +kernel
  constructor
  · exact hanswers _ _ ⟨hrecased, trivial⟩ ⟨by decide +kernel, trivial⟩
  · exact hlookup accepting acceptingUpper hrecased _ _ (by decide +kernel)

/-- A request that asks for the connection to be closed. -/
def lastRequest : Str := ascii "GET / HTTP/1.1\x0d\nHost: a\x0d\nConnection: close\x0d\n\x0d\n"

/-- The same, with its header names in lower case. -/
def lastRequestLowered : Str :=
  ascii "GET / HTTP/1.1\x0d\nhost: a\x0d\nconnection: close\x0d\n\x0d\n"

/-- The first is accepted and closed, the second is rejected and kept open. -/
theorem not_answersAlike_lastRequest : ∃ bs bs',
    RecasedBlocks (Connection.fresh 0 0).session bs bs' ∧
      (Connection.fresh 0 0).statuses bs ≠ (Connection.fresh 0 0).statuses bs' ∧
      ((Connection.fresh 0 0).deliver bs).state ≠ ((Connection.fresh 0 0).deliver bs').state ∧
      (parsed 0 0 lastRequest).getHeader (ascii "Host") ≠
        (parsed 0 0 lastRequest).getHeader (ascii "host") := by
  refine ⟨[⟨lastRequest, by decide, by decide⟩], [⟨lastRequestLowered, by decide, by decide⟩],
    ⟨by decide +kernel, trivial⟩, ?_, ?_, ?_⟩
  all_goals decide +kernel

end GinCpp.Core
