import GinCpp.Core.ReadBoundaries
import GinCpp.Core.Revival
import GinCpp.Scanner.Lockstep

/-!
# What the memory of the version held

The constructor of a request leaves its version undefined, and the connection reads it after every
block.  Until the parser has set it, the parse does not depend on it; a byte that is rejected
before it is set is answered as if the connection had a version.  `versionInvisible_iff` says when
this shows.
-/

namespace GinCpp.Core

open Http Scanner

/-- The states in front of the first digit of the major version. -/
def beforeMajor : State → Bool
  | .methodStart | .method | .uri | .httpVersionH | .httpVersionT1 | .httpVersionT2
  | .httpVersionP | .httpVersionSlash | .httpVersionMajorStart => true
  | _ => false

/-- The states in front of the first digit of the minor version. -/
def beforeMinor : State → Bool
  | .httpVersionMajor | .httpVersionMinorStart => true
  | state => beforeMajor state

/-- The version of a request that ends here decides about the connection, and is not all read. -/
def Undetermined (s : Parser × Request) : Prop :=
  beforeMajor s.1.state = true ∨ (beforeMinor s.1.state = true ∧ asInt s.2.httpVersionMajor = 1)

/-- **The memory does not show**: whatever the version fields held, a new connection answers in the
same way. -/
def VersionInvisible (bs : List Block) : Prop :=
  ∀ major minor major' minor', (Connection.fresh major minor).AnswersAlike
    (Connection.fresh major' minor') bs bs

/-! ## Parsing without a version -/

/-- The same parse, up to what is not set yet. -/
structure SameParse (s t : Parser × Request) : Prop where
  parser : s.1 = t.1
  method : s.2.method = t.2.method
  uri : s.2.uri = t.2.uri
  headers : s.2.headers = t.2.headers
  body : s.2.body = t.2.body
  major : beforeMajor s.1.state = false → s.2.httpVersionMajor = t.2.httpVersionMajor
  minor : beforeMinor s.1.state = false → s.2.httpVersionMinor = t.2.httpVersionMinor

/-- What is not set yet is as it was, and the headers come later. -/
structure Unset (major minor : Int) (s : Parser × Request) : Prop where
  major : beforeMajor s.1.state = true → s.2.httpVersionMajor = major
  minor : beforeMinor s.1.state = true → s.2.httpVersionMinor = minor
  headers : beforeMinor s.1.state = true → s.2.headers = []

variable {s t s' t' : Parser × Request} {c : UInt8} {major minor : Int}

theorem beforeMinor_of_beforeMajor {state : State} (h : beforeMajor state = true) :
    beforeMinor state = true := by
  cases state <;> first | exact h | rfl

/-- Once the version is set nothing is left of the memory. -/
theorem SameParse.eq (h : SameParse s t) (hset : beforeMinor s.1.state = false) : s = t := by
  have hmajor : beforeMajor s.1.state = false := by
    by_contra hbefore
    rw [beforeMinor_of_beforeMajor ((Bool.not_eq_false _).mp hbefore)] at hset
    cases hset
  obtain ⟨parser, method, uri, hmaj, hmin, headers, body⟩ := s
  obtain ⟨parser', method', uri', hmaj', hmin', headers', body'⟩ := t
  obtain ⟨hparser, hmethod, huri, hheaders, hbody, hmajor', hminor'⟩ := h
  simp only at hparser hmethod huri hheaders hbody hmajor' hminor' hmajor hset
  subst hparser hmethod huri hheaders hbody
  rw [hmajor' hmajor, hminor' hset]

theorem SameParse.refl (s : Parser × Request) : SameParse s s :=
  ⟨rfl, rfl, rfl, rfl, rfl, fun _ => rfl, fun _ => rfl⟩

/-- The parser looks at the version nowhere. -/
theorem SameParse.step (h : SameParse s t) (c : UInt8) :
    Together SameParse (Parser.step s c) (Parser.step t c) := by
  by_cases hset : beforeMinor s.1.state = false
  · rw [h.eq hset]
    exact together_refl SameParse.refl _
  obtain ⟨⟨state⟩, method, uri, major, minor, headers, body⟩ := s
  obtain ⟨⟨state'⟩, method', uri', major', minor', headers', body'⟩ := t
  obtain ⟨hparser, hmethod, huri, hheaders, hbody, hmajor, hminor⟩ := h
  simp only [Parser.mk.injEq] at hparser hmethod huri hheaders hbody hmajor hminor hset
  subst hparser hmethod huri hheaders hbody
  have hread : ∀ {P : Prop}, true = false → P := fun h => absurd h Bool.false_ne_true.symm
  cases state
  case httpVersionMajor =>
    obtain rfl : major = major' := hmajor rfl
    simp only [Parser.step]
    split_ifs
    · exact ⟨rfl, rfl, rfl, rfl, rfl, fun _ => rfl, hread⟩
    · exact ⟨rfl, rfl, rfl, rfl, rfl, fun _ => rfl, hread⟩
    · rfl
  case httpVersionMinorStart =>
    obtain rfl : major = major' := hmajor rfl
    simp only [Parser.step]
    split_ifs
    · exact ⟨rfl, rfl, rfl, rfl, rfl, fun _ => rfl, fun _ => rfl⟩
    · rfl
  case httpVersionMajorStart =>
    simp only [Parser.step]
    split_ifs
    · exact ⟨rfl, rfl, rfl, rfl, rfl, fun _ => rfl, hread⟩
    · rfl
  case methodStart | method | uri | httpVersionH | httpVersionT1 | httpVersionT2 | httpVersionP |
      httpVersionSlash =>
    simp only [Parser.step, expect]
    split_ifs
    all_goals first | rfl | exact ⟨rfl, rfl, rfl, rfl, rfl, hread, hread⟩
  all_goals exact absurd rfl hset

theorem Unset.step (h : Unset major minor s) (hstep : Parser.step s c = .ok s') :
    Unset major minor s' := by
  obtain ⟨⟨state⟩, req⟩ := s
  obtain ⟨hmajor, hminor, hheaders⟩ := h
  have hread : ∀ {P : Prop}, false = true → P := fun h => absurd h Bool.false_ne_true
  cases state
  all_goals
    simp only [Parser.step, expect] at hstep
    split_ifs at hstep
  all_goals
    cases hstep
  all_goals
    first
      | exact ⟨hmajor, hminor, hheaders⟩
      | exact ⟨hread, hminor, hheaders⟩
      | exact ⟨hread, hread, hread⟩

/-- Both connections scan a block alike. -/
theorem SameParse.scan (h : SameParse s t) (w : Str) :
    SameParse (scan Parser.step s w).1 (scan Parser.step t w).1 ∧
      (scan Parser.step s w).2 = (scan Parser.step t w).2 :=
  scan_lockstep (A := fun _ c c' => c = c') (fun _ _ c _ hst hc => hc ▸ hst.step c)
    (.refl (fun _ _ => rfl) s w) h

theorem Undetermined.congr (h : SameParse s t) (hs : Undetermined s) : Undetermined t := by
  rcases hs with hs | ⟨hs, hone⟩
  · exact .inl (h.parser ▸ hs)
  · by_cases hbefore : beforeMajor s.1.state = true
    · exact .inl (h.parser ▸ hbefore)
    · exact .inr ⟨h.parser ▸ hs, (h.major (Bool.eq_false_iff.mpr hbefore)) ▸ hone⟩

/-! ## Answering without a version -/

/-- Without headers the version decides. -/
theorem keepAliveFor_of_headers_eq_nil {req : Request} (h : req.headers = []) :
    keepAliveFor req = (asInt req.httpVersionMajor == 1 && asInt req.httpVersionMinor == 1) := by
  unfold keepAliveFor
  rw [h]
  rfl

theorem SameParse.keepAliveFor_eq (h : SameParse s t) (hs : Unset major minor s)
    (hdetermined : ¬ Undetermined s) :
    s = t ∨ (keepAliveFor s.2 = false ∧ keepAliveFor t.2 = false) := by
  by_cases hset : beforeMinor s.1.state = false
  · exact .inl (h.eq hset)
  rw [Bool.not_eq_false] at hset
  obtain ⟨hbefore, hone⟩ := not_or.mp hdetermined
  have hmajor : asInt s.2.httpVersionMajor ≠ 1 := fun heq => hone ⟨hset, heq⟩
  have hmajor' : asInt t.2.httpVersionMajor ≠ 1 := by
    rwa [← h.major (Bool.eq_false_iff.mpr hbefore)]
  have hnone : s.2.headers = [] := hs.headers hset
  refine .inr ⟨?_, ?_⟩
  · rw [keepAliveFor_of_headers_eq_nil hnone, beq_false_of_ne hmajor, Bool.false_and]
  · rw [keepAliveFor_of_headers_eq_nil (h.headers ▸ hnone), beq_false_of_ne hmajor',
      Bool.false_and]

theorem Undetermined.keepAliveFor_eq (h : Undetermined s) (hs : Unset major minor s) :
    keepAliveFor s.2 =
      ((beforeMajor s.1.state == false || asInt major == 1) && asInt minor == 1) := by
  have hset : beforeMinor s.1.state = true := h.elim beforeMinor_of_beforeMajor And.left
  rw [keepAliveFor_of_headers_eq_nil (hs.headers hset), hs.minor hset]
  cases hbefore : beforeMajor s.1.state with
  | true => rw [hs.major hbefore]; rfl
  | false =>
      have hone : asInt s.2.httpVersionMajor = 1 :=
        (h.resolve_left (by rw [hbefore]; exact nofun)).2
      rw [hone]
      rfl

theorem Unset.scan (h : Unset major minor s) (w : Str) :
    Unset major minor (scan Parser.step s w).1 :=
  scan_induction (fun _ _ _ hs hstep => hs.step hstep) h

/-- As long as the memory is not asked for, it does not show. -/
theorem SameParse.alike (h : SameParse s t) (hs : Unset major minor s) {bs : List Block}
    (hdetermined : ∀ s', Scanner.scan Parser.step s (stream bs) = (s', some .bad) →
      ¬ Undetermined s') : Session.Alike (some s) (some t) bs bs := by
  induction bs generalizing s t with
  | nil => exact .nil rfl
  | cons b bs ih =>
      obtain ⟨hsame, hverdict⟩ := h.scan b.bytes
      have hunset := hs.scan b.bytes
      rw [stream_cons] at hdetermined
      rcases hscan : Scanner.scan Parser.step s b.bytes with ⟨s', v⟩
      rcases hscan' : Scanner.scan Parser.step t b.bytes with ⟨t', v'⟩
      rw [hscan, hscan'] at hsame hverdict
      rw [hscan] at hunset
      obtain rfl : v = v' := hverdict
      cases v with
      | none =>
          apply Session.Alike.undecided hscan hscan'
          apply ih hsame hunset
          intro s'' hscan''
          apply hdetermined
          rw [scan_append hscan, hscan'']
      | some v =>
          -- either nothing is left of the memory, or both connections close
          have hcases : s' = t' ∨ (v = .bad ∧ keepAliveFor s'.2 = false ∧
              keepAliveFor t'.2 = false) := by
            rcases Parser.scan_verdict hscan with rfl | rfl
            · have hstate : s'.1.state = .expectingNewline3 := state_of_good hscan
              exact .inl (hsame.eq (by rw [hstate]; rfl))
            · have hdet := hdetermined s' (scan_append_of_verdict hscan)
              exact (hsame.keepAliveFor_eq hunset hdet).imp_right fun hclosed => ⟨rfl, hclosed⟩
          rcases hcases with rfl | ⟨rfl, hclosed, hclosed'⟩
          · exact .verdict hscan hscan' rfl (.refl _ bs)
          · apply Session.Alike.verdict hscan hscan' rfl
            rw [hclosed, hclosed']
            exact .refl none bs

/-- A connection that stays open and one that closes. -/
theorem SameParse.not_alike (h : SameParse s t) {bs : List Block}
    (hscan : Scanner.scan Parser.step s (stream bs) = (s', some .bad))
    (hscan' : Scanner.scan Parser.step t (stream bs) = (t', some .bad))
    (hkeep : keepAliveFor s'.2 ≠ keepAliveFor t'.2) : ¬ Session.Alike (some s) (some t) bs bs := by
  induction bs generalizing s t with
  | nil => cases hscan
  | cons b bs ih =>
      obtain ⟨hsame, hverdict⟩ := h.scan b.bytes
      rw [stream_cons] at hscan hscan'
      rcases hblock : Scanner.scan Parser.step s b.bytes with ⟨s'', v⟩
      rcases hblock' : Scanner.scan Parser.step t b.bytes with ⟨t'', v'⟩
      rw [hblock, hblock'] at hsame hverdict
      obtain rfl : v = v' := hverdict
      intro halike
      cases v with
      | none =>
          -- the message is still incomplete, and the last blocks tell the connections apart
          rw [scan_append hblock] at hscan
          rw [scan_append hblock'] at hscan'
          have htail := halike.tail (by
            rw [Session.reply_of_undecided hblock, Session.reply_of_undecided hblock'])
          rw [Session.receive_of_undecided hblock, Session.receive_of_undecided hblock'] at htail
          exact ih hsame hscan hscan' htail
      | some v =>
          -- the block is the one that is refused: one connection is open after it
          obtain ⟨rfl, -⟩ := Prod.mk.inj ((scan_append_of_verdict hblock).symm.trans hscan)
          obtain ⟨rfl, -⟩ := Prod.mk.inj ((scan_append_of_verdict hblock').symm.trans hscan')
          have hopen := halike.isSome 1
          change (Session.receive (some s) b).isSome = (Session.receive (some t) b).isSome at hopen
          rw [Session.receive_of_verdict hblock, Session.receive_of_verdict hblock'] at hopen
          apply hkeep
          cases hs : keepAliveFor s''.2 with
          | true =>
              cases ht : keepAliveFor t''.2 with
              | true => rfl
              | false => rw [hs, ht] at hopen; cases hopen
          | false =>
              cases ht : keepAliveFor t''.2 with
              | true => rw [hs, ht] at hopen; cases hopen
              | false => rfl

/-! ## New connections -/

theorem sameParse_empty (major minor major' minor' : Int) :
    SameParse ({}, .empty major minor) ({}, .empty major' minor') :=
  ⟨rfl, rfl, rfl, rfl, rfl, nofun, nofun⟩

theorem unset_empty (major minor : Int) : Unset major minor ({}, .empty major minor) :=
  ⟨fun _ => rfl, fun _ => rfl, fun _ => rfl⟩

/-- **When the memory does not show**: the first byte that is rejected comes neither in front of the
major version nor between a major version that is 1 as an `int` and the minor version. -/
theorem versionInvisible_iff (bs : List Block) : VersionInvisible bs ↔
    ∀ s, scan Parser.step ({}, .empty 0 0) (stream bs) = (s, some .bad) → ¬ Undetermined s := by
  constructor
  · intro hinvisible s hscan hundetermined
    obtain ⟨hsame, hverdict⟩ := (sameParse_empty 0 0 1 1).scan (stream bs)
    have hunset := (unset_empty 0 0).scan (stream bs)
    have hunset' := (unset_empty 1 1).scan (stream bs)
    rcases hscan' : scan Parser.step ({}, .empty 1 1) (stream bs) with ⟨t, v⟩
    rw [hscan, hscan'] at hsame hverdict
    rw [hscan] at hunset
    rw [hscan'] at hunset'
    obtain rfl : some .bad = v := hverdict
    have halike := (Connection.answersAlike_iff bs bs (Connection.fresh_atRest 0 0)
      (Connection.fresh_atRest 1 1)).mp (hinvisible 0 0 1 1)
    refine (sameParse_empty 0 0 1 1).not_alike hscan hscan' ?_ halike
    rw [hundetermined.keepAliveFor_eq hunset, (hundetermined.congr hsame).keepAliveFor_eq hunset']
    simp [asInt]
  · intro hdetermined major minor major' minor'
    rw [Connection.answersAlike_iff bs bs (Connection.fresh_atRest major minor)
      (Connection.fresh_atRest major' minor'), Connection.fresh_session, Connection.fresh_session]
    refine (sameParse_empty major minor major' minor').alike (unset_empty major minor) ?_
    intro s hscan hundetermined
    obtain ⟨hsame, hverdict⟩ := (sameParse_empty major minor 0 0).scan (stream bs)
    rw [hscan] at hsame hverdict
    exact hdetermined _ (Prod.ext rfl hverdict.symm) (hundetermined.congr hsame)

/-- A block that is rejected at its first byte. -/
theorem not_versionInvisible_newline :
    ¬ VersionInvisible [⟨[LF], List.cons_ne_nil _ _, by decide⟩] := by
  intro hinvisible
  exact absurd ((hinvisible 1 1 0 0).state 1) (by decide)

end GinCpp.Core
