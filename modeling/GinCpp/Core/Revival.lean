import GinCpp.Core.Conversation
import GinCpp.Http.Grammar

/-!
# What a response answers

In every run of a connection (reads, writes and timers completing in any order, with or without
errors, and `stop` at any time) the responses that are no read errors answer a verdict of the
parser.  `NeverRevived` is what one would like to hold of them: every 200 answers a request of
its own, and nothing is accepted after a malformed message.

The parser is not put back to its initial state after a verdict, so this fails as soon as a later
read brings the bytes that are missing in the state the verdict left.  `neverRevived_iff` says
that it fails only then.
-/

namespace GinCpp.Core

open Http Scanner

/-! ## Runs -/

/-- What the event loop reports to a connection. -/
inductive Event
  | readDone (result : Except IoError Block)
  | writeDone (error : Option IoError)
  | timerExpired (guard : ConnState)
  | stop

/-- The bytes an event delivers. -/
def Event.bytes : Event → Str
  | .readDone (.ok b) => b.bytes
  | _ => []

def received (es : List Event) : Str := es.flatMap Event.bytes

@[simp] theorem received_nil : received [] = [] := rfl

@[simp] theorem received_cons (e : Event) (es : List Event) :
    received (e :: es) = e.bytes ++ received es := rfl

/-- A parse result that was answered, and the status of the response. -/
structure Answer where
  result : ParseResult
  status : StatusCode
  deriving DecidableEq, Repr

namespace Connection

variable (c : Connection)

/-- The handler of an event. -/
def handle : Event → Connection
  | .readDone (.ok b) => c.onRead none b.bytes
  | .readDone (.error error) => c.onRead (some error) []
  | .writeDone error => c.onWrite error
  | .timerExpired guard => c.onTimer guard
  | .stop => c.shutdown

/-- The parser and the request it fills in. -/
def current : Parser × Request := (c.parser, c.request)

/-- The response to what a successful read brought. -/
def answer (e : Event) : Option Answer :=
  match e with
  | .readDone (.ok b) =>
      ((c.handle e).responses.drop c.responses.length).head?.map fun status =>
        ⟨(c.parser.parse c.request b.bytes).2.2, status⟩
  | _ => none

end Connection

/-- The answers of a run, each with the number of bytes delivered by then; `n` were delivered
before. -/
def answers : Connection → ℕ → List Event → List (Answer × ℕ)
  | _, _, [] => []
  | c, n, e :: es =>
      ((c.answer e).toList.map fun a => (a, n + e.bytes.length)) ++
        answers (c.handle e) (n + e.bytes.length) es

/-- Every 200 has a piece of the text that is a request, ends with what was delivered by then at
the latest, and begins where the piece of the previous 200 ended. -/
def Accounted (text : Str) : ℕ → List (Answer × ℕ) → Prop
  | _, [] => True
  | start, (a, delivered) :: as =>
      if a.status = .ok then
        ∃ stop ≤ delivered, (text.take stop).drop start ∈ message ∧ Accounted text stop as
      else Accounted text start as

/-- Nothing is accepted after a malformed message. -/
def Rejecting (as : List (Answer × ℕ)) : Prop :=
  as.Pairwise fun a a' => a.1.result = .bad → a'.1.result ≠ .good

/-- **No message is revived** in the run `es` of `c`. -/
def NeverRevived (c : Connection) (es : List Event) : Prop :=
  Accounted (received es) 0 (answers c 0 es) ∧ Rejecting (answers c 0 es)

/-! ## The condition -/

/-- An event brings what is missing in the state the parser is in. -/
def Completes (c : Connection) (e : Event) : Prop :=
  ∃ p, p <+: e.bytes ∧ p ∈ rest c.current

/-- An answer after which nothing may be completed: a 200, or the answer to a malformed
message. -/
def Answer.bars (a : Answer) : Bool := a.status == .ok || a.result == .bad

/-- After such an answer (`barred` tells whether there was one before) no read completes the
message the parser was left in. -/
def Unresumed : Bool → Connection → List Event → Prop
  | _, _, [] => True
  | barred, c, e :: es =>
      (barred = true → ¬ Completes c e) ∧
        Unresumed (barred || (c.answer e).any Answer.bars) (c.handle e) es

/-- Reads end with the request they complete. -/
def NothingDropped : Connection → List Event → Prop
  | _, [] => True
  | c, e :: es =>
      (∀ p, p <+: e.bytes → p ∈ rest c.current → p = e.bytes) ∧ NothingDropped (c.handle e) es

/-! ## One event -/

theorem completes_iff {c : Connection} {e : Event} :
    Completes c e ↔ (scan Parser.step c.current e.bytes).2 = some .good :=
  residual_rest.exists_prefix_iff

namespace Connection

/-! Only a successful read touches the parser and the request. -/

section Frame

variable (c : Connection)

@[simp] theorem current_call (op : Call) : (c.call op).current = c.current := rfl

@[simp] theorem current_transitionState (state : ConnState) :
    (c.transitionState state).current = c.current := rfl

@[simp] theorem current_doRead : c.doRead.current = c.current := rfl

@[simp] theorem current_doWrite : c.doWrite.current = c.current := rfl

@[simp] theorem current_shutdown : c.shutdown.current = c.current := by
  unfold shutdown
  dsimp only
  split <;> rfl

@[simp] theorem current_managerStop : c.managerStop.current = c.current := by
  rw [managerStop, current_shutdown, current_call]

theorem current_onReadError (error : IoError) : (c.onRead (some error) []).current = c.current := by
  cases error with
  | operationAborted => rfl
  | other =>
      rw [onRead, current_managerStop, current_doWrite]
      rfl

theorem current_onWrite (error : Option IoError) : (c.onWrite error).current = c.current := by
  cases error with
  | none =>
      unfold onWrite
      dsimp only
      split
      · rw [current_doRead, startIdleTimer, current_call, current_transitionState, current_call]
      · rw [current_managerStop, current_call, current_call]
  | some error => rw [onWrite, current_managerStop, current_call]

theorem current_onTimer (guard : ConnState) : (c.onTimer guard).current = c.current := by
  unfold onTimer
  split
  · rw [current_managerStop, current_shutdown]
  · rfl

end Frame

/-- An event is answered exactly if it brings a verdict. -/
theorem answer_cases (c : Connection) (e : Event) :
    (c.answer e = none ∧ scan Parser.step c.current e.bytes = ((c.handle e).current, none)) ∨
    ∃ v status, c.answer e = some ⟨v, status⟩ ∧
      scan Parser.step c.current e.bytes = ((c.handle e).current, some v) ∧
      statusFor (c.handle e).current.2 v = some status := by
  rcases e with (error | b) | error | guard | _
  case readDone.ok =>
    rcases hscan : scan Parser.step (c.parser, c.request) b.bytes with ⟨s', _ | v⟩
    · obtain ⟨-, hs', hresponses⟩ := onRead_undecided hscan
      refine Or.inl ⟨?_, hscan.trans ?_⟩
      · simp [answer, handle, hresponses]
      · rw [current, handle, hs']
    · obtain ⟨status, hstatus⟩ := exists_statusFor hscan
      obtain ⟨-, hs', -, hresponses⟩ := onRead_verdict hscan hstatus
      refine Or.inr ⟨v, status, ?_, hscan.trans ?_, ?_⟩
      · simp [answer, handle, hresponses, Parser.parse, hscan]
      · rw [current, handle, hs']
      · rw [current, handle, hs', hstatus]
  case readDone.error => exact Or.inl ⟨rfl, by rw [handle, current_onReadError]; rfl⟩
  case writeDone => exact Or.inl ⟨rfl, by rw [handle, current_onWrite]; rfl⟩
  case timerExpired => exact Or.inl ⟨rfl, by rw [handle, current_onTimer]; rfl⟩
  case stop => exact Or.inl ⟨rfl, by rw [handle, current_shutdown]; rfl⟩

end Connection

/-! ## After a complete request -/

theorem state_of_good {s s' : Parser × Request} {w : Str}
    (h : scan Parser.step s w = (s', some .good)) : s'.1.state = .expectingNewline3 := by
  obtain ⟨_, _, _, _, _, hc⟩ := exists_of_scan_verdict h
  exact Parser.state_of_step_good hc

/-- A complete request waits for nothing but the next verdict. -/
theorem scan_complete {s : Parser × Request} (h : s.1.state = .expectingNewline3) (w : Str) :
    scan Parser.step s w = (s, w.head?.map fun c => if c = LF then .good else .bad) := by
  obtain ⟨⟨state⟩, req⟩ := s
  subst h
  cases w <;> rfl

theorem status_good {req : Request} {status : StatusCode}
    (h : statusFor req .good = some status) : (status = .ok ↔ compliant req = true) := by
  obtain rfl := Option.some_inj.mp h
  split_ifs with hreq <;> simp [hreq]

theorem status_bad {req : Request} {status : StatusCode}
    (h : statusFor req .bad = some status) : status ≠ .ok := by
  obtain rfl := Option.some_inj.mp h
  simp

/-! ## Runs of answers -/

theorem accounted_of_forall_ne_ok {text : Str} {start : ℕ} {as : List (Answer × ℕ)}
    (h : ∀ a ∈ as, a.1.status ≠ .ok) : Accounted text start as := by
  induction as with
  | nil => trivial
  | cons a as ih =>
      rw [Accounted, if_neg (h a List.mem_cons_self)]
      exact ih fun a' ha' => h a' (List.mem_cons_of_mem a ha')

theorem rejecting_of_forall_bad {as : List (Answer × ℕ)}
    (h : ∀ a ∈ as, a.1.result ≠ .good) : Rejecting as :=
  List.Pairwise.imp_of_mem (fun _ ha' _ _ => h _ ha') (List.pairwise_of_forall fun _ _ => trivial)

theorem answers_of_none {c : Connection} {n : ℕ} {e : Event} {es : List Event}
    (h : c.answer e = none) :
    answers c n (e :: es) = answers (c.handle e) (n + e.bytes.length) es := by
  simp [answers, h]

theorem answers_of_some {c : Connection} {n : ℕ} {e : Event} {es : List Event} {a : Answer}
    (h : c.answer e = some a) :
    answers c n (e :: es) =
      (a, n + e.bytes.length) :: answers (c.handle e) (n + e.bytes.length) es := by
  simp [answers, h]

/-! ## The condition is enough -/

/-- After an answer that bars, everything is rejected. -/
theorem answers_of_barred {c : Connection} {n : ℕ} {es : List Event}
    (h : Unresumed true c es) :
    ∀ a ∈ answers c n es, a.1.status ≠ .ok ∧ a.1.result ≠ .good := by
  induction es generalizing c n with
  | nil => simp [answers]
  | cons e es ih =>
      obtain ⟨hnot, hrest⟩ := h
      rw [Bool.true_or] at hrest
      rcases c.answer_cases e with ⟨hnone, -⟩ | ⟨v, status, hsome, hscan, hstatus⟩
      · rw [answers_of_none hnone]
        exact ih hrest
      · rw [answers_of_some hsome, List.forall_mem_cons]
        refine ⟨?_, ih hrest⟩
        have hv : v ≠ .good := by
          rintro rfl
          exact hnot rfl (completes_iff.mpr (by rw [hscan]))
        have hbad : v = .bad := (Parser.scan_verdict hscan).resolve_left hv
        subst hbad
        exact ⟨status_bad hstatus, hv⟩

/-- A request that was complete but not compliant is answered with 400 for ever. -/
theorem answers_of_noncompliant {c : Connection} {n : ℕ} {es : List Event}
    (hstate : c.current.1.state = .expectingNewline3) (hnot : compliant c.current.2 = false)
    (h : Unresumed false c es) :
    (∀ a ∈ answers c n es, a.1.status ≠ .ok) ∧ Rejecting (answers c n es) := by
  induction es generalizing c n with
  | nil => simp [answers, Rejecting]
  | cons e es ih =>
      obtain ⟨-, hrest⟩ := h
      have hcurrent : (c.handle e).current = c.current := by
        have hscan := scan_complete hstate e.bytes
        rcases c.answer_cases e with ⟨-, h⟩ | ⟨_, _, -, h, -⟩
        all_goals
          rw [h] at hscan
          exact (Prod.mk.inj hscan).1
      rcases c.answer_cases e with ⟨hnone, -⟩ | ⟨v, status, hsome, hscan, hstatus⟩
      · rw [answers_of_none hnone]
        rw [hnone] at hrest
        exact ih (hcurrent ▸ hstate) (hcurrent ▸ hnot) hrest
      · rw [hcurrent] at hstatus
        rw [answers_of_some hsome, List.forall_mem_cons]
        rcases Parser.scan_verdict hscan with rfl | rfl
        · have hne : status ≠ .ok := by simp [status_good hstatus, hnot]
          rw [hsome] at hrest
          obtain ⟨hall, hrejecting⟩ := ih (hcurrent ▸ hstate) (hcurrent ▸ hnot)
            (n := n + e.bytes.length) (by
              rwa [Option.any_some, Answer.bars, beq_eq_false_iff_ne.mpr hne] at hrest)
          exact ⟨⟨hne, hall⟩, List.pairwise_cons.mpr ⟨by simp, hrejecting⟩⟩
        · rw [hsome, Option.any_some, Answer.bars, beq_self_eq_true, Bool.or_true] at hrest
          have hbarred := answers_of_barred (n := n + e.bytes.length) hrest
          refine ⟨⟨status_bad hstatus, fun a ha => (hbarred a ha).1⟩,
            List.pairwise_cons.mpr ⟨fun a ha _ => (hbarred a ha).2, ?_⟩⟩
          exact rejecting_of_forall_bad fun a ha => (hbarred a ha).2

/-- The first complete request is a piece of what was delivered by then. -/
theorem exists_piece {major minor : Int} {s : Parser × Request} {delivered : Str} (later : Str)
    (h : scan Parser.step ({}, .empty major minor) delivered = (s, some .good)) :
    ∃ stop ≤ delivered.length, ((delivered ++ later).take stop).drop 0 ∈ message := by
  obtain ⟨p, hp, hmem⟩ := residual_rest.exists_prefix_iff.mpr (congrArg Prod.snd h)
  obtain ⟨e, rfl⟩ := hp
  rw [rest_start] at hmem
  refine ⟨p.length, List.prefix_append p e |>.length_le, ?_⟩
  rwa [List.append_assoc, List.take_left, List.drop_zero]

/-- A run whose first answer bars. -/
theorem neverRevived_of_barred {major minor : Int} {c : Connection} {delivered : Str}
    {es : List Event} {v : ParseResult} {status : StatusCode}
    (hverdict : scan Parser.step ({}, .empty major minor) delivered = (c.current, some v))
    (hstatus : statusFor c.current.2 v = some status) (h : Unresumed true c es) :
    Accounted (delivered ++ received es) 0
        ((⟨v, status⟩, delivered.length) :: answers c delivered.length es) ∧
      Rejecting ((⟨v, status⟩, delivered.length) :: answers c delivered.length es) := by
  have hlater := answers_of_barred (n := delivered.length) h
  refine ⟨?_, List.pairwise_cons.mpr ⟨fun a ha _ => (hlater a ha).2,
    rejecting_of_forall_bad fun a ha => (hlater a ha).2⟩⟩
  have hnone : ∀ start, Accounted (delivered ++ received es) start
      (answers c delivered.length es) :=
    fun start => accounted_of_forall_ne_ok fun a ha => (hlater a ha).1
  rw [Accounted]
  split_ifs with hok
  · rcases Parser.scan_verdict hverdict with rfl | rfl
    · obtain ⟨stop, hstop, hpiece⟩ := exists_piece (received es) hverdict
      exact ⟨stop, hstop, hpiece, hnone stop⟩
    · exact absurd hok (status_bad hstatus)
  · exact hnone 0

/-- Before the first verdict, `past` being what was read. -/
theorem neverRevived_of_unresumed {major minor : Int} {c : Connection} {past : Str}
    {es : List Event} (hpast : scan Parser.step ({}, .empty major minor) past = (c.current, none))
    (h : Unresumed false c es) :
    Accounted (past ++ received es) 0 (answers c past.length es) ∧
      Rejecting (answers c past.length es) := by
  induction es generalizing c past with
  | nil => simp [answers, Accounted, Rejecting]
  | cons e es ih =>
      obtain ⟨-, hrest⟩ := h
      rw [received_cons, ← List.append_assoc]
      rcases c.answer_cases e with ⟨hnone, hscan⟩ | ⟨v, status, hsome, hscan, hstatus⟩
      · rw [answers_of_none hnone, ← List.length_append]
        rw [hnone] at hrest
        exact ih (by rw [scan_append hpast, hscan]) hrest
      · rw [answers_of_some hsome, ← List.length_append]
        rw [hsome, Bool.false_or, Option.any_some] at hrest
        cases hbars : Answer.bars ⟨v, status⟩ with
        | true =>
            rw [hbars] at hrest
            exact neverRevived_of_barred (by rw [scan_append hpast, hscan]) hstatus hrest
        | false =>
            rw [hbars] at hrest
            obtain ⟨hne, hbad⟩ : status ≠ .ok ∧ v ≠ .bad := by
              simpa [Answer.bars] using hbars
            obtain rfl := (Parser.scan_verdict hscan).resolve_right hbad
            obtain ⟨hall, hrejecting⟩ := answers_of_noncompliant (n := (past ++ e.bytes).length)
              (state_of_good hscan) (by simpa [status_good hstatus] using hne) hrest
            rw [Accounted, if_neg hne]
            exact ⟨accounted_of_forall_ne_ok hall, List.pairwise_cons.mpr ⟨by simp, hrejecting⟩⟩

/-! ## The condition is necessary -/

/-- Where no answer is `GOOD`, no read completes a message. -/
theorem unresumed_of_rejected {c : Connection} {n : ℕ} {es : List Event}
    (h : ∀ a ∈ answers c n es, a.1.result ≠ .good) : Unresumed true c es := by
  induction es generalizing c n with
  | nil => trivial
  | cons e es ih =>
      rw [Unresumed, Bool.true_or, completes_iff]
      rcases c.answer_cases e with ⟨hnone, hscan⟩ | ⟨v, status, hsome, hscan, -⟩
      · rw [answers_of_none hnone] at h
        exact ⟨fun _ => by simp [hscan], ih h⟩
      · rw [answers_of_some hsome, List.forall_mem_cons] at h
        exact ⟨fun _ => by simp [hscan, h.1], ih h.2⟩

/-- A request begins with a letter. -/
theorem notMem_message_of_LF {w : Str} (h : w.head? = some LF) : w ∉ message := by
  obtain ⟨w, rfl⟩ : ∃ t, w = LF :: t := by
    cases w with
    | nil => cases h
    | cons c t => exact ⟨t, by rw [Option.some_inj.mp h]⟩
  rw [← rest_start 0 0, cons_mem_rest]
  simp [Parser.step, show isalpha LF = false from rfl]

theorem nil_notMem_message : [] ∉ message := by
  rw [← rest_start 0 0]
  exact nil_notMem_rest _

/-- The piece of a second 200 would begin with the byte that is read next. -/
theorem unresumed_of_answered {c : Connection} {past : Str} {es : List Event}
    (hstate : c.current.1.state = .expectingNewline3) (hcompliant : compliant c.current.2 = true)
    (haccounted : Accounted (past ++ received es) past.length (answers c past.length es))
    (hrejecting : Rejecting (answers c past.length es)) : Unresumed true c es := by
  induction es generalizing c past with
  | nil => trivial
  | cons e es ih =>
      have hcomplete := scan_complete hstate e.bytes
      rcases c.answer_cases e with ⟨hnone, hscan⟩ | ⟨v, status, hsome, hscan, hstatus⟩
      · obtain ⟨hcurrent, hhead⟩ := Prod.mk.inj (hscan.symm.trans hcomplete)
        have hbytes : e.bytes = [] := by simpa using hhead.symm
        rw [answers_of_none hnone, hbytes] at haccounted hrejecting
        rw [received_cons, hbytes] at haccounted
        rw [Unresumed, completes_iff, hscan]
        exact ⟨by simp, ih (hcurrent ▸ hstate) (hcurrent ▸ hcompliant) haccounted hrejecting⟩
      · obtain ⟨hcurrent, hhead⟩ := Prod.mk.inj (hscan.symm.trans hcomplete)
        rw [answers_of_some hsome] at haccounted hrejecting
        have hbad : v = .bad := by
          refine (Parser.scan_verdict hscan).resolve_left ?_
          rintro rfl
          have hok : status = .ok := (status_good hstatus).mpr (hcurrent ▸ hcompliant)
          rw [Accounted, if_pos hok] at haccounted
          obtain ⟨stop, -, hpiece, -⟩ := haccounted
          rw [received_cons, List.drop_take, List.drop_left] at hpiece
          have hfirst : e.bytes.head? = some LF := by
            obtain ⟨d, hd, hgood⟩ := Option.map_eq_some_iff.mp hhead.symm
            rw [hd, Option.some_inj]
            by_contra hne
            simp [hne] at hgood
          rcases (stop - past.length).eq_zero_or_pos with hzero | hpos
          · rw [hzero, List.take_zero] at hpiece
            exact nil_notMem_message hpiece
          · refine notMem_message_of_LF ?_ hpiece
            rw [List.head?_take, if_neg hpos.ne', List.head?_append, hfirst]
            rfl
        subst hbad
        rw [Unresumed, completes_iff, hscan]
        exact ⟨by simp, unresumed_of_rejected fun a ha =>
          (List.pairwise_cons.mp hrejecting).1 a ha rfl⟩

/-- Without further 200s only an accepted message after a malformed one is at stake. -/
theorem unresumed_of_noncompliant {c : Connection} {n : ℕ} {es : List Event}
    (hstate : c.current.1.state = .expectingNewline3) (hnot : compliant c.current.2 = false)
    (hrejecting : Rejecting (answers c n es)) : Unresumed false c es := by
  induction es generalizing c n with
  | nil => trivial
  | cons e es ih =>
      have hcomplete := scan_complete hstate e.bytes
      refine ⟨nofun, ?_⟩
      rcases c.answer_cases e with ⟨hnone, hscan⟩ | ⟨v, status, hsome, hscan, hstatus⟩
      · obtain ⟨hcurrent, -⟩ := Prod.mk.inj (hscan.symm.trans hcomplete)
        rw [answers_of_none hnone] at hrejecting
        rw [hnone]
        exact ih (hcurrent ▸ hstate) (hcurrent ▸ hnot) hrejecting
      · obtain ⟨hcurrent, -⟩ := Prod.mk.inj (hscan.symm.trans hcomplete)
        rw [answers_of_some hsome] at hrejecting
        obtain ⟨hfirst, hlater⟩ := List.pairwise_cons.mp hrejecting
        rw [hsome, Option.any_some, Bool.false_or]
        rcases Parser.scan_verdict hscan with rfl | rfl
        · have hne : status ≠ .ok := by simp [status_good hstatus, hcurrent, hnot]
          rw [Answer.bars, beq_eq_false_iff_ne.mpr hne]
          exact ih (hcurrent ▸ hstate) (hcurrent ▸ hnot) hlater
        · rw [Answer.bars, beq_self_eq_true, Bool.or_true]
          exact unresumed_of_rejected fun a ha => hfirst a ha rfl

/-- No message begins with a shorter one. -/
theorem eq_length_of_take_mem_message {w : Str} {stop : ℕ} (hstop : stop ≤ w.length)
    (hpiece : w.take stop ∈ message) (hwhole : w ∈ message) : stop = w.length := by
  rw [← rest_start 0 0] at hpiece hwhole
  have htake : w.take stop = w :=
    residual_rest.eq_of_prefix hpiece hwhole (List.take_prefix stop w)
  have hlength := congrArg List.length htake
  rw [List.length_take] at hlength
  omega

/-- The run after the first answer. -/
theorem unresumed_of_neverRevived {major minor : Int} {c : Connection} {past : Str}
    {es : List Event} (hpast : scan Parser.step ({}, .empty major minor) past = (c.current, none))
    (hdropped : NothingDropped c es)
    (haccounted : Accounted (past ++ received es) 0 (answers c past.length es))
    (hrejecting : Rejecting (answers c past.length es)) : Unresumed false c es := by
  induction es generalizing c past with
  | nil => trivial
  | cons e es ih =>
      obtain ⟨hexact, hdropped⟩ := hdropped
      refine ⟨nofun, ?_⟩
      rw [received_cons, ← List.append_assoc] at haccounted
      rcases c.answer_cases e with ⟨hnone, hscan⟩ | ⟨v, status, hsome, hscan, hstatus⟩
      · rw [answers_of_none hnone, ← List.length_append] at haccounted hrejecting
        rw [hnone]
        exact ih (by rw [scan_append hpast, hscan]) hdropped haccounted hrejecting
      · rw [answers_of_some hsome, ← List.length_append] at haccounted hrejecting
        obtain ⟨hfirst, hlater⟩ := List.pairwise_cons.mp hrejecting
        rw [hsome, Option.any_some, Bool.false_or]
        rcases Parser.scan_verdict hscan with rfl | rfl
        · have hstate := state_of_good hscan
          cases hcompliant : compliant (c.handle e).current.2 with
          | true =>
              have hok : status = .ok := (status_good hstatus).mpr hcompliant
              rw [Accounted, if_pos hok] at haccounted
              obtain ⟨stop, hstop, hpiece, haccounted⟩ := haccounted
              have hwhole : past ++ e.bytes ∈ message := by
                obtain ⟨p, hp, hmem⟩ := completes_iff.mpr (congrArg Prod.snd hscan)
                rw [← rest_start major minor, residual_rest.append_mem_iff hpast]
                exact hexact p hp hmem ▸ hmem
              -- the first accounted piece is the whole of what came in, as it is a message
              have hend : stop = (past ++ e.bytes).length := by
                rw [List.drop_zero, List.take_append_of_le_length hstop] at hpiece
                exact eq_length_of_take_mem_message hstop hpiece hwhole
              rw [Answer.bars, hok, beq_self_eq_true, Bool.true_or]
              exact unresumed_of_answered hstate hcompliant (hend ▸ haccounted) hlater
          | false =>
              have hne : status ≠ .ok := by simp [status_good hstatus, hcompliant]
              rw [Answer.bars, beq_eq_false_iff_ne.mpr hne]
              exact unresumed_of_noncompliant hstate hcompliant hlater
        · rw [Answer.bars, beq_self_eq_true, Bool.or_true]
          exact unresumed_of_rejected fun a ha => hfirst a ha rfl

/-- **When no message is revived.**  In every run in which, after a 200 or after the answer to a
malformed message, no read completes the message the parser was left in; and in no other run
whose reads end with the request they complete. -/
theorem neverRevived_iff (major minor : Int) (es : List Event) :
    let c := Connection.fresh major minor
    (Unresumed false c es → NeverRevived c es) ∧
      (NothingDropped c es → (NeverRevived c es ↔ Unresumed false c es)) := by
  intro c
  have hstart : scan Parser.step ({}, .empty major minor) [] = (c.current, none) := rfl
  have henough : Unresumed false c es → NeverRevived c es := neverRevived_of_unresumed hstart
  exact ⟨henough, fun hdropped =>
    ⟨fun h => unresumed_of_neverRevived hstart hdropped h.1 h.2, henough⟩⟩

/-- A control byte in a header value, and the two line ends that are missing after it. -/
def malformed : Block := ⟨ascii "GET / HTTP/1.1\x0d\nHost: a\x01", by decide, by decide⟩

def lineEnds : Block := ⟨ascii "\x0d\n\x0d\n", by decide, by decide⟩

/-- The malformed request is answered with 400, and with 200 once the line ends have come. -/
theorem not_neverRevived_lineEnds :
    ¬ NeverRevived (Connection.fresh 0 0)
      [.readDone (.ok malformed), .writeDone none, .readDone (.ok lineEnds)] := by
  rintro ⟨-, hrejecting⟩
  have hanswers : answers (Connection.fresh 0 0) 0
      [.readDone (.ok malformed), .writeDone none, .readDone (.ok lineEnds)] =
        [(⟨.bad, .badRequest⟩, 24), (⟨.good, .ok⟩, 28)] := by decide
  rw [hanswers] at hrejecting
  exact (List.pairwise_cons.mp hrejecting).1 _ List.mem_cons_self rfl rfl

end GinCpp.Core
