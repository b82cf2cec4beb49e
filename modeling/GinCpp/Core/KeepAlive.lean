import GinCpp.Core.ReadBoundaries
import GinCpp.Http.HeaderLines

/-!
# Requests that follow one another

Every request of a keep-alive connection should be answered as if it came alone on a fresh one.
It is if the parser is in its initial state when it comes, and `answeredAsAlone_iff` says that it
need not be in any other: what an earlier request left behind shows in the answer to one of the
four `probes`.

The probes are chosen by the state in which the parser was left.  Most states reject the first
probe, which is a proper request.  A value that was begun is continued by the request line of a
probe, so that the answer depends on the headers of the request before.  A method that was begun
is completed by the last probe, which alone is malformed.
-/

namespace GinCpp.Core

open Http Scanner

variable {major minor : Int}

/-- A fresh connection answers the request with `status`, and stays open. -/
def AnsweredAlone (major minor : Int) (r : List Block) (status : StatusCode) : Prop :=
  (Connection.fresh major minor).statuses r = [status] ∧
    ((Connection.fresh major minor).deliver r).state ≠ .closed

/-- On one connection every request of the list is answered as on a fresh connection. -/
def AnsweredAsAlone (major minor : Int) (rs : List (List Block)) : Prop :=
  ∀ before r after, rs = before ++ r :: after →
    ((Connection.fresh major minor).deliver before.flatten).statuses r =
      (Connection.fresh major minor).statuses r

/-- The block cannot begin a request. -/
def Block.Foreign (b : Block) : Prop := ∀ c, b.bytes.head? = some c → isalpha c = false

/-! ## In terms of sessions -/

namespace Session

/-- The session of a fresh connection. -/
abbrev start (major minor : Int) : Session := some ({}, .empty major minor)

end Session

theorem statuses_deliver (bs r : List Block) :
    ((Connection.fresh major minor).deliver bs).statuses r =
      ((Session.start major minor).deliver bs).replies r := by
  obtain ⟨hrest, hsession, -⟩ :=
    Connection.deliver_spec bs (Connection.fresh_atRest major minor)
  rw [Connection.statuses_eq r hrest, hsession, Connection.fresh_session]

theorem answeredAlone_iff {r : List Block} {status : StatusCode} :
    AnsweredAlone major minor r status ↔
      (Session.start major minor).replies r = [status] ∧
        (Session.start major minor).deliver r ≠ none := by
  obtain ⟨hrest, hsession, -⟩ :=
    Connection.deliver_spec r (Connection.fresh_atRest major minor)
  have hstatuses : (Connection.fresh major minor).statuses r =
      (Session.start major minor).replies r := statuses_deliver [] r
  rw [Connection.fresh_session, Connection.session] at hsession
  rw [AnsweredAlone, hstatuses, ← hsession]
  refine and_congr_right fun _ => ?_
  rcases hrest with h | h <;> simp [h]

theorem answeredAsAlone_iff_sessions {rs : List (List Block)} :
    AnsweredAsAlone major minor rs ↔ ∀ before r after, rs = before ++ r :: after →
      ((Session.start major minor).deliver before.flatten).replies r =
        (Session.start major minor).replies r := by
  have hstart : ∀ r, (Connection.fresh major minor).statuses r =
      (Session.start major minor).replies r := fun r => statuses_deliver [] r
  simp only [AnsweredAsAlone, statuses_deliver, hstart]

/-! ## Foreign blocks leave the initial state -/

theorem scan_foreign {b : Block} (h : b.Foreign) (req : Request) :
    scan Parser.step ({}, req) b.bytes = (({}, req), some .bad) := by
  obtain ⟨c, w, hb⟩ := List.exists_cons_of_ne_nil b.ne_nil
  have hc : isalpha c = false := h c (by rw [hb]; rfl)
  rw [hb]
  exact scan_cons_error (by simp [Parser.step, hc])

/-- A request of foreign blocks that is answered and keeps the connection leaves no trace. -/
theorem deliver_of_foreign {r : List Block} (h : ∀ b ∈ r, b.Foreign)
    (hopen : (Session.start major minor).deliver r ≠ none) :
    (Session.start major minor).deliver r = Session.start major minor := by
  induction r with
  | nil => rfl
  | cons b r ih =>
      obtain ⟨hb, hr⟩ := List.forall_mem_cons.mp h
      have hreceive := Session.receive_of_verdict (scan_foreign hb (.empty major minor))
      rw [Session.deliver, List.foldl_cons, hreceive] at hopen ⊢
      split_ifs at hopen ⊢
      · exact ih hr hopen
      · exact absurd (Session.deliver_none r) hopen

theorem deliver_flatten_of_foreign {rs : List (List Block)} (h : ∀ r ∈ rs, ∀ b ∈ r, b.Foreign)
    (halone : ∀ r ∈ rs, ∃ status, AnsweredAlone major minor r status) :
    (Session.start major minor).deliver rs.flatten = Session.start major minor := by
  induction rs with
  | nil => rfl
  | cons r rs ih =>
      obtain ⟨hr, hrs⟩ := List.forall_mem_cons.mp h
      obtain ⟨⟨status, halone⟩, halones⟩ := List.forall_mem_cons.mp halone
      rw [List.flatten_cons, Session.deliver_append,
        deliver_of_foreign hr (answeredAlone_iff.mp halone).2, ih hrs halones]

/-! ## Before the target of a request -/

/-- A method at most has been read. -/
def InMethod (s : Parser × Request) : Prop :=
  s.1.state = .methodStart ∨ s.1.state = .method

/-- What the request holds as long as a method at most has been read. -/
def Early (major minor : Int) (s : Parser × Request) : Prop :=
  (s.1.state = .methodStart → s.2 = .empty major minor) ∧
    (s.1.state = .method → ∃ m ≠ [], s.2 = { Request.empty major minor with method := m })

/-- The initial state is never entered again, and the method is read right after it. -/
theorem step_states {s s' : Parser × Request} {c : UInt8} (h : Parser.step s c = .ok s') :
    s'.1.state ≠ .methodStart ∧ (InMethod s' → InMethod s) := by
  obtain ⟨⟨state⟩, req⟩ := s
  cases state
  all_goals
    simp only [Parser.step, expect] at h
    split_ifs at h <;> cases h <;> simp [InMethod]

theorem step_early {s s' : Parser × Request} {c : UInt8} (hs : Early major minor s)
    (h : Parser.step s c = .ok s') : Early major minor s' := by
  refine ⟨fun hstate => absurd hstate (step_states h).1, fun hstate => ?_⟩
  obtain ⟨⟨state⟩, req⟩ := s
  rcases (step_states h).2 (Or.inr hstate) with hmethod | hmethod
  · obtain rfl : state = .methodStart := hmethod
    obtain rfl : req = .empty major minor := hs.1 rfl
    simp only [Parser.step] at h
    split_ifs at h
    cases h
    exact ⟨[c], List.cons_ne_nil c [], rfl⟩
  · obtain rfl : state = .method := hmethod
    obtain ⟨m, -, rfl⟩ : ∃ m ≠ [], req = _ := hs.2 rfl
    simp only [Parser.step] at h
    split_ifs at h <;> cases h
    · cases hstate
    · exact ⟨m ++ [c], by simp, rfl⟩

theorem scan_inMethod {s : Parser × Request} {w : Str}
    (h : InMethod (scan Parser.step s w).1) : InMethod s := by
  induction w generalizing s with
  | nil => exact h
  | cons c w ih =>
      cases hstep : Parser.step s c with
      | ok t =>
          rw [scan_cons_ok hstep] at h
          exact (step_states hstep).2 (ih h)
      | error v => rwa [scan_cons_error hstep] at h

theorem scan_ne_methodStart {s : Parser × Request} (w : Str) (h : s.1.state ≠ .methodStart) :
    (scan Parser.step s w).1.1.state ≠ .methodStart :=
  scan_induction (P := fun s => s.1.state ≠ .methodStart)
    (fun _ _ _ _ hstep => (step_states hstep).1) h

namespace Session

/-- The session before a block that leaves it open. -/
theorem exists_of_receive {S : Session} {b : Block} {s' : Parser × Request}
    (h : S.receive b = some s') :
    ∃ s, S = some s ∧ (scan Parser.step s b.bytes).1 = s' ∧
      (S.reply b ≠ none → keepAliveFor s'.2 = true) := by
  cases S with
  | none => cases h
  | some s =>
      refine ⟨s, rfl, ?_⟩
      rcases hscan : scan Parser.step s b.bytes with ⟨t, _ | v⟩
      · rw [receive_of_undecided hscan, Option.some_inj] at h
        exact ⟨h, fun hreply => absurd (reply_of_undecided hscan) hreply⟩
      · rw [receive_of_verdict hscan] at h
        split_ifs at h with hkeep
        · obtain rfl := Option.some_inj.mp h
          exact ⟨rfl, fun _ => hkeep⟩

theorem deliver_concat (S : Session) (bs : List Block) (b : Block) :
    S.deliver (bs ++ [b]) = (S.deliver bs).receive b := deliver_append S bs [b]

variable {bs : List Block} {s : Parser × Request}

theorem early_of_deliver (h : (start major minor).deliver bs = some s) :
    Early major minor s := by
  induction bs using List.reverseRecOn generalizing s with
  | nil =>
      obtain rfl := Option.some_inj.mp h
      exact ⟨fun _ => rfl, nofun⟩
  | append_singleton bs b ih =>
      rw [deliver_concat] at h
      obtain ⟨t, ht, rfl, -⟩ := exists_of_receive h
      exact scan_induction (fun _ _ _ hs hstep => step_early hs hstep) (ih ht)

/-- In the initial state every block so far was foreign. -/
theorem foreign_of_deliver (h : (start major minor).deliver bs = some s)
    (hstate : s.1.state = .methodStart) : ∀ b ∈ bs, b.Foreign := by
  induction bs using List.reverseRecOn generalizing s with
  | nil => nofun
  | append_singleton bs b ih =>
      rw [deliver_concat] at h
      obtain ⟨t, ht, rfl, -⟩ := exists_of_receive h
      have htstate : t.1.state = .methodStart := by
        by_contra hne
        exact scan_ne_methodStart b.bytes hne hstate
      refine List.forall_mem_append.mpr ⟨ih ht htstate, List.forall_mem_singleton.mpr ?_⟩
      intro c hc
      by_contra halpha
      obtain ⟨⟨state⟩, req⟩ := t
      obtain rfl : state = .methodStart := htstate
      obtain ⟨d, w, hb⟩ := List.exists_cons_of_ne_nil b.ne_nil
      obtain rfl : d = c := by simpa [hb] using hc
      have hstep : Parser.step (⟨.methodStart⟩, req) d = .ok (⟨.method⟩, req.pushMethod d) := by
        simp [Parser.step, halpha]
      rw [hb, scan_cons_ok hstep] at hstate
      exact scan_ne_methodStart w (by simp) hstate

/-- A connection that stays open after an answer without having read a version took the one in
its memory for 1.1. -/
theorem version_of_deliver (h : (start major minor).deliver bs = some s) (hmethod : InMethod s)
    (hreplies : (start major minor).replies bs ≠ []) : asInt major = 1 ∧ asInt minor = 1 := by
  induction bs using List.reverseRecOn generalizing s with
  | nil => exact absurd rfl hreplies
  | append_singleton bs b ih =>
      have hearly := early_of_deliver h
      rw [deliver_concat] at h
      obtain ⟨t, ht, rfl, hkeep⟩ := exists_of_receive h
      by_cases hreply : ((start major minor).deliver bs).reply b = none
      · refine ih ht (scan_inMethod hmethod) ?_
        simpa [replies_append, replies, hreply] using hreplies
      · have hdefault := hkeep hreply
        rcases hmethod with hstate | hstate
        · rw [hearly.1 hstate] at hdefault
          simpa [keepAliveFor] using hdefault
        · obtain ⟨m, -, hreq⟩ := hearly.2 hstate
          rw [hreq] at hdefault
          simpa [keepAliveFor] using hdefault

end Session

/-! ## Probes -/

/-- A proper request. -/
def getProbe : Block := ⟨getRequest, by decide, by decide⟩

/-- A request whose host is missing. -/
def hostlessProbe : Block := ⟨ascii "GET / HTTP/1.1\x0d\n\x0d\n", by decide, by decide⟩

/-- A request that needs no host. -/
def oldProbe : Block :=
  ⟨ascii "GET / HTTP/1.0\x0d\nConnection: keep-alive\x0d\n\x0d\n", by decide, by decide⟩

/-- A request without a method. -/
def tailProbe : Block := ⟨ascii " / HTTP/1.1\x0d\nHost: a\x0d\n\x0d\n", by decide, by decide⟩

theorem replies_singleton {s s' : Parser × Request} {b : Block} {v : ParseResult}
    {status : StatusCode} (h : scan Parser.step s b.bytes = (s', some v))
    (hstatus : statusFor s'.2 v = some status) : Session.replies (some s) [b] = [status] := by
  simp [Session.replies, Session.reply_of_verdict h, hstatus]

theorem answeredAlone_of_scan {s' : Parser × Request} {b : Block} {v : ParseResult}
    {status : StatusCode}
    (h : scan Parser.step ({}, .empty major minor) b.bytes = (s', some v))
    (hstatus : statusFor s'.2 v = some status) (hkeep : keepAliveFor s'.2 = true) :
    AnsweredAlone major minor [b] status := by
  refine answeredAlone_iff.mpr ⟨replies_singleton h hstatus, ?_⟩
  simp [Session.deliver, Session.receive_of_verdict h, hkeep]

theorem getProbe_alone : AnsweredAlone major minor [getProbe] .ok := by
  have hscan : scan Parser.step ({}, .empty major minor) getProbe.bytes =
      ((⟨.expectingNewline3⟩,
        ⟨ascii "GET", ascii "/", 1, 1, [⟨ascii "Host", ascii "a"⟩], []⟩), some .good) := rfl
  exact answeredAlone_of_scan hscan (by decide) (by decide)

theorem hostlessProbe_alone : AnsweredAlone major minor [hostlessProbe] .badRequest := by
  have hscan : scan Parser.step ({}, .empty major minor) hostlessProbe.bytes =
      ((⟨.expectingNewline3⟩, ⟨ascii "GET", ascii "/", 1, 1, [], []⟩), some .good) := rfl
  exact answeredAlone_of_scan hscan (by decide) (by decide)

theorem oldProbe_alone : AnsweredAlone major minor [oldProbe] .ok := by
  let connection : Header := ⟨ascii "Connection", ascii "keep-alive"⟩
  let req : Request := ⟨ascii "GET", ascii "/", 1, 0, [], []⟩
  have hscan : scan Parser.step ({}, .empty major minor) oldProbe.bytes =
      ((⟨.expectingNewline3⟩, req.addHeader connection), some .good) :=
    calc scan Parser.step ({}, .empty major minor) oldProbe.bytes
        = scan Parser.step (⟨.headerLineStart⟩, req) (connection.line ++ ascii "\x0d\n") := rfl
      _ = scan Parser.step (⟨.headerLineStart⟩, req.addHeader connection) (ascii "\x0d\n") :=
          scan_line (by decide) req _
  exact answeredAlone_of_scan hscan rfl (by decide +kernel)

/-- The empty request asks for keep-alive if the memory happens to say version 1.1. -/
theorem tailProbe_alone (hmajor : asInt major = 1) (hminor : asInt minor = 1) :
    AnsweredAlone major minor [tailProbe] .badRequest := by
  have hscan : scan Parser.step ({}, .empty major minor) tailProbe.bytes =
      (({}, .empty major minor), some .bad) := rfl
  refine answeredAlone_of_scan hscan rfl ?_
  simp [keepAliveFor, hmajor, hminor]

/-! ## What the probes see -/

/-- A state that rejects the first bytes of a request. -/
theorem replies_of_rejected {s : Parser × Request} {b : Block}
    (h : (scan Parser.step s b.bytes).2 = some .bad) :
    Session.replies (some s) [b] = [.badRequest] := by
  have hscan : scan Parser.step s b.bytes = ((scan Parser.step s b.bytes).1, some .bad) :=
    Prod.ext rfl h
  exact replies_singleton hscan rfl

theorem compliant_congr {req req' : Request} (hmajor : req.httpVersionMajor = req'.httpVersionMajor)
    (hminor : req.httpVersionMinor = req'.httpVersionMinor) (hmethod : req.method = req'.method)
    (huri : req.uri = req'.uri)
    (hhost : ascii "Host" ∈ req.headers.map Header.name ↔
      ascii "Host" ∈ req'.headers.map Header.name) : compliant req = compliant req' := by
  have hfind : ∀ headers : List Header, (headers.find? (·.name == ascii "Host")).isSome =
      decide (ascii "Host" ∈ headers.map Header.name) := by
    intro headers
    rw [Bool.eq_iff_iff, List.find?_isSome, decide_eq_true_iff, List.mem_map]
    exact exists_congr fun header => and_congr_right fun _ => beq_iff_eq
  simp only [compliant, hfind, hmajor, hminor, hmethod, huri, hhost]

theorem compliant_appendValue (req : Request) (text : Str) :
    compliant (req.appendValue text) = compliant req := by
  refine compliant_congr rfl rfl rfl rfl ?_
  rw [Request.map_name_appendValue]

theorem compliant_addHeader (req : Request) {header : Header} (h : header.name ≠ ascii "Host") :
    compliant (req.addHeader header) = compliant req := by
  refine compliant_congr rfl rfl rfl rfl ?_
  simp [Request.addHeader, h.symm]

/-- A value that was begun takes in the request line of the next request. -/
theorem exists_probe_of_value (major minor : Int) {s : Parser × Request} {req : Request}
    (h : ∀ w, scan Parser.step s ('G'.toUInt8 :: w) =
      scan Parser.step (⟨.headerValue⟩, req) ('G'.toUInt8 :: w)) :
    ∃ r status, AnsweredAlone major minor r status ∧ Session.replies (some s) r ≠ [status] := by
  have hhostless : scan Parser.step s hostlessProbe.bytes =
      ((⟨.expectingNewline3⟩, req.appendValue (ascii "GET / HTTP/1.1")), some .good) :=
    (h _).trans (scan_value (by decide +kernel : ∀ c ∈ ascii "GET / HTTP/1.1", _) req
      (ascii "\x0d\n\x0d\n"))
  let connection : Header := ⟨ascii "Connection", ascii "keep-alive"⟩
  have hold : scan Parser.step s oldProbe.bytes =
      ((⟨.expectingNewline3⟩, (req.appendValue (ascii "GET / HTTP/1.0")).addHeader connection),
        some .good) := by
    have hvalue := scan_value (by decide +kernel : ∀ c ∈ ascii "GET / HTTP/1.0", _) req
      (CR :: LF :: (connection.line ++ ascii "\x0d\n"))
    rw [scan_lineEnd, scan_line (by decide)] at hvalue
    exact (h _).trans hvalue
  cases hreq : compliant req with
  | true =>
      have hok : statusFor (req.appendValue (ascii "GET / HTTP/1.1")) .good = some .ok := by
        rw [statusFor, compliant_appendValue, hreq, if_pos rfl]
      refine ⟨_, _, hostlessProbe_alone, ?_⟩
      rw [replies_singleton hhostless hok]
      simp
  | false =>
      have hbad : statusFor ((req.appendValue (ascii "GET / HTTP/1.0")).addHeader connection)
          .good = some .badRequest := by
        rw [statusFor, compliant_addHeader _ (by decide), compliant_appendValue, hreq]
        rfl
      refine ⟨_, _, oldProbe_alone, ?_⟩
      rw [replies_singleton hold hbad]
      simp

/-- **The probes tell every state from the initial one.** -/
theorem exists_probe {s : Parser × Request} (hne : s.1.state ≠ .methodStart)
    (hearly : Early major minor s) (hversion : InMethod s → asInt major = 1 ∧ asInt minor = 1) :
    ∃ r status, AnsweredAlone major minor r status ∧
      Session.replies (some s) r ≠ [status] := by
  obtain ⟨⟨state⟩, req⟩ := s
  have hrejected : (scan Parser.step (⟨state⟩, req) getProbe.bytes).2 = some .bad →
      ∃ r status, AnsweredAlone major minor r status ∧
        Session.replies (some (⟨state⟩, req)) r ≠ [status] := by
    intro hbad
    refine ⟨_, _, getProbe_alone, ?_⟩
    rw [replies_of_rejected hbad]
    simp
  cases state
  case methodStart => exact absurd rfl hne
  case method =>
    obtain ⟨hmajor, hminor⟩ := hversion (Or.inr rfl)
    obtain ⟨m, hm, rfl⟩ : ∃ m ≠ [], req = _ := hearly.2 rfl
    obtain ⟨c, m, rfl⟩ := List.exists_cons_of_ne_nil hm
    have hscan : scan Parser.step (⟨.method⟩, { Request.empty major minor with method := c :: m })
        tailProbe.bytes = ((⟨.expectingNewline3⟩,
          ⟨c :: m, ascii "/", 1, 1, [⟨ascii "Host", ascii "a"⟩], []⟩), some .good) := rfl
    have hok : statusFor ⟨c :: m, ascii "/", 1, 1, [⟨ascii "Host", ascii "a"⟩], []⟩ .good =
        some .ok := rfl
    refine ⟨_, _, tailProbe_alone hmajor hminor, ?_⟩
    rw [replies_singleton hscan hok]
    simp
  case headerValue => exact exists_probe_of_value major minor fun _ => rfl
  case headerLws => exact exists_probe_of_value major minor fun _ => rfl
  case headerLineStart =>
    exact hrejected (congrArg Prod.snd (scan_cons_ok (step_nameByte (by decide) req)))
  all_goals exact hrejected rfl

/-- What is before a request in a list is a prefix of what is before the last one. -/
theorem prefix_of_concat_eq {α : Type*} {xs before after : List α} {x y : α}
    (h : xs ++ [x] = before ++ y :: after) : before <+: xs := by
  rcases List.prefix_concat_iff.mp (h ▸ List.prefix_append before (y :: after)) with heq | hstart
  · rw [heq] at h
    have hlength := congrArg List.length h
    simp at hlength
  · exact hstart

/-- **When a keep-alive connection answers as fresh ones do.**  After requests that are all
answered when they come alone, every next request is answered as if it came alone if and only if
no read so far could begin a request: the parser must still be in its initial state. -/
theorem answeredAsAlone_iff (major minor : Int) (rs : List (List Block))
    (halone : ∀ r ∈ rs, ∃ status, AnsweredAlone major minor r status) :
    (∀ r status, AnsweredAlone major minor r status → AnsweredAsAlone major minor (rs ++ [r])) ↔
      ∀ r ∈ rs, ∀ b ∈ r, b.Foreign := by
  constructor
  · intro hall
    have hreplies : ∀ r status, AnsweredAlone major minor r status →
        ((Session.start major minor).deliver rs.flatten).replies r = [status] := by
      intro r status hr
      rw [answeredAsAlone_iff_sessions.mp (hall r status hr) rs r [] rfl]
      exact (answeredAlone_iff.mp hr).1
    obtain ⟨s, hs⟩ : ∃ s, (Session.start major minor).deliver rs.flatten = some s := by
      refine Option.ne_none_iff_exists'.mp fun hnone => ?_
      have hprobe := hreplies _ _ getProbe_alone
      rw [hnone, Session.replies_none] at hprobe
      cases hprobe
    have hstate : s.1.state = .methodStart := by
      by_contra hne
      have hanswered : (Session.start major minor).replies rs.flatten ≠ [] := by
        cases rs with
        | nil =>
            obtain rfl := Option.some_inj.mp hs
            exact absurd rfl hne
        | cons r rs =>
            obtain ⟨status, hr⟩ := halone r List.mem_cons_self
            rw [List.flatten_cons, Session.replies_append, (answeredAlone_iff.mp hr).1]
            exact List.cons_ne_nil _ _
      obtain ⟨r, status, hr, hdiffers⟩ := exists_probe hne (Session.early_of_deliver hs)
        fun hmethod => Session.version_of_deliver hs hmethod hanswered
      exact hdiffers (hs ▸ hreplies r status hr)
    exact fun r hr b hb =>
      Session.foreign_of_deliver hs hstate b (List.mem_flatten.mpr ⟨r, hr, hb⟩)
  · intro hforeign r status _
    refine answeredAsAlone_iff_sessions.mpr fun before r' after h => ?_
    have hbefore : before <+: rs := prefix_of_concat_eq h
    rw [deliver_flatten_of_foreign (fun q hq => hforeign q (hbefore.subset hq))
      fun q hq => halone q (hbefore.subset hq)]

/-- One proper request came before. -/
theorem answeredAsAlone_iff_get :
    (∀ r status, AnsweredAlone 0 0 r status → AnsweredAsAlone 0 0 ([[getProbe]] ++ [r])) ↔
      ∀ r ∈ [[getProbe]], ∀ b ∈ r, b.Foreign :=
  answeredAsAlone_iff 0 0 [[getProbe]]
    (List.forall_mem_singleton.mpr ⟨.ok, getProbe_alone⟩)

/-- The second of two equal requests is answered with 400, alone it is answered with 200. -/
theorem not_answeredAsAlone_twice :
    (∀ r ∈ [[getProbe], [getProbe]], ∃ status, AnsweredAlone 0 0 r status) ∧
      ¬ AnsweredAsAlone 0 0 [[getProbe], [getProbe]] := by
  refine ⟨?_, fun h => ?_⟩
  · intro r hr
    obtain rfl : r = [getProbe] := by simpa using hr
    exact ⟨.ok, getProbe_alone⟩
  · exact absurd (h [[getProbe]] [getProbe] [] rfl) (by decide)

end GinCpp.Core
