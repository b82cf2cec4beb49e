import GinCpp.Core.Connection

/-!
# A connection whose responses are all written

The peer's view of a connection: a block arrives, it is parsed, and if a response is due it is
written before the next block is read.  `Connection.receive` runs the two completion handlers in
this order.

All that matters for what the peer sees is a `Session`: the parser and the request, or nothing
once the connection is closed.  `session_deliver` and `statuses_eq` say that the handlers
implement the session, so that the results about sequences of responses can be proved there.
-/

namespace GinCpp.Core

open Http Scanner

/-! ## Sessions -/

/-- A parser and the request it fills in, or `none` when the connection is closed. -/
abbrev Session := Option (Parser × Request)

namespace Session

/-- The response to a block. -/
def reply : Session → Block → Option StatusCode
  | none, _ => none
  | some s, b =>
      match scan Parser.step s b.bytes with
      | (_, none) => none
      | (s', some v) => statusFor s'.2 v

def receive : Session → Block → Session
  | none, _ => none
  | some s, b =>
      match scan Parser.step s b.bytes with
      | (s', none) => some s'
      | (s', some _) => if keepAliveFor s'.2 then some s' else none

def deliver (s : Session) (bs : List Block) : Session := bs.foldl receive s

/-- The responses to a list of blocks. -/
def replies : Session → List Block → List StatusCode
  | _, [] => []
  | s, b :: bs => (s.reply b).toList ++ replies (s.receive b) bs

@[simp] theorem receive_none (b : Block) : receive none b = none := rfl

@[simp] theorem reply_none (b : Block) : reply none b = none := rfl

@[simp] theorem replies_none (bs : List Block) : replies none bs = [] := by
  induction bs with
  | nil => rfl
  | cons b bs ih => simp [replies, ih]

theorem replies_append (s : Session) (bs bs' : List Block) :
    s.replies (bs ++ bs') = s.replies bs ++ (s.deliver bs).replies bs' := by
  induction bs generalizing s with
  | nil => rfl
  | cons b bs ih => simp [replies, deliver, ih]

theorem deliver_append (s : Session) (bs bs' : List Block) :
    s.deliver (bs ++ bs') = (s.deliver bs).deliver bs' := List.foldl_append ..

variable {s s' : Parser × Request} {v : ParseResult} {b : Block}

theorem reply_of_undecided (h : scan Parser.step s b.bytes = (s', none)) :
    reply (some s) b = none := by simp [reply, h]

theorem receive_of_undecided (h : scan Parser.step s b.bytes = (s', none)) :
    receive (some s) b = some s' := by simp [receive, h]

theorem reply_of_verdict (h : scan Parser.step s b.bytes = (s', some v)) :
    reply (some s) b = statusFor s'.2 v := by simp [reply, h]

theorem receive_of_verdict (h : scan Parser.step s b.bytes = (s', some v)) :
    receive (some s) b = if keepAliveFor s'.2 then some s' else none := by simp [receive, h]

end Session

/-- A verdict is always answered. -/
theorem exists_statusFor {s s' : Parser × Request} {w : Str} {v : ParseResult}
    (h : scan Parser.step s w = (s', some v)) : ∃ status, statusFor s'.2 v = some status := by
  rcases Parser.scan_verdict h with rfl | rfl
  · exact ⟨_, rfl⟩
  · exact ⟨_, rfl⟩

namespace Connection

/-! ## The handlers implement the session -/

/-- A block is read and, if a response is due, the response is written. -/
def receive (c : Connection) (b : Block) : Connection :=
  if c.state = .reading then
    let c := c.onRead none b.bytes
    if c.state = .writing then c.onWrite none else c
  else c

def deliver (c : Connection) (bs : List Block) : Connection := bs.foldl receive c

/-- The statuses of the responses written while `bs` is delivered. -/
def statuses (c : Connection) (bs : List Block) : List StatusCode :=
  (c.deliver bs).responses.drop c.responses.length

/-- A connection that has just been accepted and started. -/
def fresh (major minor : Int) : Connection := (construct major minor).start

/-- No response is on its way: the connection waits for a read or is closed. -/
def AtRest (c : Connection) : Prop := c.state = .reading ∨ c.state = .closed

def session (c : Connection) : Session :=
  if c.state = .reading then some (c.parser, c.request) else none

variable {c : Connection}

theorem onRead_undecided {data : Str} {s' : Parser × Request}
    (h : scan Parser.step (c.parser, c.request) data = (s', none)) :
    let c' := c.onRead none data
    c'.state = .reading ∧ (c'.parser, c'.request) = s' ∧ c'.responses = c.responses := by
  have hparse : c.parser.parse c.request data = (s'.1, s'.2, .indeterminate) := by
    simp [Parser.parse, h]
  simp [onRead, hparse, statusFor, responses, doRead, startReadTimer, call, transitionState]

theorem onRead_verdict {data : Str} {s' : Parser × Request} {v : ParseResult} {status : StatusCode}
    (h : scan Parser.step (c.parser, c.request) data = (s', some v))
    (hstatus : statusFor s'.2 v = some status) :
    let c' := c.onRead none data
    c'.state = .writing ∧ (c'.parser, c'.request) = s' ∧ c'.keepAlive = keepAliveFor s'.2 ∧
      c'.responses = c.responses ++ [status] := by
  have hparse : c.parser.parse c.request data = (s'.1, s'.2, v) := by
    simp [Parser.parse, h]
  simp [onRead, hparse, hstatus, responses, doWrite, startWriteTimer, call, transitionState]

theorem onWrite_keepAlive (h : c.keepAlive = true) :
    let c' := c.onWrite none
    c'.state = .reading ∧ (c'.parser, c'.request) = (c.parser, c.request) := by
  simp [onWrite, h, call, doRead, startReadTimer, startIdleTimer, transitionState]

theorem onWrite_close (h : c.keepAlive = false) : (c.onWrite none).state = .closed := by
  simp [onWrite, h, call]

/-- One block: the handlers and the session move together. -/
theorem receive_spec (b : Block) (hrest : c.AtRest) :
    (c.receive b).AtRest ∧ (c.receive b).session = c.session.receive b ∧
      (c.receive b).responses = c.responses ++ (c.session.reply b).toList := by
  rcases hrest with hstate | hstate
  · have hsession : c.session = some (c.parser, c.request) := if_pos hstate
    rcases hscan : scan Parser.step (c.parser, c.request) b.bytes with ⟨s', _ | v⟩
    · obtain ⟨hstate', hs', hresponses⟩ := onRead_undecided hscan
      have hreceive : c.receive b = c.onRead none b.bytes := by
        simp [receive, hstate, hstate']
      rw [hreceive, hsession, Session.receive_of_undecided hscan,
        Session.reply_of_undecided hscan]
      exact ⟨Or.inl hstate', by simp [session, hstate', hs'], by simp [hresponses]⟩
    · obtain ⟨status, hstatus⟩ := exists_statusFor hscan
      obtain ⟨hwriting, hs', hkeep, hresponses⟩ := onRead_verdict hscan hstatus
      have hreceive : c.receive b = (c.onRead none b.bytes).onWrite none := by
        simp [receive, hstate, hwriting]
      rw [hreceive, hsession, Session.receive_of_verdict hscan, Session.reply_of_verdict hscan,
        hstatus, responses_onWrite, hresponses]
      refine ⟨?_, ?_, rfl⟩
      · cases hk : keepAliveFor s'.2 with
        | true => exact Or.inl (onWrite_keepAlive (hkeep.trans hk)).1
        | false => exact Or.inr (onWrite_close (hkeep.trans hk))
      · cases hk : keepAliveFor s'.2 with
        | true =>
            obtain ⟨hreading, hs''⟩ := onWrite_keepAlive (hkeep.trans hk)
            simp [session, hreading, hs'', hs']
        | false => simp [session, onWrite_close (hkeep.trans hk)]
  · have hreceive : c.receive b = c := by simp [receive, hstate]
    have hsession : c.session = none := by simp [session, hstate]
    rw [hreceive, hsession]
    exact ⟨Or.inr hstate, rfl, by simp⟩

theorem deliver_spec (bs : List Block) (hrest : c.AtRest) :
    (c.deliver bs).AtRest ∧ (c.deliver bs).session = c.session.deliver bs ∧
      (c.deliver bs).responses = c.responses ++ c.session.replies bs := by
  induction bs generalizing c with
  | nil => exact ⟨hrest, rfl, (List.append_nil _).symm⟩
  | cons b bs ih =>
      obtain ⟨hrest', hsession, hresponses⟩ := receive_spec b hrest
      obtain ⟨ih₁, ih₂, ih₃⟩ := ih hrest'
      refine ⟨ih₁, ih₂.trans (by rw [hsession]; rfl), ih₃.trans ?_⟩
      rw [hresponses, hsession, List.append_assoc]
      rfl

/-- **What the peer sees is what the session replies.** -/
theorem statuses_eq (bs : List Block) (hrest : c.AtRest) :
    c.statuses bs = c.session.replies bs := by
  rw [statuses, (deliver_spec bs hrest).2.2, List.drop_left]

theorem fresh_atRest (major minor : Int) : (fresh major minor).AtRest := Or.inl rfl

/-- Where every session starts. -/
theorem fresh_session (major minor : Int) :
    (fresh major minor).session = some ({}, .empty major minor) := rfl

end Connection

/-! ## Answering alike -/

namespace Session

variable {S T : Session} {b b' : Block} {bs bs' : List Block}

/-- The same responses, and after every block both are open or both are closed. -/
structure Alike (S T : Session) (bs bs' : List Block) : Prop where
  replies : S.replies bs = T.replies bs'
  isSome : ∀ k, (S.deliver (bs.take k)).isSome = (T.deliver (bs'.take k)).isSome

theorem Alike.refl (S : Session) (bs : List Block) : S.Alike S bs bs := ⟨rfl, fun _ => rfl⟩

theorem Alike.nil (h : S.isSome = T.isSome) : S.Alike T [] [] := by
  refine ⟨rfl, fun k => ?_⟩
  rw [List.take_nil]
  exact h

@[simp] theorem deliver_none (bs : List Block) : deliver none bs = none := by
  induction bs with
  | nil => rfl
  | cons b bs ih => exact ih

/-- Both are closed. -/
theorem Alike.none (bs bs' : List Block) : Alike none none bs bs' := by
  refine ⟨by rw [replies_none, replies_none], fun k => ?_⟩
  rw [deliver_none, deliver_none]

theorem Alike.cons (hopen : S.isSome = T.isSome) (hreply : S.reply b = T.reply b')
    (h : (S.receive b).Alike (T.receive b') bs bs') : S.Alike T (b :: bs) (b' :: bs') := by
  refine ⟨by rw [Session.replies, Session.replies, hreply, h.replies], fun k => ?_⟩
  cases k with
  | zero => exact hopen
  | succ k => exact h.isSome k

variable {s s' t t' : Parser × Request} {v v' : ParseResult}

/-- No response is due to either, and both read on. -/
theorem Alike.undecided (hscan : scan Parser.step s b.bytes = (s', Option.none))
    (hscan' : scan Parser.step t b'.bytes = (t', Option.none))
    (h : Alike (some s') (some t') bs bs') : Alike (some s) (some t) (b :: bs) (b' :: bs') := by
  refine Alike.cons rfl ?_ ?_
  · rw [reply_of_undecided hscan, reply_of_undecided hscan']
  · rw [receive_of_undecided hscan, receive_of_undecided hscan']
    exact h

/-- The same response to both, and what follows is answered alike. -/
theorem Alike.verdict (hscan : scan Parser.step s b.bytes = (s', some v))
    (hscan' : scan Parser.step t b'.bytes = (t', some v'))
    (hstatus : statusFor s'.2 v = statusFor t'.2 v')
    (h : Alike (if keepAliveFor s'.2 then some s' else Option.none)
      (if keepAliveFor t'.2 then some t' else Option.none) bs bs') :
    Alike (some s) (some t) (b :: bs) (b' :: bs') := by
  refine Alike.cons rfl ?_ ?_
  · rw [reply_of_verdict hscan, reply_of_verdict hscan']
    exact hstatus
  · rw [receive_of_verdict hscan, receive_of_verdict hscan']
    exact h

theorem Alike.tail (h : S.Alike T (b :: bs) (b' :: bs')) (hreply : S.reply b = T.reply b') :
    (S.receive b).Alike (T.receive b') bs bs' := by
  refine ⟨?_, fun k => h.isSome (k + 1)⟩
  have hreplies := h.replies
  rw [Session.replies, Session.replies, hreply] at hreplies
  exact List.append_cancel_left hreplies

end Session

namespace Connection

variable {c c' : Connection}

/-- The same responses, and after every block the same decision whether to stay open. -/
structure AnswersAlike (c c' : Connection) (bs bs' : List Block) : Prop where
  statuses : c.statuses bs = c'.statuses bs'
  state : ∀ k, (c.deliver (bs.take k)).state = (c'.deliver (bs'.take k)).state

theorem isSome_session_iff : c.session.isSome = true ↔ c.state = .reading := by
  unfold session
  split_ifs with h
  · exact iff_of_true rfl h
  · exact iff_of_false nofun h

theorem state_eq_iff (hrest : c.AtRest) (hrest' : c'.AtRest) :
    c.state = c'.state ↔ c.session.isSome = c'.session.isSome := by
  rw [Bool.eq_iff_iff, isSome_session_iff, isSome_session_iff]
  rcases hrest with h | h
  all_goals
    rcases hrest' with h' | h'
    all_goals simp [h, h']

theorem answersAlike_iff (bs bs' : List Block) (hrest : c.AtRest) (hrest' : c'.AtRest) :
    c.AnswersAlike c' bs bs' ↔ c.session.Alike c'.session bs bs' := by
  have hstate : ∀ k, (c.deliver (bs.take k)).state = (c'.deliver (bs'.take k)).state ↔
      (c.session.deliver (bs.take k)).isSome = (c'.session.deliver (bs'.take k)).isSome := by
    intro k
    obtain ⟨hatRest, hsession, -⟩ := deliver_spec (bs.take k) hrest
    obtain ⟨hatRest', hsession', -⟩ := deliver_spec (bs'.take k) hrest'
    rw [state_eq_iff hatRest hatRest', hsession, hsession']
  constructor
  · intro h
    refine ⟨?_, fun k => (hstate k).mp (h.state k)⟩
    rw [← statuses_eq bs hrest, h.statuses, statuses_eq bs' hrest']
  · intro h
    refine ⟨?_, fun k => (hstate k).mpr (h.isSome k)⟩
    rw [statuses_eq bs hrest, h.replies, statuses_eq bs' hrest']

end Connection

end GinCpp.Core
