import GinCpp.Core.Conversation

/-!
# Where the reads are cut

A response is decided at one byte of the stream, wherever the reads are cut
(`Session.replies_of_verdict`).  What the cut does decide is which of the following bytes are
lost: the rest of the block that holds the deciding byte is never parsed, and the parser is not
put back to its initial state.

`boundariesInvisible_iff` says when this can be seen: when the connection is kept open and bytes
follow that, with the parser left where it was, lead to another verdict.
-/

namespace GinCpp.Core

open Http Scanner

/-- The bytes a list of blocks delivers. -/
def stream (bs : List Block) : Str := bs.flatMap Block.bytes

@[simp] theorem stream_nil : stream [] = [] := rfl

@[simp] theorem stream_cons (b : Block) (bs : List Block) :
    stream (b :: bs) = b.bytes ++ stream bs := rfl

@[simp] theorem stream_append (bs bs' : List Block) :
    stream (bs ++ bs') = stream bs ++ stream bs' := List.flatMap_append

theorem eq_nil_of_stream_eq_nil {bs : List Block} (h : stream bs = []) : bs = [] := by
  cases bs with
  | nil => rfl
  | cons b bs => exact absurd (List.append_eq_nil_iff.mp h).1 b.ne_nil

/-- **Read boundaries are invisible** on a stream: all its cuts are answered alike. -/
def BoundariesInvisible (major minor : Int) (bytes : Str) : Prop :=
  ∀ bs bs', stream bs = bytes → stream bs' = bytes →
    (Connection.fresh major minor).statuses bs = (Connection.fresh major minor).statuses bs'

/-! ## Cutting a stream -/

/-- The block of a first byte and what fits into the buffer after it. -/
def Block.ofCons (c : UInt8) (w : Str) (h : w.length < bufferSize) : Block :=
  ⟨c :: w, List.cons_ne_nil c w, h⟩

@[simp] theorem Block.bytes_ofCons (c : UInt8) (w : Str) (h : w.length < bufferSize) :
    (Block.ofCons c w h).bytes = c :: w := rfl

def Block.single (c : UInt8) : Block := .ofCons c [] (by decide)

def singles (w : Str) : List Block := w.map Block.single

@[simp] theorem stream_singles (w : Str) : stream (singles w) = w := by
  induction w with
  | nil => rfl
  | cons c w ih =>
      change [c] ++ stream (singles w) = c :: w
      rw [ih]
      rfl

/-! ## The first response -/

namespace Session

variable {s s' : Parser × Request} {v : ParseResult}

/-- As long as no message is decided nothing is answered. -/
theorem replies_of_undecided {bs : List Block}
    (h : scan Parser.step s (stream bs) = (s', none)) :
    replies (some s) bs = [] ∧ deliver (some s) bs = some s' := by
  induction bs generalizing s with
  | nil =>
      rw [stream_nil, scan_nil, Prod.mk.injEq] at h
      exact ⟨rfl, congrArg some h.1⟩
  | cons b bs ih =>
      rw [stream_cons] at h
      rcases hscan : scan Parser.step s b.bytes with ⟨t, _ | v⟩
      · rw [scan_append hscan] at h
        obtain ⟨hreplies, hdeliver⟩ := ih h
        rw [replies, reply_of_undecided hscan, receive_of_undecided hscan, hreplies]
        refine ⟨rfl, ?_⟩
        rw [← hdeliver, ← receive_of_undecided hscan]
        rfl
      · simp [scan_append_of_verdict hscan] at h

/-- The first response belongs to the block that holds the deciding byte, and what follows is
read with the parser as it is then. -/
theorem replies_of_verdict {bs : List Block}
    (h : scan Parser.step s (stream bs) = (s', some v)) :
    ∃ before b after t, bs = before ++ b :: after ∧
      scan Parser.step s (stream before) = (t, none) ∧
      scan Parser.step t b.bytes = (s', some v) ∧
      replies (some s) bs = (statusFor s'.2 v).toList ++
        replies (if keepAliveFor s'.2 then some s' else none) after := by
  induction bs generalizing s with
  | nil => simp at h
  | cons b bs ih =>
      rw [stream_cons] at h
      rcases hscan : scan Parser.step s b.bytes with ⟨t, _ | u⟩
      · rw [scan_append hscan] at h
        obtain ⟨before, b', after, t', rfl, hbefore, hb', hreplies⟩ := ih h
        refine ⟨b :: before, b', after, t', rfl, ?_, hb', ?_⟩
        · rw [stream_cons, scan_append hscan, hbefore]
        · rw [replies, reply_of_undecided hscan, receive_of_undecided hscan, hreplies]
          rfl
      · rw [scan_append_of_verdict hscan, Prod.mk.injEq, Option.some_inj] at h
        obtain ⟨rfl, rfl⟩ := h
        refine ⟨[], b, bs, s, rfl, rfl, hscan, ?_⟩
        rw [replies, reply_of_verdict hscan, receive_of_verdict hscan]

/-- Where no response comes no message is decided. -/
theorem undecided_of_replies_eq_nil {bs : List Block} {w : Str}
    (h : replies (some s) bs = []) (hw : stream bs = w) :
    (scan Parser.step s w).2 = none := by
  subst hw
  rcases hscan : scan Parser.step s (stream bs) with ⟨s', _ | v⟩
  · rfl
  · obtain ⟨before, b, after, t, rfl, hbefore, hb, hreplies⟩ := replies_of_verdict hscan
    obtain ⟨status, hstatus⟩ := exists_statusFor hb
    simp [hreplies, hstatus] at h

/-- Once a request is complete every block is answered, each with a verdict on its first byte. -/
theorem length_replies_of_complete {req : Request} (hkeep : keepAliveFor req = true)
    (bs : List Block) : (replies (some (⟨.expectingNewline3⟩, req)) bs).length = bs.length := by
  induction bs with
  | nil => rfl
  | cons b bs ih =>
      obtain ⟨c, w, hb⟩ := List.exists_cons_of_ne_nil b.ne_nil
      have hscan : scan Parser.step (⟨.expectingNewline3⟩, req) b.bytes =
          ((⟨.expectingNewline3⟩, req), some (if c = LF then .good else .bad)) := by
        rw [hb]
        exact scan_cons_error rfl
      obtain ⟨status, hstatus⟩ := exists_statusFor hscan
      rw [replies, reply_of_verdict hscan, receive_of_verdict hscan, hstatus, hkeep]
      simp [ih]

end Session

/-! ## When the cut can be seen -/

variable {major minor : Int} {p t : Str} {c : UInt8} {s' : Parser × Request} {v : ParseResult}

theorem statuses_fresh (bs : List Block) :
    (Connection.fresh major minor).statuses bs =
      Session.replies (some ({}, .empty major minor)) bs :=
  Connection.statuses_eq bs (Connection.fresh_atRest ..)

theorem invisible_of_undecided
    (h : scan Parser.step ({}, .empty major minor) p = (s', none)) :
    BoundariesInvisible major minor p := by
  intro bs bs' hbs hbs'
  rw [statuses_fresh, statuses_fresh, (Session.replies_of_undecided (hbs.symm ▸ h)).1,
    (Session.replies_of_undecided (hbs'.symm ▸ h)).1]

/-- Nothing is at stake after the deciding byte: the connection is closed, or nothing follows a
complete request, or what follows a malformed one does not bring the parser, which is left where
it was, to another verdict, however many of its bytes the read of the deciding byte hides. -/
def Settled (s' : Parser × Request) (v : ParseResult) (t : Str) : Prop :=
  keepAliveFor s'.2 = false ∨
    if v = .good then t = [] else ∀ k < bufferSize, (scan Parser.step s' (t.drop k)).2 = none

theorem scan_decided (h : scan Parser.step ({}, .empty major minor) p = (s', none))
    (hc : Parser.step s' c = .error v) :
    scan Parser.step ({}, .empty major minor) (p ++ c :: t) = (s', some v) := by
  rw [scan_append h, scan_cons_error hc]

/-- The blocks after the first response hold what follows the deciding byte, less what was in
its block. -/
theorem exists_stream_after (h : scan Parser.step ({}, .empty major minor) p = (s', none))
    (hc : Parser.step s' c = .error v) {before after : List Block} {b : Block}
    {s : Parser × Request}
    (hbefore : scan Parser.step ({}, .empty major minor) (stream before) = (s, none))
    (hb : scan Parser.step s b.bytes = (s', some v))
    (hstream : stream (before ++ b :: after) = p ++ c :: t) :
    ∃ k < bufferSize, stream after = t.drop k := by
  obtain ⟨q, a, w, hbytes, hq, ha⟩ := exists_of_scan_verdict hb
  have hstart : scan Parser.step ({}, .empty major minor) (stream before ++ q) = (s', none) := by
    rw [scan_append hbefore, hq]
  have hsplit : (stream before ++ q) ++ a :: (w ++ stream after) = p ++ c :: t := by
    rw [← hstream, stream_append, stream_cons, hbytes]
    simp
  obtain ⟨-, -, rfl⟩ := eq_of_decided hstart ha h hc hsplit
  refine ⟨w.length, ?_, List.drop_left.symm⟩
  have hfits := b.fits
  rw [hbytes, List.length_append, List.length_cons] at hfits
  omega

/-- A settled stream gets one response. -/
theorem statuses_of_settled (h : scan Parser.step ({}, .empty major minor) p = (s', none))
    (hc : Parser.step s' c = .error v) (hsettled : Settled s' v t)
    {bs : List Block} (hbs : stream bs = p ++ c :: t) :
    (Connection.fresh major minor).statuses bs = (statusFor s'.2 v).toList := by
  obtain ⟨before, b, after, u, rfl, hbefore, hb, hreplies⟩ :=
    Session.replies_of_verdict (hbs.symm ▸ scan_decided h hc)
  obtain ⟨k, hk, hafter⟩ := exists_stream_after h hc hbefore hb hbs
  rw [statuses_fresh, hreplies]
  rcases hsettled with hclose | hquiet
  · simp [hclose]
  · have hnothing : Session.replies (some s') after = [] := by
      split_ifs at hquiet
      · rw [hquiet, List.drop_nil] at hafter
        rw [eq_nil_of_stream_eq_nil hafter, Session.replies]
      · exact (Session.replies_of_undecided (Prod.ext rfl (hafter ▸ hquiet k hk))).1
    split_ifs
    · rw [hnothing, List.append_nil]
    · simp

/-- After a complete request every block is answered, so every cut of the rest shows. -/
theorem not_invisible_of_good (h : scan Parser.step ({}, .empty major minor) p = (s', none))
    (hc : Parser.step s' c = .error .good) (hkeep : keepAliveFor s'.2 = true) (d : UInt8) :
    ¬ BoundariesInvisible major minor (p ++ c :: d :: t) := by
  intro hinvisible
  have hsingles : scan Parser.step ({}, .empty major minor) (stream (singles p)) = (s', none) := by
    rw [stream_singles, h]
  obtain ⟨hreplies, hdeliver⟩ := Session.replies_of_undecided hsingles
  have hs' : s' = (⟨.expectingNewline3⟩, s'.2) := by
    obtain ⟨⟨state⟩, req⟩ := s'
    rw [Prod.mk.injEq, Parser.mk.injEq]
    exact ⟨Parser.state_of_step_good hc, rfl⟩
  have hlength : ∀ bs, (Session.replies (some s') bs).length = bs.length := by
    rw [hs']
    exact Session.length_replies_of_complete hkeep
  have hpair : [d].length < bufferSize := by simp [bufferSize]
  have hboth := hinvisible (singles p ++ .single c :: singles (d :: t))
    (singles p ++ .ofCons c [d] hpair :: singles t)
    (by simp [Block.single]) (by simp)
  rw [statuses_fresh, statuses_fresh, Session.replies_append, Session.replies_append, hreplies,
    hdeliver] at hboth
  have hcount := congrArg List.length hboth
  simp [hlength, singles] at hcount

/-- The cut that hides `k` of the bytes after the deciding one. -/
theorem exists_cut (h : scan Parser.step ({}, .empty major minor) p = (s', none))
    (hc : Parser.step s' c = .error v) (hkeep : keepAliveFor s'.2 = true) {k : ℕ}
    (hk : k < bufferSize) :
    ∃ bs, stream bs = p ++ c :: t ∧ (Connection.fresh major minor).statuses bs =
      (statusFor s'.2 v).toList ++ Session.replies (some s') (singles (t.drop k)) := by
  have hsingles : scan Parser.step ({}, .empty major minor) (stream (singles p)) = (s', none) := by
    rw [stream_singles, h]
  obtain ⟨hreplies, hdeliver⟩ := Session.replies_of_undecided hsingles
  have hlength : (t.take k).length < bufferSize := Nat.lt_of_le_of_lt (List.length_take_le k t) hk
  have hscan : scan Parser.step s' (Block.ofCons c (t.take k) hlength).bytes = (s', some v) :=
    scan_cons_error hc
  refine ⟨singles p ++ .ofCons c (t.take k) hlength :: singles (t.drop k), by simp, ?_⟩
  rw [statuses_fresh, Session.replies_append, hreplies, hdeliver, Session.replies,
    Session.reply_of_verdict hscan, Session.receive_of_verdict hscan, if_pos hkeep,
    List.nil_append]

/-- If one of the cuts gets no second response, none may. -/
theorem undecided_of_invisible (h : scan Parser.step ({}, .empty major minor) p = (s', none))
    (hc : Parser.step s' c = .error v) (hkeep : keepAliveFor s'.2 = true)
    (hquiet : ∃ k < bufferSize, (scan Parser.step s' (t.drop k)).2 = none)
    (hinvisible : BoundariesInvisible major minor (p ++ c :: t)) {k : ℕ} (hk : k < bufferSize) :
    (scan Parser.step s' (t.drop k)).2 = none := by
  obtain ⟨l, hl, hundecided⟩ := hquiet
  obtain ⟨bs, hbs, hstatuses⟩ := exists_cut (t := t) h hc hkeep hk
  obtain ⟨bs', hbs', hstatuses'⟩ := exists_cut (t := t) h hc hkeep hl
  have hnone : Session.replies (some s') (singles (t.drop l)) = [] :=
    (Session.replies_of_undecided (Prod.ext (by rw [stream_singles]) (by
      rw [stream_singles, hundecided]))).1
  have hboth := hinvisible bs bs' hbs hbs'
  rw [hstatuses, hstatuses', hnone, List.append_cancel_left_eq] at hboth
  exact Session.undecided_of_replies_eq_nil hboth (stream_singles _)

/-- **When read boundaries are invisible.**  They are on a stream in which no message is decided.
On a stream whose first message is decided at the byte `c`, they are if the rest of the stream is
`Settled`; and this is exact if the message was complete, or if a read can bring with `c` enough
of the rest that what remains gets no response. -/
theorem boundariesInvisible_iff (major minor : Int) (p : Str) (s' : Parser × Request)
    (h : scan Parser.step ({}, .empty major minor) p = (s', none)) :
    BoundariesInvisible major minor p ∧
    ∀ c v t, Parser.step s' c = .error v →
      (Settled s' v t → BoundariesInvisible major minor (p ++ c :: t)) ∧
      ((v = .good ∨ ∃ k < bufferSize, (scan Parser.step s' (t.drop k)).2 = none) →
        (BoundariesInvisible major minor (p ++ c :: t) ↔ Settled s' v t)) := by
  refine ⟨invisible_of_undecided h, fun c v t hc => ?_⟩
  have henough : Settled s' v t → BoundariesInvisible major minor (p ++ c :: t) :=
    fun hsettled bs bs' hbs hbs' => by
      rw [statuses_of_settled h hc hsettled hbs, statuses_of_settled h hc hsettled hbs']
  refine ⟨henough, fun hexact => ⟨fun hinvisible => ?_, henough⟩⟩
  refine or_iff_not_imp_left.mpr fun hnot => ?_
  have hkeep : keepAliveFor s'.2 = true := Bool.not_eq_false _ ▸ hnot
  split_ifs with hv
  · subst hv
    cases t with
    | nil => rfl
    | cons d t => exact absurd hinvisible (not_invisible_of_good h hc hkeep d)
  · exact fun k hk =>
      undecided_of_invisible h hc hkeep (hexact.resolve_left hv) hinvisible hk

/-- The stream `GET / HTTP/1.1 CR LF CR` lacks one byte. -/
theorem boundariesInvisible_iff_get :
    let p := (ascii "GET / HTTP/1.1\x0d\n\x0d\n").dropLast
    let s' := (scan Parser.step ({}, .empty 0 0) p).1
    BoundariesInvisible 0 0 p ∧
    ∀ c v t, Parser.step s' c = .error v →
      (Settled s' v t → BoundariesInvisible 0 0 (p ++ c :: t)) ∧
      ((v = .good ∨ ∃ k < bufferSize, (scan Parser.step s' (t.drop k)).2 = none) →
        (BoundariesInvisible 0 0 (p ++ c :: t) ↔ Settled s' v t)) :=
  boundariesInvisible_iff 0 0 _ _ (by decide)

/-- A request that is answered with 200 and keeps the connection open. -/
def getRequest : Str := ascii "GET / HTTP/1.1\x0d\nHost: a\x0d\n\x0d\n"

/-- Two requests sent at once get one response if they come in one read, and two if they come in
two. -/
theorem not_boundariesInvisible_pipelined :
    ¬ BoundariesInvisible 0 0 (getRequest ++ getRequest) := by
  intro hinvisible
  have hboth := hinvisible [⟨getRequest ++ getRequest, by decide, by decide⟩]
    [⟨getRequest, by decide, by decide⟩, ⟨getRequest, by decide, by decide⟩] rfl rfl
  exact absurd hboth (by decide)

end GinCpp.Core
