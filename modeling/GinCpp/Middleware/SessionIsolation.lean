import GinCpp.Middleware.SessionContinuity
import GinCpp.Transition.Purge
import GinCpp.Utils.SessionStore

/-!
# Sessions behind one store

The rest of a chain may keep data in the store of the sessions, under the id that it is told.  The
requests of many clients are served at the same time, and their calls on the store come in any
order.  Every client is answered as if it were alone, as long as no two clients are drawn the same
id (`undisturbed`): they are told apart by what they keep and send back, and by nothing else.
-/

namespace GinCpp.Middleware

open Assignment Callback Http Transition Utils

/-! ## Ids -/

namespace RequestIdGenerator

/-- The draws that an id is made of are the same. -/
structure Draws.Same (draws draws' : Draws) : Prop where
  dis : ∀ i < 30, draws.dis i = draws'.dis i
  dis2 : draws.dis2 = draws'.dis2

variable {draws draws' : Draws}

theorem hexDigit_inj {n m : Fin 16} : hexDigit n = hexDigit m ↔ n = m := by
  revert n m
  decide

theorem length_hexDigits {first count : ℕ} : (hexDigits draws first count).length = count := by
  rw [hexDigits, List.length_map, List.length_range']

theorem hexDigits_inj {first count : ℕ} :
    hexDigits draws first count = hexDigits draws' first count ↔
      ∀ i, first ≤ i → i < first + count → draws.dis i = draws'.dis i := by
  simp only [hexDigits, List.map_inj_left, List.mem_range'_1, hexDigit_inj, and_imp]

/-- An id has its draws, all of them. -/
theorem generate_eq_iff : generate draws = generate draws' ↔ draws.Same draws' := by
  have hlength : ∀ first count, (hexDigits draws first count).length =
      (hexDigits draws' first count).length := fun first count => by
    rw [length_hexDigits, length_hexDigits]
  constructor
  · intro h
    unfold generate at h
    obtain ⟨h, hnode⟩ := List.append_inj' h (hlength 18 12)
    obtain ⟨h, -⟩ := List.append_inj' h rfl
    obtain ⟨h, hclock⟩ := List.append_inj' h (hlength 15 3)
    obtain ⟨h, hvariant⟩ := List.append_inj' h rfl
    obtain ⟨h, -⟩ := List.append_inj' h rfl
    obtain ⟨h, hhigh⟩ := List.append_inj' h (hlength 12 3)
    obtain ⟨h, -⟩ := List.append_inj' h rfl
    obtain ⟨h, hmid⟩ := List.append_inj' h (hlength 8 4)
    obtain ⟨hlow, -⟩ := List.append_inj' h rfl
    rw [hexDigits_inj] at hlow hmid hhigh hclock hnode
    refine ⟨fun i hi => ?_, ?_⟩
    · by_cases h8 : i < 8
      · exact hlow i (Nat.zero_le _) (by omega)
      by_cases h12 : i < 12
      · exact hmid i (by omega) (by omega)
      by_cases h15 : i < 15
      · exact hhigh i (by omega) (by omega)
      by_cases h18 : i < 18
      · exact hclock i (by omega) (by omega)
      · exact hnode i (by omega) (by omega)
    · have hvariant' := hexDigit_inj.mp (List.singleton_inj.mp hvariant)
      rw [Fin.mk.injEq] at hvariant'
      exact Fin.ext (by omega)
  · intro h
    have hdigits : ∀ first count, first + count ≤ 30 →
        hexDigits draws first count = hexDigits draws' first count :=
      fun first count hle => hexDigits_inj.mpr fun i _ hi => h.dis i (by omega)
    rw [generate, generate, hdigits 0 8 (by omega), hdigits 8 4 (by omega), hdigits 12 3 (by omega),
      hdigits 15 3 (by omega), hdigits 18 12 (by omega)]
    simp only [h.dis2]

end RequestIdGenerator

variable {ι κ E : Type}

/-- What is drawn for a client: in its first turn, if it has one. -/
def drawn [DecidableEq ι] (random : Exchange E → RequestIdGenerator.Draws)
    (turns : List (Turn ι κ E)) (client : ι) : Option RequestIdGenerator.Draws :=
  (turns.find? (·.client = client)).map fun turn => random turn.before

/-- No two clients are drawn the same id. -/
def DrawnApart [DecidableEq ι] (random : Exchange E → RequestIdGenerator.Draws)
    (turns : List (Turn ι κ E)) : Prop :=
  ∀ client client' draws draws', drawn random turns client = some draws →
    drawn random turns client' = some draws' → draws.Same draws' → client = client'

theorem DrawnApart.client_eq [DecidableEq ι] {random : Exchange E → RequestIdGenerator.Draws}
    {turns : List (Turn ι κ E)} (h : DrawnApart random turns) {client client' : ι} {id : Str}
    (hid : established random turns client = some id)
    (hid' : established random turns client' = some id) : client = client' := by
  have hdrawn : ∀ c, established random turns c =
      (drawn random turns c).map RequestIdGenerator.generate := fun c => by
    rw [established, drawn, Option.map_map]
    rfl
  rw [hdrawn, Option.map_eq_some_iff] at hid hid'
  obtain ⟨draws, hdraws, rfl⟩ := hid
  obtain ⟨draws', hdraws', hsame⟩ := hid'
  exact h client client' draws draws' hdraws hdraws'
    (RequestIdGenerator.generate_eq_iff.mp hsame.symm)

/-! ## Applications -/

/-- How an exchange ends. -/
abbrev Answer (E : Type) := Exchange E × Option Exception

/-- The rest of a chain.  It works on the data of the session that it is told, and sets no session
cookie. -/
structure Application (E : Type) where
  visit : Exchange E → Visit (Answer E)
  within : ∀ s, (visit s).Within (s.request.getHeader (ascii "X-Session-ID")) fun answer =>
    sessionsSet answer.1.response = sessionsSet s.response

/-- What the session middleware calls. -/
def Application.callee (app : Application E) :
    Callee InMemorySessionStore (Exchange E) Exception := fun store s =>
  (((app.visit s).run store).2, ((app.visit s).run store).1)

/-- The middleware does what the application does in the exchange that it hands down. -/
theorem Application.run_session (app : Application E)
    (random : Exchange E → RequestIdGenerator.Draws) (store : InMemorySessionStore)
    (s : Exchange E) :
    let run := (createSessionMiddleware random).handler.run app.callee store s
    ((run.state, run.outcome), run.control) = (app.visit (establish random s)).run store := by
  intro run
  have hcallee : app.callee store (establish random s) =
      (((app.visit (establish random s)).run store).2,
        ((app.visit (establish random s)).run store).1) := rfl
  have hrun : run = (createSessionMiddleware random).handler.run app.callee store s := rfl
  simp only [createSessionMiddleware, Program.run, Program.runFrom, Program.passOn, hcallee] at hrun
  rw [hrun]
  obtain ⟨⟨exchange, outcome⟩, store'⟩ := (app.visit (establish random s)).run store
  cases outcome <;> rfl

/-! ## Serving many clients -/

/-- The answer that a visit has come to. -/
def answerOf : Visit (Answer E) → Option (Answer E)
  | .ret answer => some answer
  | _ => none

/-- What the clients have kept, the store, and how far the request of each client is. -/
structure Site (ι E : Type) where
  kept : ι → Cookies := fun _ _ => none
  store : InMemorySessionStore := {}
  serving : ι → Option (Visit (Answer E)) := fun _ => none

/-- A client sends a request, the next call of its request on the store is made, or it is sent the
answer. -/
inductive SiteEvent (ι E : Type)
  | request (turn : Turn ι Unit E)
  | call (client : ι)
  | reply (client : ι)

namespace SiteEvent

def client : SiteEvent ι E → ι
  | .request turn => turn.client
  | .call client => client
  | .reply client => client

def turn? : SiteEvent ι E → Option (Turn ι Unit E)
  | .request turn => some turn
  | _ => none

end SiteEvent

/-- The turns that clients have begun. -/
def turnsOf (events : List (SiteEvent ι E)) : List (Turn ι Unit E) := events.filterMap (·.turn?)

namespace Site

variable [DecidableEq ι] (random : Exchange E → RequestIdGenerator.Draws) (app : Application E)

/-- The answer that is ready for a client. -/
def answer? (s : Site ι E) (client : ι) : Option (Answer E) := (s.serving client).bind answerOf

/-- A request has come to the application. -/
def request (s : Site ι E) (turn : Turn ι Unit E) : Site ι E :=
  { s with
    serving := Function.update s.serving turn.client
      (some (app.visit (establish random turn.before))) }

def call (s : Site ι E) (client : ι) : Site ι E :=
  match s.serving client with
  | some visit =>
      { s with
        store := (visit.call s.store).2
        serving := Function.update s.serving client (some (visit.call s.store).1) }
  | none => s

/-- The client keeps the cookies that it is told. -/
def reply (s : Site ι E) (client : ι) : Site ι E :=
  match s.answer? client with
  | some answer =>
      { s with
        kept := Function.update s.kept client
          (assignAll (s.kept client) (cookiesSet answer.1.response))
        serving := Function.update s.serving client none }
  | none => s

end Site

/-- Any number of clients, each of which waits for an answer before its next request. -/
def visiting [DecidableEq ι] (random : Exchange E → RequestIdGenerator.Draws)
    (app : Application E) : System (Site ι E) (SiteEvent ι E) where
  Permits s
    | .request turn => s.serving turn.client = none ∧ turn.Faithful s.kept
    | .call client => (s.serving client).isSome
    | .reply client => (s.answer? client).isSome
  step s
    | .request turn => s.request random app turn
    | .call client => s.call client
    | .reply client => s.reply client

section Site

variable [DecidableEq ι] {random : Exchange E → RequestIdGenerator.Draws} {app : Application E}
  {s t : Site ι E} {client other : ι} {turn : Turn ι Unit E} {visit : Visit (Answer E)}
  {answer : Answer E} {e : SiteEvent ι E} {past future : List (SiteEvent ι E)}

namespace Site

omit [DecidableEq ι] in
theorem answer?_eq_some : s.answer? client = some answer ↔
    s.serving client = some (.ret answer) := by
  rw [answer?, Option.bind_eq_some_iff]
  constructor
  · rintro ⟨visit, hserving, hanswer⟩
    cases visit with
    | ret answer' => rw [hserving, Option.some_inj.mp hanswer]
    | get id k => cases hanswer
    | set id data k => cases hanswer
    | remove id k => cases hanswer
  · exact fun h => ⟨_, h, rfl⟩

theorem call_eq (h : s.serving client = some visit) : s.call client =
    { s with
      store := (visit.call s.store).2
      serving := Function.update s.serving client (some (visit.call s.store).1) } := by
  rw [call, h]

theorem reply_eq (h : s.answer? client = some answer) : s.reply client =
    { s with
      kept := Function.update s.kept client
        (assignAll (s.kept client) (cookiesSet answer.1.response))
      serving := Function.update s.serving client none } := by
  rw [reply, h]

/-- Nothing but the store is changed for others. -/
theorem step_other (h : e.client ≠ other) :
    ((visiting random app).step s e).kept other = s.kept other ∧
      ((visiting random app).step s e).serving other = s.serving other := by
  cases e with
  | request turn => exact ⟨rfl, Function.update_of_ne (Ne.symm h) ..⟩
  | call client =>
      change (s.call client).kept other = _ ∧ (s.call client).serving other = _
      unfold call
      split
      · exact ⟨rfl, Function.update_of_ne (Ne.symm h) ..⟩
      · exact ⟨rfl, rfl⟩
  | reply client =>
      change (s.reply client).kept other = _ ∧ (s.reply client).serving other = _
      unfold reply
      split
      · exact ⟨Function.update_of_ne (Ne.symm h) .., Function.update_of_ne (Ne.symm h) ..⟩
      · exact ⟨rfl, rfl⟩

end Site

/-! ## Sessions of clients -/

/-- The session of a client. -/
def sessionOf (random : Exchange E → RequestIdGenerator.Draws) (past : List (SiteEvent ι E))
    (client : ι) : Option Str := established random (turnsOf past) client

theorem sessionOf_append {id : Str} (h : sessionOf random past client = some id) :
    sessionOf random (past ++ future) client = some id := by
  rw [sessionOf, turnsOf, List.filterMap_append, established_append]
  exact Option.or_eq_some_iff.mpr (.inl h)

theorem sessionOf_of_turn? (h : e.turn? = none) :
    sessionOf random (past ++ [e]) client = sessionOf random past client := by
  rw [sessionOf, turnsOf, List.filterMap_append, List.filterMap_cons_none h, List.filterMap_nil,
    List.append_nil]
  rfl

theorem sessionOf_other (h : e.client ≠ other) :
    sessionOf random (past ++ [e]) other = sessionOf random past other := by
  cases e with
  | request turn =>
      rw [sessionOf, turnsOf, List.filterMap_append, established_append]
      change (sessionOf random past other).or (established random [turn] other) = _
      rw [established_singleton_of_ne h, Option.or_none]
  | call client => exact sessionOf_of_turn? rfl
  | reply client => exact sessionOf_of_turn? rfl

/-- A client in good order: it has kept its session, or is about to be told to. -/
structure InOrder (session : Option Str) (kept : Cookies)
    (serving : Option (Visit (Answer E))) : Prop where
  wellFormed : ∀ n v, kept n = some v → CookieParsing.WellFormed (n, v)
  idle : serving = none → kept SESSION = session
  busy : ∀ visit, serving = some visit → ∃ id, session = some id ∧
    visit.Within id fun answer =>
      assignAll kept (cookiesSet answer.1.response) SESSION = some id

namespace InOrder

variable {session : Option Str} {kept : Cookies}

omit [DecidableEq ι] in
theorem request {kept : ι → Cookies} (app : Application E)
    (h : InOrder (E := E) session (kept turn.client) none) (hturn : turn.Faithful kept) :
    InOrder (some (sessionId (random turn.before) turn.before.request)) (kept turn.client)
      (some (app.visit (establish random turn.before))) where
  wellFormed := h.wellFormed
  idle := nofun
  busy := by
    rintro visit hvisit
    obtain rfl := Option.some_inj.mp hvisit
    have hwithin := app.within (establish random turn.before)
    rw [hturn.getHeader_establish] at hwithin
    exact ⟨_, rfl, hwithin.imp fun answer hanswer => hturn.kept_session h.wellFormed hanswer⟩

theorem call (h : InOrder session kept (some visit)) (store : InMemorySessionStore) :
    InOrder session kept (some (visit.call store).1) where
  wellFormed := h.wellFormed
  idle := nofun
  busy := by
    rintro visit' hvisit'
    obtain rfl := Option.some_inj.mp hvisit'
    obtain ⟨id, hid, hwithin⟩ := h.busy visit rfl
    exact ⟨id, hid, hwithin.call store⟩

theorem reply (h : InOrder session kept (some (.ret answer))) :
    InOrder (E := E) session (assignAll kept (cookiesSet answer.1.response)) none where
  wellFormed := fun n v => wellFormed_assignAll h.wellFormed
  idle := fun _ => by
    obtain ⟨id, hid, hkept⟩ := h.busy _ rfl
    rw [hid]
    exact hkept
  busy := nofun

end InOrder

/-- What has happened on a site: its clients are in good order, and there are data of their
sessions only. -/
structure Consistent (random : Exchange E → RequestIdGenerator.Draws) (past : List (SiteEvent ι E))
    (s : Site ι E) : Prop where
  inOrder : ∀ client, InOrder (sessionOf random past client) (s.kept client) (s.serving client)
  fresh : ∀ id, (∀ client, sessionOf random past client ≠ some id) → s.store.data id = none

/-- The session of a client that sends a request. -/
theorem Consistent.sessionOf_request (h : Consistent random past s)
    (hpermits : (visiting random app).Permits s (.request turn)) :
    sessionOf random (past ++ [.request turn]) turn.client =
      some (sessionId (random turn.before) turn.before.request) := by
  obtain ⟨hidle, hturn⟩ := hpermits
  rw [sessionOf, turnsOf, List.filterMap_append]
  change established random (turnsOf past ++ [turn]) turn.client = _
  rw [hturn.established_append (h.inOrder turn.client).wellFormed
    ((h.inOrder turn.client).idle hidle), if_pos rfl]

/-- The data of the sessions of others. -/
theorem Consistent.data_step_of_ne (h : Consistent random past s)
    (hpermits : (visiting random app).Permits s e) {id : Str}
    (hid : sessionOf random past e.client ≠ some id) :
    ((visiting random app).step s e).store.data id = s.store.data id := by
  cases e with
  | request turn => rfl
  | call client =>
      obtain ⟨visit, hvisit⟩ := Option.isSome_iff_exists.mp hpermits
      obtain ⟨id', hid', hwithin⟩ := (h.inOrder client).busy visit hvisit
      change (s.call client).store.data id = _
      rw [Site.call_eq hvisit]
      refine hwithin.data_call_of_ne ?_
      rintro rfl
      exact hid hid'
  | reply client =>
      obtain ⟨answer, hanswer⟩ := Option.isSome_iff_exists.mp hpermits
      change (s.reply client).store.data id = _
      rw [Site.reply_eq hanswer]

theorem Consistent.step (h : Consistent random past s)
    (hpermits : (visiting random app).Permits s e) :
    Consistent random (past ++ [e]) ((visiting random app).step s e) := by
  constructor
  · intro client
    by_cases hclient : e.client = client
    · subst hclient
      cases e with
      | request turn =>
          have hold := h.inOrder turn.client
          rw [hpermits.1] at hold
          have hserving : ((visiting random app).step s (.request turn)).serving turn.client =
              some (app.visit (establish random turn.before)) := Function.update_self ..
          change InOrder (sessionOf random _ turn.client) (s.kept turn.client)
            (((visiting random app).step s (.request turn)).serving turn.client)
          rw [hserving, h.sessionOf_request hpermits]
          exact hold.request app hpermits.2
      | call client =>
          obtain ⟨visit, hvisit⟩ := Option.isSome_iff_exists.mp hpermits
          have hold := h.inOrder client
          rw [hvisit] at hold
          change InOrder (sessionOf random _ client) ((s.call client).kept client)
            ((s.call client).serving client)
          rw [sessionOf_of_turn? rfl, Site.call_eq hvisit]
          dsimp only
          rw [Function.update_self]
          exact hold.call s.store
      | reply client =>
          obtain ⟨answer, hanswer⟩ := Option.isSome_iff_exists.mp hpermits
          have hold := h.inOrder client
          rw [Site.answer?_eq_some.mp hanswer] at hold
          change InOrder (sessionOf random _ client) ((s.reply client).kept client)
            ((s.reply client).serving client)
          rw [sessionOf_of_turn? rfl, Site.reply_eq hanswer]
          dsimp only
          rw [Function.update_self, Function.update_self]
          exact hold.reply
    · have hothers : ((visiting random app).step s e).kept client = s.kept client ∧
          ((visiting random app).step s e).serving client = s.serving client :=
        Site.step_other hclient
      rw [hothers.1, hothers.2, sessionOf_other hclient]
      exact h.inOrder client
  · intro id hid
    have hpast : ∀ client, sessionOf random past client ≠ some id :=
      fun client hclient => hid client (sessionOf_append hclient)
    rw [h.data_step_of_ne hpermits (hpast e.client), h.fresh id hpast]

/-! ## A client alone -/

/-- A site `t` that serves one client of a site `s` only. -/
structure Mirrors (random : Exchange E → RequestIdGenerator.Draws) (client : ι)
    (past : List (SiteEvent ι E)) (s t : Site ι E) : Prop where
  kept : t.kept client = s.kept client
  serving : t.serving client = s.serving client
  data : ∀ id, sessionOf random past client = some id → t.store.data id = s.store.data id
  fresh : ∀ id, sessionOf random past client ≠ some id → t.store.data id = none

/-- What others do. -/
theorem Mirrors.step_other (h : Mirrors random client past s t) (hs : Consistent random past s)
    (hpermits : (visiting random app).Permits s e) (hclient : e.client ≠ client)
    (hapart : DrawnApart random (turnsOf (past ++ e :: future))) :
    Mirrors random client (past ++ [e]) ((visiting random app).step s e) t := by
  have hothers : ((visiting random app).step s e).kept client = s.kept client ∧
      ((visiting random app).step s e).serving client = s.serving client :=
    Site.step_other hclient
  constructor
  · rw [h.kept, hothers.1]
  · rw [h.serving, hothers.2]
  · intro id hid
    rw [sessionOf_other hclient] at hid
    have hne : sessionOf random past e.client ≠ some id := fun hid' =>
      hclient (hapart.client_eq (sessionOf_append hid') (sessionOf_append hid))
    rw [hs.data_step_of_ne hpermits hne, h.data id hid]
  · intro id hid
    rw [sessionOf_other hclient] at hid
    exact h.fresh id hid

omit [DecidableEq ι] in
/-- What a client may send depends on what it has kept. -/
theorem Turn.Faithful.congr {kept kept' : ι → Cookies} (h : turn.Faithful kept)
    (hkept : kept' turn.client = kept turn.client) : turn.Faithful kept' where
  header := h.header
  nodup := h.nodup
  of_kept := by rw [hkept]; exact h.of_kept
  session := by rw [hkept]; exact h.session
  unnamed := h.unnamed
  unset := h.unset

theorem Mirrors.permits (h : Mirrors random e.client past s t)
    (hpermits : (visiting random app).Permits s e) : (visiting random app).Permits t e := by
  cases e with
  | request turn => exact ⟨h.serving.trans hpermits.1, hpermits.2.congr h.kept⟩
  | call client =>
      change (t.serving client).isSome
      rw [show t.serving client = s.serving client from h.serving]
      exact hpermits
  | reply client =>
      change (t.answer? client).isSome
      rw [Site.answer?, show t.serving client = s.serving client from h.serving]
      exact hpermits

/-- What the client does. -/
theorem Mirrors.step (h : Mirrors random e.client past s t) (hs : Consistent random past s)
    (hpermits : (visiting random app).Permits s e)
    (hapart : DrawnApart random (turnsOf (past ++ e :: future))) :
    Mirrors random e.client (past ++ [e]) ((visiting random app).step s e)
      ((visiting random app).step t e) := by
  cases e with
  | request turn =>
      have hserving : ∀ s : Site ι E, (s.request random app turn).serving turn.client =
          some (app.visit (establish random turn.before)) := fun s => Function.update_self ..
      refine ⟨h.kept, (hserving t).trans (hserving s).symm, fun id hid => ?_, fun id hid => ?_⟩
      · change t.store.data id = s.store.data id
        by_cases hold : sessionOf random past turn.client = some id
        · exact h.data id hold
        · -- a new session: there are no data on either site
          have hfirst : ∀ c, sessionOf random past c ≠ some id := by
            intro c hc
            have hsame : c = turn.client := by
              refine hapart.client_eq (sessionOf_append hc) ?_
              rw [List.append_cons]
              exact sessionOf_append hid
            exact hold (hsame ▸ hc)
          rw [h.fresh id hold, hs.fresh id hfirst]
      · exact h.fresh id fun hold => hid (sessionOf_append hold)
  | call client =>
      obtain ⟨visit, hvisit⟩ := Option.isSome_iff_exists.mp hpermits
      obtain ⟨id', hid', hwithin⟩ := (hs.inOrder client).busy visit hvisit
      have hvisit' : t.serving client = some visit := h.serving.trans hvisit
      obtain ⟨hcall, hdata⟩ := hwithin.call_congr (h.data id' hid')
      change Mirrors random client _ (s.call client) (t.call client)
      rw [Site.call_eq hvisit, Site.call_eq hvisit']
      refine ⟨h.kept, ?_, fun id hid => ?_, fun id hid => ?_⟩
      · dsimp only
        rw [Function.update_self, Function.update_self, hcall]
      · rw [sessionOf_of_turn? rfl] at hid
        obtain rfl := Option.some_inj.mp (hid'.symm.trans hid)
        exact hdata
      · rw [sessionOf_of_turn? rfl] at hid
        have hne : id ≠ id' := fun heq => hid (heq ▸ hid')
        exact (hwithin.data_call_of_ne hne).trans (h.fresh id hid)
  | reply client =>
      obtain ⟨answer, hanswer⟩ := Option.isSome_iff_exists.mp hpermits
      have hanswer' : t.answer? client = some answer := by
        rw [Site.answer?, show t.serving client = s.serving client from h.serving]
        exact hanswer
      change Mirrors random client _ (s.reply client) (t.reply client)
      rw [Site.reply_eq hanswer, Site.reply_eq hanswer']
      refine ⟨?_, ?_, fun id hid => ?_, fun id hid => ?_⟩
      · dsimp only
        rw [Function.update_self, Function.update_self,
          show t.kept client = s.kept client from h.kept]
      · dsimp only
        rw [Function.update_self, Function.update_self]
      · rw [sessionOf_of_turn? rfl] at hid
        exact h.data id hid
      · rw [sessionOf_of_turn? rfl] at hid
        exact h.fresh id hid

theorem consistent_nil : Consistent random [] ({} : Site ι E) where
  inOrder _ :=
    { wellFormed := fun _ _ hkept => absurd hkept.symm (Option.some_ne_none _)
      idle := fun _ => rfl
      busy := nofun }
  fresh _ _ := rfl

/-- **Clients do not disturb each other**: if no two are drawn the same id, each of them can do
what it does also if there is no other, finds the same answers when it does it, and its session
has the same data in the end. -/
theorem undisturbed {events : List (SiteEvent ι E)}
    (hrun : (visiting random app).Run {} events)
    (hapart : DrawnApart random (turnsOf events)) (client : ι) :
    let own := events.filter (·.client = client)
    let ready := fun (s : Site ι E) (e : SiteEvent ι E) => s.answer? e.client
    (visiting random app).Run {} own ∧
      ((visiting random app).outputs ready {} events).filter (·.1.client = client) =
        (visiting random app).outputs ready {} own ∧
      ∀ id, sessionOf random events client = some id →
        ((visiting random app).run {} own).store.data id =
          ((visiting random app).run {} events).store.data id := by
  intro own ready
  have hstart : Mirrors random client [] ({} : Site ι E) {} :=
    ⟨rfl, rfl, fun _ _ => rfl, fun _ _ => rfl⟩
  obtain ⟨hruns, houtputs, -, hmirrors⟩ := System.undisturbed_of_mirror ready (·.client = client)
    (fun past s t => Consistent random past s ∧ Mirrors random client past s t)
    (fun past e future s t hsplit hother hpermits ⟨hs, hmirrors⟩ =>
      ⟨hs.step hpermits, hmirrors.step_other hs hpermits hother (hsplit ▸ hapart)⟩)
    (fun past e future s t hsplit hown hpermits ⟨hs, hmirrors⟩ => by
      subst hown
      refine ⟨hmirrors.permits hpermits, ?_, hs.step hpermits,
        hmirrors.step hs hpermits (hsplit ▸ hapart)⟩
      exact congrArg (·.bind answerOf) hmirrors.serving.symm)
    ⟨consistent_nil, hstart⟩ hrun
  exact ⟨hruns, houtputs, hmirrors.data⟩

end Site

/-- Tell a client the numbers of its exchanges before, and note this one. -/
def remember : Application ℕ where
  visit s :=
    let id := s.request.getHeader (ascii "X-Session-ID")
    .get id fun data => .set id (data ++ [s.captured.toUInt8])
      (.ret ({ s with response := { s.response with content := data } }, none))
  within _ := ⟨rfl, fun _ => ⟨rfl, rfl⟩⟩

/-- The second turn of the first client of `threeTurns`. -/
def againTurn : Turn ℕ Unit ℕ :=
  turnOf 1 2 [(ascii "session_id", ascii "00000000-0000-4000-8000-000000000000")]

/-- Two clients at the same time, and one of them once more. -/
def visits : List (SiteEvent ℕ ℕ) :=
  [.request (turnOf 1 0 []), .request (turnOf 2 1 []), .call 2, .call 1, .call 2, .call 1, .reply 1,
    .request againTurn, .call 1, .call 1, .reply 2]

theorem run_visits : (visiting numbered remember).Run {} visits := by
  refine ⟨⟨rfl, faithful_turnOf_nil rfl⟩, ⟨rfl, faithful_turnOf_nil rfl⟩, rfl, rfl, rfl, rfl, rfl,
    ⟨rfl, rfl, by decide, by decide +kernel, fun id hid => ?_,
      List.forall_mem_singleton.mpr (by decide), by decide +kernel⟩, rfl, rfl, rfl, trivial⟩
  have hkept : ((visiting numbered remember).run {} (visits.take 7)).kept 1 SESSION =
      some (ascii "00000000-0000-4000-8000-000000000000") := by decide +kernel
  obtain rfl := Option.some_inj.mp (hkept.symm.trans hid)
  decide

theorem drawnApart_visits : DrawnApart numbered (turnsOf visits) := by
  have hdrawn : ∀ client, drawn numbered (turnsOf visits) client =
      if 1 = client then some (numbered (turnOf 1 0 []).before)
      else if 2 = client then some (numbered (turnOf 2 1 []).before) else none := by
    intro client
    by_cases h1 : 1 = client
    · subst h1
      rfl
    by_cases h2 : 2 = client
    · subst h2
      rfl
    · simp [drawn, turnsOf, visits, SiteEvent.turn?, turnOf, againTurn, h1, h2]
  intro client client' draws draws' h h' hsame
  have hfirst := hsame.dis 0 (by decide)
  rw [hdrawn] at h h'
  split_ifs at h h' <;> subst_vars
  · rfl
  · obtain rfl := Option.some_inj.mp h
    obtain rfl := Option.some_inj.mp h'
    exact absurd hfirst (by decide)
  · obtain rfl := Option.some_inj.mp h
    obtain rfl := Option.some_inj.mp h'
    exact absurd hfirst (by decide)
  · rfl

theorem undisturbed_visits :
    let ready := fun (s : Site ℕ ℕ) (e : SiteEvent ℕ ℕ) => s.answer? e.client
    ((visiting numbered remember).outputs ready {} visits).filter (·.1.client = 1) =
        (visiting numbered remember).outputs ready {} (visits.filter (·.client = 1)) ∧
      (((visiting numbered remember).run {} visits).answer? 1).map (·.1.response.content) =
        some [0] :=
  ⟨(undisturbed run_visits drawnApart_visits 1).2.1, by decide +kernel⟩

end GinCpp.Middleware
