import GinCpp.Assignment.Basic
import GinCpp.Loop.Basic
import GinCpp.Middleware.Session

/-!
# The parsing of cookies

The loop of `parse_cookies` goes on at positions that it has searched for, and the last one is
behind the end of the text.  `reference` reads the text piece by piece instead.  The two agree since
in every turn what the loop has assigned, and what the pieces of the rest of the text assign, are
together what all of the pieces do: `assignAll_turn`.
-/

namespace GinCpp.Middleware

open Assignment

namespace CookieParsing

abbrev ASSIGN : UInt8 := '='.toUInt8
abbrev SEPARATOR : UInt8 := ';'.toUInt8

/-! ## The reference -/

/-- The name and the value of a piece of the text. -/
def cookieOf (piece : Str) : Option (Str × Str) :=
  if ASSIGN ∈ piece then
    some ((name ASSIGN piece).dropWhile cookieBlank, value ASSIGN piece)
  else none

/-- The cookies of a text. -/
def cookiesOf (text : Str) : List (Str × Str) := (text.splitOn SEPARATOR).filterMap cookieOf

/-- What `parse_cookies` is for. -/
def reference (cookieHeader : Str) : Cookies :=
  assignAll (fun _ => none) (cookiesOf cookieHeader)

/-! ## The loop -/

/-- The condition of the loop, on `pos` and `cookies`. -/
def inside (cookieHeader : Str) (s : ℕ × Cookies) : Bool := decide (s.1 < cookieHeader.length)

/-- The value of `end`. -/
def pieceEnd (cookieHeader : Str) (pos : ℕ) : ℕ :=
  match Checked.find (cookieHeader.drop pos) SEPARATOR with
  | some i => pos + i
  | none => cookieHeader.length

/-- The body of the loop. -/
def turn (cookieHeader : Str) (s : ℕ × Cookies) : ℕ × Cookies :=
  (pieceEnd cookieHeader s.1 + 1,
    readPair s.2 ((cookieHeader.drop s.1).take (pieceEnd cookieHeader s.1 - s.1)))

variable {cookieHeader : Str} {s : ℕ × Cookies}

theorem inside_eq_true : inside cookieHeader s = true ↔ s.1 < cookieHeader.length :=
  decide_eq_true_iff

theorem inside_eq_false : inside cookieHeader s = false ↔ cookieHeader.length ≤ s.1 :=
  decide_eq_false_iff_not.trans Nat.not_lt

/-- The loop without a bound on its turns. -/
theorem cookieLoop_of_run {fuel : ℕ} {s' : ℕ × Cookies}
    (h : Loop.run (inside cookieHeader) (turn cookieHeader) fuel s = some s') :
    cookieLoop cookieHeader fuel s.1 s.2 = s'.2 := by
  induction fuel generalizing s with
  | zero =>
      rw [Loop.run] at h
      split_ifs at h
      rw [cookieLoop, Option.some_inj.mp h]
  | succ fuel ih =>
      rw [cookieLoop]
      by_cases hpos : s.1 < cookieHeader.length
      · rw [Loop.run_succ (inside_eq_true.mpr hpos)] at h
        rw [if_pos hpos]
        exact ih h
      · rw [Loop.run_of_not (inside_eq_false.mpr (Nat.le_of_not_lt hpos))] at h
        rw [if_neg hpos, Option.some_inj.mp h]

/-! ## One turn -/

theorem eraseFront_findFirstNotOf (p : UInt8 → Bool) (text : Str) :
    eraseFront text (findFirstNotOf p text) = text.dropWhile p := by
  unfold findFirstNotOf
  induction text with
  | nil => rfl
  | cons c text ih =>
      rw [List.findIdx?_cons, List.dropWhile_cons]
      cases p c with
      | false => rfl
      | true =>
          rw [if_pos rfl, ← ih]
          cases text.findIdx? (!p ·) <;> rfl

theorem readPair_eq (cookies : Cookies) (piece : Str) :
    readPair cookies piece = assignAll cookies (cookieOf piece).toList := by
  unfold readPair cookieOf
  by_cases hmem : ASSIGN ∈ piece
  · obtain ⟨before, after, rfl, hbefore⟩ := List.eq_append_cons_of_mem hmem
    rw [Checked.find_append_cons hbefore, if_pos hmem, name_append_cons hbefore,
      value_append_cons hbefore, ← eraseFront_findFirstNotOf]
    simp
  · rw [Checked.find_of_notMem hmem, if_neg hmem]
    rfl

@[simp] theorem cookiesOf_nil : cookiesOf [] = [] := rfl

theorem cookiesOf_of_notMem {piece : Str} (h : SEPARATOR ∉ piece) :
    cookiesOf piece = (cookieOf piece).toList := by
  rw [cookiesOf, List.splitOn_eq_singleton h, List.filterMap_cons]
  cases cookieOf piece <;> rfl

theorem cookiesOf_append_cons (piece rest : Str) (h : SEPARATOR ∉ piece) :
    cookiesOf (piece ++ SEPARATOR :: rest) = (cookieOf piece).toList ++ cookiesOf rest := by
  rw [← cookiesOf_of_notMem h, cookiesOf, List.splitOn_append_cons_self, List.filterMap_append]
  rfl

/-- A turn reads one piece of the text, and moves behind it. -/
theorem exists_piece (h : s.1 < cookieHeader.length) :
    ∃ piece, (turn cookieHeader s).2 = readPair s.2 piece ∧
      cookiesOf (cookieHeader.drop s.1) =
        (cookieOf piece).toList ++ cookiesOf (cookieHeader.drop (turn cookieHeader s).1) ∧
      s.1 < (turn cookieHeader s).1 := by
  unfold turn
  dsimp only
  by_cases hmem : SEPARATOR ∈ cookieHeader.drop s.1
  · obtain ⟨piece, rest, hdrop, hpiece⟩ := List.eq_append_cons_of_mem hmem
    have hend : pieceEnd cookieHeader s.1 = s.1 + piece.length := by
      rw [pieceEnd, hdrop, Checked.find_append_cons hpiece]
    have hrest : cookieHeader.drop (s.1 + piece.length + 1) = rest := by
      rw [Nat.add_assoc, ← List.drop_drop, hdrop, List.append_cons]
      simp
    rw [hend, hrest, hdrop, Nat.add_sub_cancel_left, List.take_left]
    exact ⟨piece, rfl, cookiesOf_append_cons piece rest hpiece, by omega⟩
  · have hend : pieceEnd cookieHeader s.1 = cookieHeader.length := by
      rw [pieceEnd, Checked.find_of_notMem hmem]
    refine ⟨cookieHeader.drop s.1, ?_, ?_, by omega⟩
    · rw [hend, List.take_of_length_le (by rw [List.length_drop])]
    · rw [hend, List.drop_of_length_le (Nat.le_succ _), cookiesOf_nil, List.append_nil,
        cookiesOf_of_notMem hmem]

/-- What a turn assigns is what the pieces of the rest have less to assign. -/
theorem assignAll_turn (h : s.1 < cookieHeader.length) :
    assignAll (turn cookieHeader s).2 (cookiesOf (cookieHeader.drop (turn cookieHeader s).1)) =
      assignAll s.2 (cookiesOf (cookieHeader.drop s.1)) := by
  obtain ⟨piece, hread, hcookies, _⟩ := exists_piece h
  rw [hread, readPair_eq, hcookies, assignAll_append]

/-! ## The whole loop -/

/-- The loop ends within as many turns as the text has bytes, with what the pieces assign. -/
theorem exists_run_reference (cookieHeader : Str) {fuel : ℕ} (hfuel : cookieHeader.length ≤ fuel) :
    ∃ pos, Loop.run (inside cookieHeader) (turn cookieHeader) fuel (0, fun _ => none) =
      some (pos, reference cookieHeader) := by
  have hturn : ∀ s : ℕ × Cookies,
      assignAll s.2 (cookiesOf (cookieHeader.drop s.1)) = reference cookieHeader →
      inside cookieHeader s = true →
      assignAll (turn cookieHeader s).2 (cookiesOf (cookieHeader.drop (turn cookieHeader s).1)) =
          reference cookieHeader ∧
        cookieHeader.length - (turn cookieHeader s).1 < cookieHeader.length - s.1 := by
    intro s hs hinside
    have hpos : s.1 < cookieHeader.length := inside_eq_true.mp hinside
    obtain ⟨_, _, _, hmoves⟩ := exists_piece hpos
    exact ⟨(assignAll_turn hpos).trans hs, by omega⟩
  obtain ⟨⟨pos, cookies⟩, hrun, hassigned, hend⟩ := Loop.exists_run _
    (cookieHeader.length - ·.1) hturn (s := (0, fun _ => none)) rfl hfuel
  have hover : cookieHeader.length ≤ pos := inside_eq_false.mp hend
  dsimp only at hassigned
  rw [List.drop_of_length_le hover, cookiesOf_nil, assignAll_nil] at hassigned
  exact ⟨pos, by rw [hrun, hassigned]⟩

theorem parseCookies_eq (cookieHeader : Str) :
    parseCookies cookieHeader = reference cookieHeader := by
  obtain ⟨pos, hrun⟩ := exists_run_reference cookieHeader (Nat.le_refl _)
  exact cookieLoop_of_run hrun

/-! ## Cookies that are written to a header -/

/-- A cookie that can be told from the rest of a header. -/
structure WellFormed (cookie : Str × Str) : Prop where
  assign_notMem : ASSIGN ∉ cookie.1
  separator_notMem : SEPARATOR ∉ cookie.1
  head_notBlank : ∀ c ∈ cookie.1.head?, cookieBlank c = false
  separator_notMem_value : SEPARATOR ∉ cookie.2

/-- `n=v`. -/
def written (cookie : Str × Str) : Str := cookie.1 ++ ASSIGN :: cookie.2

/-- `n1=v1; n2=v2; ...`. -/
def headerOf (cookies : List (Str × Str)) : Str :=
  (ascii "; ").intercalate (cookies.map written)

variable {cookie : Str × Str} {cookies : List (Str × Str)} {blanks : Str}

theorem notMem_blanks {c : UInt8} (hc : cookieBlank c = false)
    (hblanks : ∀ b ∈ blanks, cookieBlank b = true) : c ∉ blanks := by
  intro hmem
  rw [hblanks c hmem] at hc
  cases hc

theorem separator_notMem_written (h : WellFormed cookie) : SEPARATOR ∉ written cookie := by
  have hassign : SEPARATOR ≠ ASSIGN := by decide
  simp [written, h.separator_notMem, hassign, h.separator_notMem_value]

/-- A cookie is read back, behind any blanks. -/
theorem cookieOf_written (h : WellFormed cookie)
    (hblanks : ∀ b ∈ blanks, cookieBlank b = true) :
    cookieOf (blanks ++ written cookie) = some cookie := by
  obtain ⟨n, v⟩ := cookie
  have hassign : ASSIGN ∉ blanks ++ n :=
    List.not_mem_append (notMem_blanks (by decide) hblanks) h.assign_notMem
  have htrim : (blanks ++ n).dropWhile cookieBlank = n := by
    rw [List.dropWhile_append_of_pos hblanks]
    cases n with
    | nil => rfl
    | cons c n => exact List.dropWhile_cons_of_neg (by simpa using h.head_notBlank c rfl)
  rw [written, ← List.append_assoc, cookieOf, if_pos (by simp), name_append_cons hassign,
    value_append_cons hassign, htrim]

theorem headerOf_cons_cons (cookie next : Str × Str) (cookies : List (Str × Str)) :
    headerOf (cookie :: next :: cookies) =
      written cookie ++ SEPARATOR :: ([SP] ++ headerOf (next :: cookies)) := by
  have hsep : ascii "; " = [SEPARATOR, SP] := rfl
  rw [headerOf, List.map_cons, List.map_cons, List.intercalate_cons_cons, hsep,
    List.append_assoc]
  rfl

/-- **The round trip**, behind any blanks. -/
theorem cookiesOf_headerOf (h : ∀ cookie ∈ cookies, WellFormed cookie)
    (hblanks : ∀ b ∈ blanks, cookieBlank b = true) :
    cookiesOf (blanks ++ headerOf cookies) = cookies := by
  induction cookies generalizing blanks with
  | nil =>
      have hassign : ASSIGN ∉ blanks := notMem_blanks (by decide) hblanks
      rw [headerOf, List.map_nil, List.intercalate_nil, List.append_nil,
        cookiesOf_of_notMem (notMem_blanks (by decide) hblanks), cookieOf, if_neg hassign]
      rfl
  | cons cookie cookies ih =>
      obtain ⟨hcookie, hcookies⟩ := List.forall_mem_cons.mp h
      have hsep : SEPARATOR ∉ blanks ++ written cookie :=
        List.not_mem_append (notMem_blanks (by decide) hblanks) (separator_notMem_written hcookie)
      cases cookies with
      | nil =>
          rw [headerOf, List.map_cons, List.map_nil, List.intercalate_singleton,
            cookiesOf_of_notMem hsep, cookieOf_written hcookie hblanks]
          rfl
      | cons next cookies =>
          rw [headerOf_cons_cons, ← List.append_assoc, cookiesOf_append_cons _ _ hsep,
            cookieOf_written hcookie hblanks, ih hcookies (List.forall_mem_singleton.mpr rfl)]
          rfl

/-! ## Cookies are parsed as their reference says -/

/-- **`parse_cookies`** ends on every text, within a turn for each byte, and returns what the pieces
of the text assign; from cookies that were written to a header it reads these cookies. -/
theorem parseCookies_spec :
    (∀ (cookieHeader : Str) (fuel : ℕ), cookieHeader.length ≤ fuel →
      ∃ pos, Loop.run (inside cookieHeader) (turn cookieHeader) fuel (0, fun _ => none) =
        some (pos, parseCookies cookieHeader)) ∧
    (∀ cookieHeader, parseCookies cookieHeader = reference cookieHeader) ∧
    ∀ cookies : List (Str × Str), (cookies.map Prod.fst).Nodup →
      (∀ cookie ∈ cookies, WellFormed cookie) →
      ∀ name value,
        parseCookies (headerOf cookies) name = some value ↔ (name, value) ∈ cookies := by
  refine ⟨fun cookieHeader fuel hfuel => ?_, parseCookies_eq, ?_⟩
  · rw [parseCookies_eq]
    exact exists_run_reference cookieHeader hfuel
  · intro cookies hnodup hcookies name value
    have hread : cookiesOf ([] ++ headerOf cookies) = cookies :=
      cookiesOf_headerOf hcookies (List.forall_mem_nil _)
    rw [List.nil_append] at hread
    rw [parseCookies_eq, reference, hread]
    exact assignAll_eq_some_iff hnodup

/-- The header of two cookies, one with an equals sign in its value. -/
theorem parseCookies_two :
    let cookies := [(ascii "theme", ascii "dark"), (ascii "session_id", ascii "a=b")]
    ∀ name value, parseCookies (headerOf cookies) name = some value ↔ (name, value) ∈ cookies := by
  refine parseCookies_spec.2.2 _ (by decide) fun cookie hcookie => ?_
  rw [List.mem_cons, List.mem_singleton] at hcookie
  rcases hcookie with rfl | rfl
  all_goals
    refine ⟨by decide, by decide, fun c hc => ?_, by decide⟩
    cases hc
    rfl

end CookieParsing

end GinCpp.Middleware
