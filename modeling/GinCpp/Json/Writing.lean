import GinCpp.Json.Basic
import Mathlib.Data.List.Infix
import Mathlib.Tactic.SplitIfs

/-!
# Texts that are read back

What the reader makes of an object that was written by hand: members with a quotation mark around
each key and each string, a comma and a space between them.  Keys and numbers are read as they were
written.  A string is, if and only if all its characters stand for themselves
(`verbatim_of_readText`): an escape is longer than what it stands for, and a quotation mark ends the
string too early.
-/

namespace GinCpp.Json

variable {c d : Char} {cs rest rest' chars more : List Char} {fuel : ℕ}

/-! ## One fixed character -/

theorem expect_cons (h : isBlank c = false) (cs : List Char) : expect c (c :: cs) = some cs := by
  simp [expect, skipBlanks, h]

theorem expect_space (c : Char) (cs : List Char) : expect c (' ' :: cs) = expect c cs := by
  have hblank : isBlank ' ' = true := rfl
  simp [expect, skipBlanks, hblank]

theorem expect_of_ne (hd : isBlank d = false) (hne : d ≠ c) (cs : List Char) :
    expect c (d :: cs) = none := by
  simp [expect, skipBlanks, hd, hne]

/-! ## Strings -/

/-- The characters of a text stand for themselves in a string. -/
def Verbatim (chars : List Char) : Prop := ∀ c ∈ chars, c ≠ '"' ∧ c ≠ '\\' ∧ 32 ≤ c.toNat

instance (chars : List Char) : Decidable (Verbatim chars) := List.decidableBAll _ chars

theorem readUnit_of_verbatim (hquote : c ≠ '"') (hslash : c ≠ '\\') (hcontrol : 32 ≤ c.toNat)
    (cs : List Char) : readUnit (c :: cs) = some (c, cs) := by
  have hend : ¬ (c = '"' ∨ c.toNat < 32) := not_or.mpr ⟨hquote, by omega⟩
  rw [readUnit, if_neg hslash, if_neg hend]

theorem readText_quote (fuel : ℕ) (cs : List Char) :
    readText (fuel + 1) ('"' :: cs) = some ([], cs) := rfl

theorem readText_cons (h : c ≠ '"') (fuel : ℕ) (cs : List Char) :
    readText (fuel + 1) (c :: cs) = (readUnit (c :: cs)).bind fun unit =>
      (readText fuel unit.2).bind fun read => some (unit.1 :: read.1, read.2) := by
  have hhead : (c :: cs).head? ≠ some '"' := fun heq => h (Option.some_inj.mp heq)
  rw [readText, if_neg hhead]
  rfl

/-- A text of such characters is read as it is. -/
theorem readText_of_verbatim (h : Verbatim chars) (hfuel : chars.length < fuel)
    (cs : List Char) : readText fuel (chars ++ '"' :: cs) = some (chars, cs) := by
  induction chars generalizing fuel with
  | nil =>
      obtain ⟨fuel, rfl⟩ : ∃ k, fuel = k + 1 := ⟨fuel - 1, by simp at hfuel; omega⟩
      rfl
  | cons c chars ih =>
      obtain ⟨⟨hquote, hslash, hcontrol⟩, hchars⟩ := List.forall_mem_cons.mp h
      rw [List.length_cons] at hfuel
      obtain ⟨fuel, rfl⟩ : ∃ k, fuel = k + 1 := ⟨fuel - 1, by omega⟩
      rw [List.cons_append, readText_cons hquote, readUnit_of_verbatim hquote hslash hcontrol,
        Option.bind_some, ih hchars (by omega)]
      rfl

/-- Four hexadecimal digits have no quotation mark among them. -/
theorem exists_of_readHex {n : ℕ} (h : readHex cs = some (n, rest)) :
    ∃ used, cs = used ++ rest ∧ '"' ∉ used := by
  have hdigit : ∀ c n, hexValue c = some n → c ≠ '"' := by
    rintro c n hc rfl
    cases hc
  unfold readHex at h
  split at h
  · next a b c d cs =>
    obtain ⟨i, hi, h⟩ := Option.bind_eq_some_iff.mp h
    obtain ⟨j, hj, h⟩ := Option.bind_eq_some_iff.mp h
    obtain ⟨k, hk, h⟩ := Option.bind_eq_some_iff.mp h
    obtain ⟨l, hl, h⟩ := Option.bind_eq_some_iff.mp h
    obtain ⟨-, rfl⟩ := Prod.mk.inj (Option.some_inj.mp h)
    refine ⟨[a, b, c, d], rfl, ?_⟩
    simp only [List.mem_cons, List.not_mem_nil, or_false, not_or]
    exact ⟨(hdigit a i hi).symm, (hdigit b j hj).symm, (hdigit c k hk).symm, (hdigit d l hl).symm⟩
  · cases h

theorem exists_of_readUnicode (hread : readUnicode cs = some (c, rest)) :
    ∃ used, cs = used ++ rest ∧ '"' ∉ used := by
  obtain ⟨⟨unit, cs'⟩, hunit, h⟩ := Option.bind_eq_some_iff.mp hread
  obtain ⟨used, rfl, hused⟩ := exists_of_readHex hunit
  dsimp only at h
  split_ifs at h with hbasic hhigh
  · obtain ⟨-, rfl⟩ := Prod.mk.inj (Option.some_inj.mp h)
    exact ⟨used, rfl, hused⟩
  · split at h
    · next cs' =>
      obtain ⟨⟨low, cs''⟩, hlow, hpair⟩ := Option.bind_eq_some_iff.mp h
      obtain ⟨used', rfl, hused'⟩ := exists_of_readHex hlow
      dsimp only at hpair
      split_ifs at hpair
      obtain ⟨-, rfl⟩ := Prod.mk.inj (Option.some_inj.mp hpair)
      refine ⟨used ++ '\\' :: 'u' :: used', by simp, ?_⟩
      simp [hused, hused']
    · cases h

/-- An escape has a quotation mark in no place but its first. -/
theorem exists_of_readEscape (h : readEscape cs = some (d, rest)) :
    ∃ used, cs = used ++ rest ∧ used ≠ [] ∧ (used = ['"'] ∨ '"' ∉ used) := by
  cases cs with
  | nil => cases h
  | cons c cs =>
      rw [readEscape] at h
      split_ifs at h with hunicode
      · subst hunicode
        obtain ⟨used, rfl, hused⟩ := exists_of_readUnicode h
        exact ⟨'u' :: used, rfl, List.cons_ne_nil _ _, Or.inr (by simp [hused])⟩
      · obtain ⟨e, -, he⟩ := Option.map_eq_some_iff.mp h
        obtain ⟨-, rfl⟩ := Prod.mk.inj he
        refine ⟨[c], rfl, List.cons_ne_nil _ _, ?_⟩
        by_cases hquote : c = '"'
        · exact Or.inl (by rw [hquote])
        · exact Or.inr (by simpa using Ne.symm hquote)

/-- A unit is a character that stands for itself, or an escape. -/
theorem readUnit_cases (h : readUnit cs = some (d, rest)) :
    (cs = d :: rest ∧ d ≠ '"' ∧ d ≠ '\\' ∧ 32 ≤ d.toNat) ∨
      ∃ used, cs = '\\' :: (used ++ rest) ∧ used ≠ [] ∧ (used = ['"'] ∨ '"' ∉ used) := by
  cases cs with
  | nil => cases h
  | cons c cs =>
      rw [readUnit] at h
      split_ifs at h with hslash hend
      · subst hslash
        obtain ⟨used, rfl, hused⟩ := exists_of_readEscape h
        exact Or.inr ⟨used, rfl, hused⟩
      · obtain ⟨rfl, rfl⟩ := Prod.mk.inj (Option.some_inj.mp h)
        obtain ⟨hquote, hcontrol⟩ := not_or.mp hend
        exact Or.inl ⟨rfl, hquote, hslash, by omega⟩

/-- A string that does not end here: one unit is read, and then the rest. -/
theorem exists_of_readText_cons (hne : c ≠ '"')
    (h : readText (fuel + 1) (c :: cs) = some (more, rest)) :
    ∃ d cs' more', readUnit (c :: cs) = some (d, cs') ∧ readText fuel cs' = some (more', rest) ∧
      more = d :: more' := by
  rw [readText_cons hne] at h
  obtain ⟨⟨d, cs'⟩, hunit, hbind⟩ := Option.bind_eq_some_iff.mp h
  obtain ⟨⟨more', rest'⟩, hread, hpair⟩ := Option.bind_eq_some_iff.mp hbind
  obtain ⟨rfl, rfl⟩ := Prod.mk.inj (Option.some_inj.mp hpair)
  exact ⟨d, cs', more', hunit, hread, rfl⟩

/-- The closing quotation mark behind `chars` was taken for a part of the string `more`, and so was
what follows it. -/
def Overrun (chars cs more rest : List Char) : Prop :=
  chars.getLast? = some '\\' ∧
    ∃ fuel front back, more = front ++ back ∧ readText fuel cs = some (back, rest)

/-- It is no matter what was read before. -/
theorem Overrun.append (h : Overrun chars cs more rest) (used : List Char) (d : Char) :
    Overrun (used ++ chars) cs (d :: more) rest := by
  obtain ⟨hlast, fuel, front, back, rfl, hback⟩ := h
  refine ⟨?_, fuel, d :: front, back, rfl, hback⟩
  rw [List.getLast?_append, hlast]
  rfl

/-- What can become of a text in quotation marks: it is read as it is, it is read as something
shorter, or the closing quotation mark is overrun. -/
theorem readText_cases (h : readText fuel (chars ++ '"' :: cs) = some (more, rest)) :
    (Verbatim chars ∧ more = chars ∧ rest = cs) ∨ more.length < chars.length ∨
      Overrun chars cs more rest := by
  induction hlength : chars.length using Nat.strongRecOn generalizing fuel chars more with
  | ind n ih =>
      cases fuel with
      | zero => cases h
      | succ fuel =>
          cases chars with
          | nil =>
              rw [List.nil_append, readText_quote] at h
              obtain ⟨rfl, rfl⟩ := Prod.mk.inj (Option.some_inj.mp h)
              exact Or.inl ⟨List.forall_mem_nil _, rfl, rfl⟩
          | cons c chars =>
              rw [List.length_cons] at hlength
              by_cases hquote : c = '"'
              · subst hquote
                rw [List.cons_append, readText_quote] at h
                obtain ⟨rfl, -⟩ := Prod.mk.inj (Option.some_inj.mp h)
                exact Or.inr (Or.inl (hlength ▸ Nat.succ_pos _))
              · obtain ⟨d, cs', more', hunit, hread, rfl⟩ := exists_of_readText_cons hquote h
                rw [List.length_cons]
                rcases readUnit_cases hunit with ⟨hcons, hne, hslash, hcontrol⟩ |
                  ⟨used, hcons, hused, hmark⟩
                · -- a character that stands for itself
                  obtain ⟨rfl, rfl⟩ := List.cons.inj hcons
                  rcases ih chars.length (by omega) hread rfl with
                    ⟨hverbatim, rfl, rfl⟩ | hshort | hover
                  · exact Or.inl ⟨List.forall_mem_cons.mpr ⟨⟨hne, hslash, hcontrol⟩, hverbatim⟩,
                      rfl, rfl⟩
                  · exact Or.inr (Or.inl (by omega))
                  · exact Or.inr (Or.inr (hover.append [c] c))
                · obtain ⟨rfl, happend⟩ := List.cons.inj hcons
                  -- an escape within the text is longer than what it stands for
                  have hinside : ∀ e, chars = used ++ e → cs' = e ++ '"' :: cs →
                      more'.length + 1 < n ∨ Overrun ('\\' :: chars) cs (d :: more') rest := by
                    rintro e rfl rfl
                    have hpos := List.length_pos_iff.mpr hused
                    rw [List.length_append] at hlength
                    rcases ih e.length (by omega) hread rfl with ⟨-, rfl, -⟩ | hshort | hover
                    · exact Or.inl (by omega)
                    · exact Or.inl (by omega)
                    · exact Or.inr (hover.append ('\\' :: used) d)
                  right
                  rcases List.append_eq_append_iff.mp happend with ⟨e, rfl, he⟩ | ⟨e, he, hrest⟩
                  · cases e with
                    | nil => exact hinside [] (by simp) (by simpa using he.symm)
                    | cons f e =>
                        -- the escape is the closing quotation mark
                        obtain ⟨rfl, rfl⟩ := List.cons.inj he
                        have hsingle := hmark.resolve_right fun hnone => hnone (by simp)
                        obtain ⟨rfl, rfl⟩ : chars = [] ∧ e = [] := by
                          cases chars with
                          | nil => simpa using hsingle
                          | cons g chars => simp at hsingle
                        exact Or.inr ⟨rfl, fuel, [d], more', rfl, hread⟩
                  · exact hinside e he hrest

/-- What follows a closing quotation mark would not end in a backslash if it were read as a part of
the string. -/
def Sealed (cs : List Char) : Prop :=
  ∀ fuel back rest, readText fuel cs = some (back, rest) →
    back ≠ [] ∧ back.getLast? ≠ some '\\'

/-- **Only a text of characters that stand for themselves is read as it is.** -/
theorem verbatim_of_readText (hsealed : Sealed cs)
    (h : readText fuel (chars ++ '"' :: cs) = some (chars, rest)) :
    Verbatim chars ∧ rest = cs := by
  rcases readText_cases h with ⟨hverbatim, -, hrest⟩ | hshort | ⟨hlast, _, front, back, rfl, hback⟩
  · exact ⟨hverbatim, hrest⟩
  · exact absurd hshort (Nat.lt_irrefl _)
  · obtain ⟨hne, hslash⟩ := hsealed _ _ _ hback
    rw [List.getLast?_append_of_ne_nil _ hne] at hlast
    exact absurd hlast hslash

theorem eq_of_readText (h : Verbatim chars)
    (hread : readText fuel (chars ++ '"' :: cs) = some (more, rest)) :
    more = chars ∧ rest = cs := by
  induction chars generalizing fuel more with
  | nil =>
      cases fuel with
      | zero => cases hread
      | succ fuel =>
          rw [List.nil_append, readText_quote] at hread
          obtain ⟨rfl, rfl⟩ := Prod.mk.inj (Option.some_inj.mp hread)
          exact ⟨rfl, rfl⟩
  | cons c chars ih =>
      obtain ⟨⟨hquote, hslash, hcontrol⟩, hchars⟩ := List.forall_mem_cons.mp h
      cases fuel with
      | zero => cases hread
      | succ fuel =>
          obtain ⟨d, cs', more', hunit, hmore, rfl⟩ := exists_of_readText_cons hquote hread
          rw [readUnit_of_verbatim hquote hslash hcontrol] at hunit
          obtain ⟨rfl, rfl⟩ := Prod.mk.inj (Option.some_inj.mp hunit)
          obtain ⟨rfl, hrest⟩ := ih hchars hmore
          exact ⟨rfl, hrest⟩

/-- Behind the closing quotation mark there is another string, with some text before it. -/
theorem sealed_of_verbatim (h : Verbatim chars) (hne : chars ≠ []) (cs : List Char) :
    Sealed (chars ++ '"' :: cs) := by
  intro fuel back rest hback
  obtain ⟨rfl, -⟩ := eq_of_readText h hback
  exact ⟨hne, fun hlast => (h _ (List.mem_of_getLast? hlast)).2.1 rfl⟩

/-- Behind the closing quotation mark the text is over. -/
theorem sealed_brace : Sealed ['\x7d'] := by
  intro fuel back rest hback
  rcases fuel with _ | _ | fuel <;> cases hback

/-! ## Values -/

/-- What separates or ends the members of an object. -/
def Ends (cs : List Char) : Prop := cs.head? = some ',' ∨ cs.head? = some '\x7d'

/-- What a text is read as in front of that. -/
def Reads (written : List Char) (value : Option Value) : Prop :=
  ∀ fuel cs, Ends cs → readValue (fuel + 1) (written ++ cs) = value.map fun value => (value, cs)

/-- A text in quotation marks. -/
def quoted (chars : List Char) : List Char := '"' :: (chars ++ ['"'])

theorem readValue_quoted (fuel : ℕ) (chars cs : List Char) :
    readValue (fuel + 1) (quoted chars ++ cs) =
      (readText ((chars ++ '"' :: cs).length + 1) (chars ++ '"' :: cs)).map
        fun read => (.text read.1, read.2) := by
  have htext : quoted chars ++ cs = '"' :: (chars ++ '"' :: cs) := by simp [quoted]
  have hskip : skipBlanks ('"' :: (chars ++ '"' :: cs)) = '"' :: (chars ++ '"' :: cs) := rfl
  rw [htext, readValue, hskip]
  rfl

theorem reads_quoted (h : Verbatim chars) : Reads (quoted chars) (some (.text chars)) := by
  intro fuel cs _
  have hlength : chars.length < (chars ++ '"' :: cs).length + 1 := by
    rw [List.length_append]
    omega
  rw [readValue_quoted, readText_of_verbatim h hlength]
  rfl

/-! ## Members -/

/-- A member of an object. -/
def member (key written : List Char) : List Char :=
  '"' :: (key ++ '"' :: ':' :: ' ' :: written)

/-- What follows a member that has been read. -/
def readMore (fuel : ℕ) (first : List Char × Value) (cs : List Char) :
    Option (List (List Char × Value) × List Char) :=
  match expect ',' cs with
  | some cs => (readMembers fuel cs).map fun read => (first :: read.1, read.2)
  | none => (expect '\x7d' cs).map fun cs => ([first], cs)

variable {key written : List Char} {value : Value}

theorem readValue_space (fuel : ℕ) (cs : List Char) :
    readValue fuel (' ' :: cs) = readValue fuel cs := by
  have hskip : skipBlanks (' ' :: cs) = skipBlanks cs := rfl
  cases fuel with
  | zero => rfl
  | succ fuel => rw [readValue, readValue, hskip]

theorem readMembers_space (fuel : ℕ) (cs : List Char) :
    readMembers fuel (' ' :: cs) = readMembers fuel cs := by
  cases fuel with
  | zero => rfl
  | succ fuel => rw [readMembers, readMembers, expect_space]

theorem readMembers_member (hkey : Verbatim key) (fuel : ℕ) (cs : List Char) :
    readMembers (fuel + 1) (member key written ++ cs) =
      (readValue fuel (written ++ cs)).bind fun read => readMore fuel (key, read.1) read.2 := by
  have htext : member key written ++ cs =
      '"' :: (key ++ '"' :: ':' :: ' ' :: (written ++ cs)) := by simp [member]
  have hlength : key.length < (key ++ '"' :: ':' :: ' ' :: (written ++ cs)).length + 1 := by
    rw [List.length_append]
    omega
  rw [htext, readMembers, expect_cons rfl, Option.bind_eq_bind, Option.bind_some,
    readText_of_verbatim hkey hlength, Option.bind_eq_bind, Option.bind_some]
  dsimp only
  rw [expect_cons rfl, Option.bind_eq_bind, Option.bind_some, readValue_space]
  cases readValue fuel (written ++ cs) with
  | none => rfl
  | some read =>
      obtain ⟨value, rest⟩ := read
      rw [Option.bind_eq_bind, Option.bind_some, Option.bind_some, readMore]
      cases expect ',' rest with
      | none =>
          dsimp only
          cases expect '\x7d' rest <;> rfl
      | some rest =>
          dsimp only
          cases readMembers fuel rest <;> rfl

end GinCpp.Json
