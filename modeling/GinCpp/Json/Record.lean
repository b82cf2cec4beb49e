import GinCpp.Json.Writing
import Mathlib.Data.Nat.Digits.Lemmas

/-!
# Records

Numbers are read back, and objects with fixed keys are, if and only if each of their strings
consists of characters that stand for themselves (`read_of_faithful`, `faithful_of_read`).
-/

namespace GinCpp.Json

variable {cs rest digits fraction : List Char} {fuel : ℕ}

/-! ## Numbers -/

theorem Ends.exists_cons (h : Ends cs) : ∃ c more, cs = c :: more ∧ (c = ',' ∨ c = '\x7d') := by
  cases cs with
  | nil => simp [Ends] at h
  | cons c more => exact ⟨c, more, rfl, by simpa [Ends] using h⟩

theorem readDigits_append (h : ∀ c ∈ digits, c.isDigit) (hstop : ∀ c ∈ cs.head?, ¬ c.isDigit) :
    readDigits (digits ++ cs) = (digits, cs) := by
  have hstop' : cs.takeWhile Char.isDigit = [] ∧ cs.dropWhile Char.isDigit = cs := by
    cases cs with
    | nil => exact ⟨rfl, rfl⟩
    | cons c cs =>
        have hc : c.isDigit = false := by simpa using hstop c rfl
        simp [hc]
  rw [readDigits, List.takeWhile_append_of_pos h, List.dropWhile_append_of_pos h, hstop'.1,
    hstop'.2, List.append_nil]

theorem readFraction_of_ends (h : Ends cs) : readFraction cs = some ([], cs) := by
  obtain ⟨c, more, rfl, rfl | rfl⟩ := h.exists_cons <;> rfl

theorem readExponent_of_ends (h : Ends cs) : readExponent cs = some (0, cs) := by
  obtain ⟨c, more, rfl, rfl | rfl⟩ := h.exists_cons <;> rfl

theorem Ends.head_not_isDigit (h : Ends cs) : ∀ c ∈ cs.head?, ¬ c.isDigit := by
  obtain ⟨c, more, rfl, rfl | rfl⟩ := h.exists_cons <;> simp

/-- The fraction of a numeral, with its point. -/
def behindPoint (fraction : List Char) : List Char := if fraction = [] then [] else '.' :: fraction

theorem readFraction_behindPoint (h : ∀ c ∈ fraction, c.isDigit) (hends : Ends cs) :
    readFraction (behindPoint fraction ++ cs) = some (fraction, cs) := by
  by_cases hne : fraction = []
  · subst hne
    exact readFraction_of_ends hends
  · have hhead : ('.' :: (fraction ++ cs)).head? = some '.' := rfl
    rw [behindPoint, if_neg hne, List.cons_append, readFraction, if_pos hhead, List.tail_cons,
      readDigits_append h hends.head_not_isDigit]
    exact if_neg hne

theorem head_behindPoint (hends : Ends cs) :
    ∀ c ∈ (behindPoint fraction ++ cs).head?, ¬ c.isDigit := by
  unfold behindPoint
  split_ifs
  · exact hends.head_not_isDigit
  · simp

/-- An integer, or a decimal fraction. -/
def numeral (negative : Bool) (digits fraction : List Char) : List Char :=
  (if negative then ['-'] else []) ++ (digits ++ behindPoint fraction)

/-- The value of a numeral. -/
def numberOf (negative : Bool) (digits fraction : List Char) : Value :=
  let mantissa : ℤ := Nat.ofDigitChars 10 (digits ++ fraction) 0
  .number (if negative then -mantissa else mantissa) (0 - fraction.length)

/-- The integer part of a number: digits without a leading zero. -/
structure IntegerPart (digits : List Char) : Prop where
  ne_nil : digits ≠ []
  isDigit : ∀ c ∈ digits, c.isDigit
  leading : digits.head? = some '0' → digits = ['0']

/-- The sign of a numeral is found, and taken off. -/
theorem sign_numeral (negative : Bool) (hdigits : IntegerPart digits) (fraction cs : List Char) :
    ((numeral negative digits fraction ++ cs).head? == some '-') = negative ∧
      (if negative then (numeral negative digits fraction ++ cs).tail
        else numeral negative digits fraction ++ cs) =
          digits ++ (behindPoint fraction ++ cs) := by
  cases negative with
  | true => exact ⟨rfl, by simp [numeral]⟩
  | false =>
      obtain ⟨c, more, rfl⟩ := List.exists_cons_of_ne_nil hdigits.ne_nil
      have hc : c ≠ '-' := by
        rintro rfl
        exact absurd (hdigits.isDigit '-' List.mem_cons_self) (by decide)
      exact ⟨by simpa [numeral] using hc, by simp [numeral]⟩

theorem readNumber_numeral (negative : Bool) (hdigits : IntegerPart digits)
    (hfraction : ∀ c ∈ fraction, c.isDigit) (hends : Ends cs) :
    readNumber (numeral negative digits fraction ++ cs) =
      some (numberOf negative digits fraction, cs) := by
  have hread : readDigits (digits ++ (behindPoint fraction ++ cs)) =
      (digits, behindPoint fraction ++ cs) :=
    readDigits_append hdigits.isDigit (head_behindPoint hends)
  have hinteger : ¬ (digits = [] ∨ (digits.head? = some '0' ∧ digits ≠ ['0'])) := by
    rintro (hnil | ⟨hzero, hne⟩)
    · exact hdigits.ne_nil hnil
    · exact hne (hdigits.leading hzero)
  obtain ⟨hsign, hunsigned⟩ := sign_numeral negative hdigits fraction cs
  rw [readNumber]
  dsimp only
  rw [hsign, hunsigned, hread]
  dsimp only
  rw [if_neg hinteger, readFraction_behindPoint hfraction hends, Option.bind_eq_bind,
    Option.bind_some]
  dsimp only
  rw [readExponent_of_ends hends]
  rfl

/-- What begins with a digit or a minus sign is read as a number. -/
theorem readValue_number {c : Char} (h : c.isDigit ∨ c = '-') (fuel : ℕ) (cs : List Char) :
    readValue (fuel + 1) (c :: cs) = readNumber (c :: cs) := by
  have hne : ∀ d : Char, d.isDigit = false → d ≠ '-' → c ≠ d := by
    intro d hdigit hminus heq
    rcases h with h | h
    · rw [heq, hdigit] at h
      cases h
    · exact hminus (heq ▸ h)
  have hblank : isBlank c = false := by
    simp [isBlank, hne ' ' rfl (by decide), hne '\t' rfl (by decide), hne '\n' rfl (by decide),
      hne '\x0d' rfl (by decide)]
  have hskip : skipBlanks (c :: cs) = c :: cs := by simp [skipBlanks, hblank]
  rw [readValue, hskip]
  dsimp only
  rw [if_neg (hne '"' rfl (by decide)), if_neg (hne '\x7b' rfl (by decide)),
    if_neg (hne '[' rfl (by decide)), if_neg (hne 't' rfl (by decide)),
    if_neg (hne 'f' rfl (by decide)), if_neg (hne 'n' rfl (by decide))]

theorem reads_numeral (negative : Bool) (hdigits : IntegerPart digits)
    (hfraction : ∀ c ∈ fraction, c.isDigit) :
    Reads (numeral negative digits fraction) (some (numberOf negative digits fraction)) := by
  intro fuel cs hends
  rw [Option.map_some, ← readNumber_numeral negative hdigits hfraction hends]
  obtain ⟨c, more, hcons, hc⟩ : ∃ c more, numeral negative digits fraction = c :: more ∧
      (c.isDigit ∨ c = '-') := by
    cases negative with
    | true => exact ⟨'-', _, rfl, Or.inr rfl⟩
    | false =>
        obtain ⟨c, more, rfl⟩ := List.exists_cons_of_ne_nil hdigits.ne_nil
        exact ⟨c, _, rfl, Or.inl (hdigits.isDigit c (by simp))⟩
  rw [hcons]
  exact readValue_number hc fuel (more ++ cs)

/-- A number is written without leading zeros. -/
theorem head_toDigits (n : ℕ) :
    (Nat.toDigits 10 n).head? = some '0' → Nat.toDigits 10 n = ['0'] := by
  induction n using Nat.strongRecOn with
  | ind n ih =>
      intro hzero
      by_cases hlt : n < 10
      · rw [Nat.toDigits_of_lt_base hlt] at hzero ⊢
        rw [Option.some_inj.mp hzero]
      · -- the leading digits are those of `n / 10`, which is not zero
        have hdigits := Nat.toDigits_of_base_le (b := 10) (by omega) (by omega : 10 ≤ n)
        rw [hdigits, List.head?_append_of_ne_nil _ Nat.toDigits_ne_nil] at hzero
        have hvalue : n / 10 = 0 := by
          calc n / 10
              = Nat.ofDigitChars 10 (Nat.toDigits 10 (n / 10)) 0 :=
                Nat.ofDigitChars_ten_toDigits.symm
            _ = 0 := by
                rw [ih (n / 10) (by omega) hzero]
                rfl
        omega

theorem integerPart_toDigits (n : ℕ) : IntegerPart (Nat.toDigits 10 n) :=
  ⟨Nat.toDigits_ne_nil, fun _ hc => Nat.isDigit_of_mem_toDigits (by omega) (by omega) hc,
    head_toDigits n⟩

/-- `std::to_string` of an integer. -/
theorem reads_integer (n : ℤ) :
    Reads (numeral (n < 0) (Nat.toDigits 10 n.natAbs) []) (some (.number n 0)) := by
  have hvalue : numberOf (n < 0) (Nat.toDigits 10 n.natAbs) [] = .number n 0 := by
    rw [numberOf, List.append_nil, Nat.ofDigitChars_ten_toDigits]
    simp only [decide_eq_true_eq]
    congr 1
    split_ifs <;> omega
  exact hvalue ▸ reads_numeral _ (integerPart_toDigits _) (by simp)

/-! ## Members -/

/-- A member as it is written: a text in quotation marks, or something else with its value, if it
has one. -/
inductive Field
  | text (key chars : List Char)
  | other (key written : List Char) (value : Option Value)

namespace Field

def written : Field → List Char
  | text key chars => member key (quoted chars)
  | other key written _ => member key written

/-- The member that is meant. -/
def meant : Field → List Char × Value
  | text key chars => (key, .text chars)
  | other key _ value => (key, value.getD .null)

def Sound : Field → Prop
  | text key _ => Verbatim key
  | other key written value => Verbatim key ∧ Reads written value

/-- The field is read as the member that is meant. -/
def Faithful : Field → Prop
  | text _ chars => Verbatim chars
  | other _ _ value => value.isSome

/-- The members that have the key of a text are this text. -/
def Told (members : List (List Char × Value)) : Field → Prop
  | text key chars => ∀ value, (key, value) ∈ members → value = .text chars
  | other _ _ _ => True

end Field

/-- What follows a member. -/
def closing : List Field → List Char
  | [] => ['\x7d']
  | next :: fields => ',' :: ' ' :: (next.written ++ closing fields)

/-- An object with at least one member. -/
def objectText (first : Field) (fields : List Field) : List Char :=
  '\x7b' :: (first.written ++ closing fields)

theorem length_closing (fields : List Field) : fields.length < (closing fields).length := by
  induction fields with
  | nil => exact Nat.zero_lt_one
  | cons next fields ih =>
      rw [closing, List.length_cons, List.length_cons, List.length_cons, List.length_append]
      omega

theorem ends_closing (fields : List Field) : Ends (closing fields) := by
  cases fields with
  | nil => exact Or.inr rfl
  | cons next fields => exact Or.inl rfl

theorem Field.exists_written (field : Field) : ∃ more, field.written = '"' :: more := by
  cases field with
  | text key chars => exact ⟨_, rfl⟩
  | other key written value => exact ⟨_, rfl⟩

theorem sealed_closing (fields : List Field) : Sealed (closing fields) := by
  cases fields with
  | nil => exact sealed_brace
  | cons next fields =>
      obtain ⟨more, hmore⟩ := next.exists_written
      have htext : closing (next :: fields) = [',', ' '] ++ '"' :: (more ++ closing fields) := by
        simp [closing, hmore]
      exact htext ▸ sealed_of_verbatim (by decide) (by simp) _

theorem readMore_nil (fuel : ℕ) (first : List Char × Value) :
    readMore fuel first (closing []) = some ([first], []) := rfl

theorem readMore_cons (fuel : ℕ) (first : List Char × Value) (next : Field) (fields : List Field) :
    readMore fuel first (closing (next :: fields)) =
      (readMembers fuel (next.written ++ closing fields)).map
        fun read => (first :: read.1, read.2) := by
  rw [← readMembers_space]
  rfl

variable {first : Field} {fields : List Field} {members : List (List Char × Value)}

theorem mem_of_readMore {head : List Char × Value}
    (h : readMore fuel head cs = some (members, rest)) : head ∈ members := by
  unfold readMore at h
  split at h
  · obtain ⟨read, -, hread⟩ := Option.map_eq_some_iff.mp h
    obtain ⟨rfl, -⟩ := Prod.mk.inj hread
    exact List.mem_cons_self
  · obtain ⟨read, -, hread⟩ := Option.map_eq_some_iff.mp h
    obtain ⟨rfl, -⟩ := Prod.mk.inj hread
    exact List.mem_cons_self

theorem Field.readMembers_of_faithful (hsound : first.Sound) (h : first.Faithful)
    (hends : Ends cs) :
    readMembers (fuel + 2) (first.written ++ cs) = readMore (fuel + 1) first.meant cs := by
  cases first with
  | text key chars =>
      rw [written, readMembers_member hsound, reads_quoted h fuel cs hends]
      rfl
  | other key written value =>
      obtain ⟨value, rfl⟩ := Option.isSome_iff_exists.mp h
      rw [Field.written, readMembers_member hsound.1, hsound.2 fuel cs hends]
      rfl

/-- A field that is not read as what is meant shows in the members. -/
theorem Field.faithful_of_readMembers (hsound : first.Sound) (hends : Ends cs) (hsealed : Sealed cs)
    (hread : readMembers (fuel + 1) (first.written ++ cs) = some (members, rest))
    (htold : first.Told members) :
    first.Faithful ∧ readMore fuel first.meant cs = some (members, rest) := by
  cases first with
  | text key chars =>
      rw [written, readMembers_member hsound] at hread
      obtain ⟨⟨value, behind⟩, hvalue, hmore⟩ := Option.bind_eq_some_iff.mp hread
      cases fuel with
      | zero => cases hvalue
      | succ fuel =>
          rw [readValue_quoted] at hvalue
          obtain ⟨⟨more, behind⟩, htext, hpair⟩ := Option.map_eq_some_iff.mp hvalue
          obtain ⟨rfl, rfl⟩ := Prod.mk.inj hpair
          obtain rfl : more = chars := by
            have heq := htold _ (mem_of_readMore hmore)
            injection heq
          obtain ⟨hverbatim, rfl⟩ := verbatim_of_readText hsealed htext
          exact ⟨hverbatim, hmore⟩
  | other key written value =>
      rw [Field.written, readMembers_member hsound.1] at hread
      obtain ⟨⟨read, behind⟩, hvalue, hmore⟩ := Option.bind_eq_some_iff.mp hread
      cases fuel with
      | zero => cases hvalue
      | succ fuel =>
          rw [hsound.2 fuel cs hends] at hvalue
          obtain ⟨value, rfl, hpair⟩ := Option.map_eq_some_iff.mp hvalue
          obtain ⟨rfl, rfl⟩ := Prod.mk.inj hpair
          exact ⟨rfl, hmore⟩

theorem readMembers_of_faithful (hsound : ∀ field ∈ first :: fields, field.Sound)
    (h : ∀ field ∈ first :: fields, field.Faithful) (hfuel : fields.length + 1 < fuel) :
    readMembers fuel (first.written ++ closing fields) =
      some ((first :: fields).map Field.meant, []) := by
  induction fields generalizing first fuel with
  | nil =>
      obtain ⟨fuel, rfl⟩ : ∃ k, fuel = k + 2 := ⟨fuel - 2, by simp at hfuel; omega⟩
      rw [Field.readMembers_of_faithful (List.forall_mem_singleton.mp hsound)
        (List.forall_mem_singleton.mp h) (ends_closing []), readMore_nil]
      rfl
  | cons next fields ih =>
      obtain ⟨hfirst, hnext⟩ := List.forall_mem_cons.mp hsound
      obtain ⟨hfaithful, hothers⟩ := List.forall_mem_cons.mp h
      rw [List.length_cons] at hfuel
      obtain ⟨fuel, rfl⟩ : ∃ k, fuel = k + 2 := ⟨fuel - 2, by omega⟩
      rw [Field.readMembers_of_faithful hfirst hfaithful (ends_closing _), readMore_cons,
        ih hnext hothers (by omega)]
      rfl

theorem faithful_of_readMembers (hsound : ∀ field ∈ first :: fields, field.Sound)
    (hread : readMembers fuel (first.written ++ closing fields) = some (members, rest))
    (htold : ∀ field ∈ first :: fields, field.Told members) :
    ∀ field ∈ first :: fields, field.Faithful := by
  induction fields generalizing first fuel members with
  | nil =>
      cases fuel with
      | zero => cases hread
      | succ fuel =>
          have hfirst := Field.faithful_of_readMembers (hsound first (by simp)) (ends_closing [])
            (sealed_closing []) hread (htold first (by simp))
          exact List.forall_mem_singleton.mpr hfirst.1
  | cons next fields ih =>
      cases fuel with
      | zero => cases hread
      | succ fuel =>
          obtain ⟨hfirst, hmore⟩ := Field.faithful_of_readMembers (hsound first (by simp))
            (ends_closing _) (sealed_closing _) hread (htold first (by simp))
          rw [readMore_cons] at hmore
          obtain ⟨⟨members', rest'⟩, hread', hpair⟩ := Option.map_eq_some_iff.mp hmore
          obtain ⟨rfl, rfl⟩ := Prod.mk.inj hpair
          refine List.forall_mem_cons.mpr ⟨hfirst, ih (List.forall_mem_cons.mp hsound).2 hread' ?_⟩
          intro field hfield
          have htold' := htold field (List.mem_cons_of_mem _ hfield)
          cases field with
          | text key chars => exact fun value hvalue => htold' value (List.mem_cons_of_mem _ hvalue)
          | other key written value => exact trivial

/-! ## Objects -/

theorem read_objectText (first : Field) (fields : List Field) :
    read (objectText first fields) =
      (readMembers (objectText first fields).length (first.written ++ closing fields)).bind
        fun read => if skipBlanks read.2 = [] then some (.object read.1) else none := by
  obtain ⟨more, hmore⟩ := first.exists_written
  have hskip : skipBlanks (objectText first fields) = objectText first fields := rfl
  have hmembers : expect '\x7d' (first.written ++ closing fields) = none := by
    rw [hmore]
    exact expect_of_ne rfl (by decide) _
  rw [read, readValue, hskip]
  dsimp only [objectText]
  rw [if_neg (by decide), if_pos rfl, hmembers]
  dsimp only
  cases readMembers ('\x7b' :: (first.written ++ closing fields)).length
      (first.written ++ closing fields) with
  | none => rfl
  | some read => rfl

/-- An object whose strings stand for themselves is read as it was meant. -/
theorem read_of_faithful (hsound : ∀ field ∈ first :: fields, field.Sound)
    (h : ∀ field ∈ first :: fields, field.Faithful) :
    read (objectText first fields) = some (.object ((first :: fields).map Field.meant)) := by
  have hfuel : fields.length + 1 < (objectText first fields).length := by
    rw [objectText, List.length_cons, List.length_append]
    have hclosing := length_closing fields
    omega
  rw [read_objectText, readMembers_of_faithful hsound h hfuel]
  rfl

/-- **Nothing else is read as it was meant.** -/
theorem faithful_of_read (hsound : ∀ field ∈ first :: fields, field.Sound)
    (hread : read (objectText first fields) = some (.object members))
    (htold : ∀ field ∈ first :: fields, field.Told members) :
    ∀ field ∈ first :: fields, field.Faithful := by
  rw [read_objectText] at hread
  obtain ⟨⟨members', rest⟩, hmembers, hvalue⟩ := Option.bind_eq_some_iff.mp hread
  dsimp only at hvalue
  split_ifs at hvalue
  have hobject := Option.some_inj.mp hvalue
  injection hobject with heq
  subst heq
  exact faithful_of_readMembers hsound hmembers htold

end GinCpp.Json
