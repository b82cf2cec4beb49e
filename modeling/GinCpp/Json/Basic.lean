import Mathlib.Data.List.Basic
import Mathlib.Data.List.TakeWhile

/-!
# JSON texts

A reader for JSON: `read` gives the value of a text, if it has one.  Strings are lists of characters
with their escapes resolved; a number is kept as it was written, an integer and a power of ten.
The objects keep all their members, in order.
-/

namespace GinCpp.Json

/-- A JSON value. -/
inductive Value
  | null
  | bool (b : Bool)
  /-- `mantissa * 10 ^ exponent`; a number without fraction and exponent has exponent 0. -/
  | number (mantissa exponent : ℤ)
  | text (chars : List Char)
  | array (elements : List Value)
  | object (members : List (List Char × Value))

/-! ## Blanks and strings -/

def isBlank (c : Char) : Bool := c == ' ' || c == '\t' || c == '\n' || c == '\x0d'

def skipBlanks (cs : List Char) : List Char := cs.dropWhile isBlank

/-- Blanks and one fixed character. -/
def expect (c : Char) (cs : List Char) : Option (List Char) :=
  match skipBlanks cs with
  | d :: cs => if d = c then some cs else none
  | [] => none

def hexValue (c : Char) : Option ℕ :=
  if 48 ≤ c.toNat ∧ c.toNat ≤ 57 then some (c.toNat - 48)
  else if 65 ≤ c.toNat ∧ c.toNat ≤ 70 then some (c.toNat - 55)
  else if 97 ≤ c.toNat ∧ c.toNat ≤ 102 then some (c.toNat - 87)
  else none

/-- Four hexadecimal digits. -/
def readHex : List Char → Option (ℕ × List Char)
  | a :: b :: c :: d :: cs => do
      let a ← hexValue a
      let b ← hexValue b
      let c ← hexValue c
      let d ← hexValue d
      some (((a * 16 + b) * 16 + c) * 16 + d, cs)
  | _ => none

/-- What is behind `\u`: a code unit, or a pair of surrogates. -/
def readUnicode (cs : List Char) : Option (Char × List Char) := do
  let (unit, cs) ← readHex cs
  if unit < 0xD800 ∨ 0xE000 ≤ unit then some (Char.ofNat unit, cs)
  else if unit < 0xDC00 then
    match cs with
    | '\\' :: 'u' :: cs => do
        let (low, cs) ← readHex cs
        if 0xDC00 ≤ low ∧ low < 0xE000 then
          some (Char.ofNat (0x10000 + (unit - 0xD800) * 0x400 + (low - 0xDC00)), cs)
        else none
    | _ => none
  else none

/-- The characters with an escape of their own. -/
def escaped : Char → Option Char
  | '"' => some '"'
  | '\\' => some '\\'
  | '/' => some '/'
  | 'b' => some '\x08'
  | 'f' => some '\x0c'
  | 'n' => some '\n'
  | 'r' => some '\x0d'
  | 't' => some '\t'
  | _ => none

/-- What is behind a backslash. -/
def readEscape : List Char → Option (Char × List Char)
  | [] => none
  | c :: cs => if c = 'u' then readUnicode cs else (escaped c).map fun d => (d, cs)

/-- One character of a string, or one escape. -/
def readUnit : List Char → Option (Char × List Char)
  | [] => none
  | c :: cs =>
      if c = '\\' then readEscape cs
      else if c = '"' ∨ c.toNat < 32 then none
      else some (c, cs)

/-- The rest of a string, up to its closing quotation mark. -/
def readText : ℕ → List Char → Option (List Char × List Char)
  | 0, _ => none
  | fuel + 1, cs =>
      if cs.head? = some '"' then some ([], cs.tail)
      else do
        let (c, cs) ← readUnit cs
        let (chars, cs) ← readText fuel cs
        some (c :: chars, cs)

/-! ## Numbers -/

/-- The longest run of digits. -/
def readDigits (cs : List Char) : List Char × List Char :=
  (cs.takeWhile Char.isDigit, cs.dropWhile Char.isDigit)

/-- The digits behind a character, if it is there: at least one. -/
def readFraction (cs : List Char) : Option (List Char × List Char) :=
  if cs.head? = some '.' then
    let (digits, cs) := readDigits cs.tail
    if digits = [] then none else some (digits, cs)
  else some ([], cs)

/-- The value of an exponent, if there is one. -/
def readExponent (cs : List Char) : Option (ℤ × List Char) :=
  if cs.head? = some 'e' ∨ cs.head? = some 'E' then
    let signed := cs.tail
    let negative : Bool := signed.head? == some '-'
    let (digits, cs) :=
      readDigits (if negative || signed.head? == some '+' then signed.tail else signed)
    if digits = [] then none
    else
      let value : ℤ := Nat.ofDigitChars 10 digits 0
      some (if negative then -value else value, cs)
  else some (0, cs)

/-- A number; its integer part has no leading zero. -/
def readNumber (cs : List Char) : Option (Value × List Char) := do
  let negative : Bool := cs.head? == some '-'
  let (digits, cs) := readDigits (if negative then cs.tail else cs)
  if digits = [] ∨ (digits.head? = some '0' ∧ digits ≠ ['0']) then none
  else do
    let (fraction, cs) ← readFraction cs
    let (exponent, cs) ← readExponent cs
    let mantissa : ℤ := Nat.ofDigitChars 10 (digits ++ fraction) 0
    some (.number (if negative then -mantissa else mantissa) (exponent - fraction.length), cs)

/-! ## Values -/

/-- A literal name. -/
def readName (name : List Char) (value : Value) (cs : List Char) : Option (Value × List Char) :=
  if name <+: cs then some (value, cs.drop name.length) else none

mutual

/-- A value and what follows it.  `fuel` bounds the nesting and the number of elements. -/
def readValue : ℕ → List Char → Option (Value × List Char)
  | 0, _ => none
  | fuel + 1, cs =>
      match skipBlanks cs with
      | [] => none
      | c :: cs =>
          if c = '"' then (readText (cs.length + 1) cs).map fun (chars, cs) => (.text chars, cs)
          else if c = '\x7b' then
            match expect '\x7d' cs with
            | some cs => some (.object [], cs)
            | none => (readMembers fuel cs).map fun (members, cs) => (.object members, cs)
          else if c = '[' then
            match expect ']' cs with
            | some cs => some (.array [], cs)
            | none => (readElements fuel cs).map fun (elements, cs) => (.array elements, cs)
          else if c = 't' then readName "true".toList (.bool true) (c :: cs)
          else if c = 'f' then readName "false".toList (.bool false) (c :: cs)
          else if c = 'n' then readName "null".toList .null (c :: cs)
          else readNumber (c :: cs)

/-- The members of an object, with the closing brace. -/
def readMembers : ℕ → List Char → Option (List (List Char × Value) × List Char)
  | 0, _ => none
  | fuel + 1, cs => do
      let cs ← expect '"' cs
      let (key, cs) ← readText (cs.length + 1) cs
      let cs ← expect ':' cs
      let (value, cs) ← readValue fuel cs
      match expect ',' cs with
      | some cs => do
          let (members, cs) ← readMembers fuel cs
          some ((key, value) :: members, cs)
      | none => do
          let cs ← expect '\x7d' cs
          some ([(key, value)], cs)

/-- The elements of an array, with the closing bracket. -/
def readElements : ℕ → List Char → Option (List Value × List Char)
  | 0, _ => none
  | fuel + 1, cs => do
      let (value, cs) ← readValue fuel cs
      match expect ',' cs with
      | some cs => do
          let (elements, cs) ← readElements fuel cs
          some (value :: elements, cs)
      | none => do
          let cs ← expect ']' cs
          some ([value], cs)

end

/-- The value of a text. -/
def read (cs : List Char) : Option Value :=
  match readValue (cs.length + 1) cs with
  | some (value, rest) => if skipBlanks rest = [] then some value else none
  | none => none

example : (read "\x7b\"error\": \"\\u00e9\\n\", \"status\" : -2.50e3\x7d".toList).isSome := by
  decide +kernel

example : (read "\x7b\"error\": \"a\"b\"\x7d".toList).isNone := by decide +kernel

end GinCpp.Json
