import Mathlib.Data.List.Basic
import Mathlib.Data.List.Infix

/-!
# Byte strings

A `std::string` is a list of bytes.  The character classes are those of the C locale: a byte from
128 on is in none of them.
-/

namespace GinCpp

/-- `std::string`. -/
abbrev Str := List UInt8

/-- The bytes of an ASCII literal. -/
def ascii (text : String) : Str := text.toList.map Char.toUInt8

/-! ## The bytes the sources name -/

abbrev HTAB : UInt8 := 9
abbrev LF : UInt8 := 10
abbrev CR : UInt8 := 13
abbrev SP : UInt8 := 32
abbrev SLASH : UInt8 := 47
abbrev DOT : UInt8 := 46
abbrev COLON : UInt8 := 58

/-! ## Character classes -/

def isdigit (c : UInt8) : Bool := 48 ≤ c && c ≤ 57

def isupper (c : UInt8) : Bool := 65 ≤ c && c ≤ 90

def islower (c : UInt8) : Bool := 97 ≤ c && c ≤ 122

def isalpha (c : UInt8) : Bool := isupper c || islower c

def iscntrl (c : UInt8) : Bool := c < 32 || c == 127

def tolower (c : UInt8) : UInt8 := if isupper c then c + 32 else c

end GinCpp
