import GinCpp.Http.Message
import Mathlib.Algebra.Group.Int.Defs
import Mathlib.Algebra.Group.Nat.Defs

/-!
# Log records

`logging/formatter.h` and `logging/formatter.cpp`.  A `double` is printed in fixed notation with six
digits, rounded to the nearest, a tie to the even one; an infinity and a value that is not a number
are printed by name.
-/

namespace GinCpp.Logging

/-- What `std::localtime` breaks a time down to.  A clock that counts nanoseconds in 64 bits has
years of four digits. -/
structure BrokenDownTime where
  year : Fin 10000
  month : Fin 13
  day : Fin 32
  hour : Fin 24
  minute : Fin 60
  second : Fin 61

/-- A `double`: a whole number times a power of two, an infinity, or not a number. -/
inductive Double
  | finite (negative : Bool) (mantissa : ℕ) (exponent : ℤ)
  | infinite (negative : Bool)
  | nan (negative : Bool)

structure LogRecord where
  /-- Nanoseconds of the system clock. -/
  timestamp : ℤ
  remoteIp : Str
  method : Str
  path : Str
  statusCode : ℤ
  /-- Seconds. -/
  latency : Double

/-! ## Printing -/

/-- A number with zeros in front, up to a width. -/
def padded (width n : ℕ) : Str :=
  let digits := Http.toString n
  List.replicate (width - digits.length) '0'.toUInt8 ++ digits

/-- `time_t` counts seconds; the duration is cut towards zero. -/
def toTimeT (timestamp : ℤ) : ℤ := timestamp.tdiv 1000000000

/-- `to_string` on a time point, with `%Y-%m-%d %H:%M:%S`. -/
def timeToString (localtime : ℤ → BrokenDownTime) (timestamp : ℤ) : Str :=
  let t := localtime (toTimeT timestamp)
  Http.toString t.year ++ ascii "-" ++ padded 2 t.month ++ ascii "-" ++ padded 2 t.day ++
    ascii " " ++ padded 2 t.hour ++ ascii ":" ++ padded 2 t.minute ++ ascii ":" ++ padded 2 t.second

/-- The quotient, rounded to the nearest; a tie goes to the even one. -/
def nearest (a b : ℕ) : ℕ :=
  let quotient := a / b
  let rest := a % b
  if 2 * rest < b ∨ (2 * rest = b ∧ quotient % 2 = 0) then quotient else quotient + 1

/-- A million times `mantissa * 2 ^ exponent`, rounded. -/
def millionths (mantissa : ℕ) (exponent : ℤ) : ℕ :=
  if 0 ≤ exponent then mantissa * 2 ^ exponent.toNat * 1000000
  else nearest (mantissa * 1000000) (2 ^ (-exponent).toNat)

/-- `std::fixed << std::setprecision(6)`. -/
def Double.fixed : Double → Str
  | finite negative mantissa exponent =>
      let scaled := millionths mantissa exponent
      (if negative then ascii "-" else []) ++ Http.toString (scaled / 1000000) ++ ascii "." ++
        padded 6 (scaled % 1000000)
  | infinite negative => (if negative then ascii "-" else []) ++ ascii "inf"
  | nan negative => (if negative then ascii "-" else []) ++ ascii "nan"

example : (Double.finite false 5 (-22)).fixed = ascii "0.000001" := by decide +kernel

/-- `TextFormatter::format`. -/
def TextFormatter.format (localtime : ℤ → BrokenDownTime) (record : LogRecord) : Str :=
  ascii "[" ++ timeToString localtime record.timestamp ++ ascii "] " ++ record.remoteIp ++
    ascii " \"" ++ record.method ++ ascii " " ++ record.path ++ ascii "\" " ++
    Http.intToString record.statusCode ++ ascii " " ++ record.latency.fixed ++ ascii "s"

/-- `JsonFormatter::format`. -/
def JsonFormatter.format (localtime : ℤ → BrokenDownTime) (record : LogRecord) : Str :=
  ascii "\x7b" ++
    ascii "\"timestamp\": \"" ++ timeToString localtime record.timestamp ++ ascii "\", " ++
    ascii "\"remote_ip\": \"" ++ record.remoteIp ++ ascii "\", " ++
    ascii "\"method\": \"" ++ record.method ++ ascii "\", " ++
    ascii "\"path\": \"" ++ record.path ++ ascii "\", " ++
    ascii "\"status\": " ++ Http.intToString record.statusCode ++ ascii ", " ++
    ascii "\"latency_s\": " ++ record.latency.fixed ++ ascii "\x7d"

end GinCpp.Logging
