import GinCpp.Http.Message
import GinCpp.Json.Encoding
import GinCpp.Json.Record

/-!
# ASCII texts

The literals and the numbers that the sources print, as UTF-8.
-/

namespace GinCpp.Utils

open Http Json

theorem ascii_eq_utf8 {text : String} (h : text.toList.all (·.toNat < 128)) :
    ascii text = utf8 text.toList :=
  (utf8_of_ascii fun c hc => by simpa using List.all_eq_true.mp h c hc).symm

theorem toString_eq_utf8 (n : ℕ) : Http.toString n = utf8 (Nat.toDigits 10 n) := by
  refine (utf8_of_ascii fun c hc => ?_).symm
  have hdigit := (toNat_of_isDigit (Nat.isDigit_of_mem_toDigits (by omega) (by omega) hc)).2.1
  omega

theorem sign_eq_utf8 (negative : Bool) :
    (if negative then ascii "-" else []) = utf8 (if negative then ['-'] else []) := by
  cases negative <;> rfl

theorem intToString_eq_utf8 (n : ℤ) :
    intToString n = utf8 (numeral (n < 0) (Nat.toDigits 10 n.natAbs) []) := by
  have hsign := sign_eq_utf8 (n < 0)
  simp only [decide_eq_true_eq] at hsign
  rw [intToString, hsign, toString_eq_utf8, ← utf8_append, numeral]
  simp [behindPoint]

end GinCpp.Utils
