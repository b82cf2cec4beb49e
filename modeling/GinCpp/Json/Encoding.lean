import GinCpp.Json.Basic

/-!
# Encoded texts

JSON texts as bytes: `Denotes` is the value of a byte string that is the UTF-8 encoding of a JSON
text.
-/

namespace GinCpp.Json

/-- The UTF-8 encoding of a text. -/
def utf8 (chars : List Char) : List UInt8 := chars.flatMap String.utf8EncodeChar

@[simp] theorem utf8_append (chars more : List Char) :
    utf8 (chars ++ more) = utf8 chars ++ utf8 more := List.flatMap_append

theorem utf8_injective : Function.Injective utf8 := by
  intro chars more h
  have hencode : chars.utf8Encode = more.utf8Encode := congrArg List.toByteArray h
  have hstring : String.ofList chars = String.ofList more := by
    rw [← String.toByteArray_inj, String.toByteArray_ofList, String.toByteArray_ofList, hencode]
  exact String.ofList_injective hstring

/-- A character of ASCII is one byte. -/
theorem utf8_of_ascii {chars : List Char} (h : ∀ c ∈ chars, c.toNat < 128) :
    utf8 chars = chars.map Char.toUInt8 := by
  induction chars with
  | nil => rfl
  | cons c chars ih =>
      obtain ⟨hc, hchars⟩ := List.forall_mem_cons.mp h
      have hbyte : String.utf8EncodeChar c = [c.toUInt8] := if_pos (Nat.le_of_lt_succ hc)
      rw [utf8, List.flatMap_cons, hbyte, List.map_cons, ← ih hchars]
      rfl

/-- The byte string is a JSON text with this value. -/
def Denotes (text : List UInt8) (value : Value) : Prop :=
  ∃ chars, text = utf8 chars ∧ read chars = some value

theorem denotes_utf8 {chars : List Char} {value : Value} :
    Denotes (utf8 chars) value ↔ read chars = some value := by
  constructor
  · rintro ⟨more, hmore, hread⟩
    rwa [utf8_injective hmore]
  · intro hread
    exact ⟨chars, rfl, hread⟩

end GinCpp.Json
