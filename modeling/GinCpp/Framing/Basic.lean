import Mathlib.Data.List.Basic

/-!
# Reading a stream of items

A reader takes one item off the front of a text.  `readAll` uses it until nothing is left.  If what
is written for an item can be read back whatever follows it, and is not empty, then a stream of
items is read back as it was written (`readAll_flatMap`).
-/

namespace GinCpp.Framing

variable {α β : Type*}

/-- The loop of `readAll`, of at most `fuel` turns. -/
def readLoop (read : List α → Option (β × List α)) : ℕ → List α → Option (List β)
  | _, [] => some []
  | 0, _ :: _ => none
  | fuel + 1, a :: text =>
      (read (a :: text)).bind fun (b, rest) => (readLoop read fuel rest).map (b :: ·)

/-- The items of a text.  Each is at least one symbol long. -/
def readAll (read : List α → Option (β × List α)) (text : List α) : Option (List β) :=
  readLoop read text.length text

variable {read : List α → Option (β × List α)} {encode : β → List α} {bs : List β}

theorem readLoop_append {b : β} {text rest : List α} (hne : text ≠ [])
    (hread : read (text ++ rest) = some (b, rest)) (fuel : ℕ) :
    readLoop read (fuel + 1) (text ++ rest) = (readLoop read fuel rest).map (b :: ·) := by
  obtain ⟨a, text, rfl⟩ := List.exists_cons_of_ne_nil hne
  rw [List.cons_append] at hread ⊢
  rw [readLoop, hread]
  rfl

/-- Fuel for every item is enough. -/
theorem readLoop_flatMap
    (hread : ∀ b ∈ bs, ∀ rest, read (encode b ++ rest) = some (b, rest))
    (hne : ∀ b ∈ bs, encode b ≠ []) {fuel : ℕ} (hfuel : bs.length ≤ fuel) :
    readLoop read fuel (bs.flatMap encode) = some bs := by
  induction bs generalizing fuel with
  | nil => cases fuel <;> rfl
  | cons b bs ih =>
      obtain ⟨hfirst, hrest⟩ := List.forall_mem_cons.mp hread
      obtain ⟨hb, hbs⟩ := List.forall_mem_cons.mp hne
      obtain ⟨fuel, rfl⟩ : ∃ n, fuel = n + 1 :=
        Nat.exists_eq_succ_of_ne_zero (by rw [List.length_cons] at hfuel; omega)
      rw [List.flatMap_cons, readLoop_append hb (hfirst _),
        ih hrest hbs (Nat.le_of_succ_le_succ hfuel)]
      rfl

theorem length_le_length_flatMap (hne : ∀ b ∈ bs, encode b ≠ []) :
    bs.length ≤ (bs.flatMap encode).length := by
  induction bs with
  | nil => exact Nat.le_refl 0
  | cons b bs ih =>
      obtain ⟨hb, hbs⟩ := List.forall_mem_cons.mp hne
      have hpos := List.length_pos_of_ne_nil hb
      have hrest := ih hbs
      rw [List.flatMap_cons, List.length_append, List.length_cons]
      omega

/-- **A stream is read back as it was written.** -/
theorem readAll_flatMap
    (hread : ∀ b ∈ bs, ∀ rest, read (encode b ++ rest) = some (b, rest))
    (hne : ∀ b ∈ bs, encode b ≠ []) : readAll read (bs.flatMap encode) = some bs :=
  readLoop_flatMap hread hne (length_le_length_flatMap hne)

end GinCpp.Framing
