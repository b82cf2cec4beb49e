import GinCpp.Scanner.Basic
import Mathlib.Computability.Language

/-!
# The language of a scanner

Each state of a scanner is given the language of the words that are still missing before it
accepts.  If these languages follow the scanner symbol by symbol (`Residual`), the scanner
accepts as soon as a prefix is in the language of its start state, and, when no state is dead,
it rejects as soon as no continuation can bring a prefix into it.
-/

namespace GinCpp.Scanner

open Computability

/-! ## Building languages symbol by symbol -/

section Symbols

variable {α : Type*} {p : α → Prop} {a : α} {w : List α} {K L : Language α}

/-- The one-symbol words whose symbol satisfies `p`. -/
def symbol (p : α → Prop) : Language α := {w | ∃ a, p a ∧ w = [a]}

/-- The language of a single word. -/
def word (w : List α) : Language α := {w}

theorem singleton_mem_symbol (h : p a) : [a] ∈ symbol p := ⟨a, h, rfl⟩

@[simp] theorem word_nil : word ([] : List α) = 1 := rfl

theorem word_cons : word (a :: w) = symbol (· = a) * word w := by
  ext u
  constructor
  · rintro rfl
    exact Language.mem_mul.mpr ⟨[a], ⟨a, rfl, rfl⟩, w, rfl, rfl⟩
  · intro h
    obtain ⟨x, ⟨b, rfl, rfl⟩, y, rfl, rfl⟩ := Language.mem_mul.mp h
    rfl

@[simp] theorem nil_mem_symbol_mul : [] ∈ symbol p * K ↔ False := by
  rw [Language.mem_mul, iff_false]
  rintro ⟨x, ⟨a, _, rfl⟩, y, _, h⟩
  simp at h

@[simp] theorem cons_mem_symbol_mul : a :: w ∈ symbol p * K ↔ p a ∧ w ∈ K := by
  rw [Language.mem_mul]
  constructor
  · rintro ⟨x, ⟨b, hb, rfl⟩, y, hy, hxy⟩
    obtain ⟨rfl, rfl⟩ := List.cons.inj hxy
    exact ⟨hb, hy⟩
  · rintro ⟨ha, hw⟩
    exact ⟨[a], ⟨a, ha, rfl⟩, w, hw, rfl⟩

@[simp] theorem cons_mem_symbol : a :: w ∈ symbol p ↔ p a ∧ w = [] := by
  constructor
  · rintro ⟨b, hb, hab⟩
    obtain ⟨rfl, rfl⟩ := List.cons.inj hab
    exact ⟨hb, rfl⟩
  · rintro ⟨ha, rfl⟩
    exact singleton_mem_symbol ha

theorem kstar_mul_eq (L K : Language α) : L∗ * K = K + L * (L∗ * K) := by
  rw [← mul_assoc]
  nth_rewrite 1 [← Language.one_add_self_mul_kstar_eq_kstar L]
  rw [add_mul, one_mul]

@[simp] theorem nil_mem_kstar_symbol_mul : [] ∈ (symbol p)∗ * K ↔ [] ∈ K := by
  rw [kstar_mul_eq, Language.mem_add, nil_mem_symbol_mul, or_false]

@[simp] theorem cons_mem_kstar_symbol_mul :
    a :: w ∈ (symbol p)∗ * K ↔ a :: w ∈ K ∨ (p a ∧ w ∈ (symbol p)∗ * K) := by
  rw [kstar_mul_eq, Language.mem_add, cons_mem_symbol_mul, ← kstar_mul_eq]

end Symbols

/-! ## Residual languages -/

variable {σ α ν : Type*} {step : σ → α → Except ν σ} {good : ν} {rest : σ → Language α}

/-- `rest s` is the language still to be read from `s`: one symbol of the language is one
step of the scanner, only the verdict `good` completes a word, and every state can still be
completed. -/
structure Residual (step : σ → α → Except ν σ) (good : ν) (rest : σ → Language α) : Prop where
  nil_notMem : ∀ s, [] ∉ rest s
  mem_ok : ∀ {s a s'} w, step s a = .ok s' → (a :: w ∈ rest s ↔ w ∈ rest s')
  mem_error : ∀ {s a v} w, step s a = .error v → (a :: w ∈ rest s ↔ v = good ∧ w = [])
  live : ∀ s, ∃ w, (scan step s w).2 = some good

namespace Residual

variable (R : Residual step good rest) {s : σ} {v : ν} {w : List α}

include R

theorem exists_prefix_iff :
    (∃ p, p <+: w ∧ p ∈ rest s) ↔ (scan step s w).2 = some good := by
  induction w generalizing s with
  | nil =>
      simp only [List.prefix_nil, exists_eq_left, scan_nil, reduceCtorEq, iff_false]
      exact R.nil_notMem s
  | cons a w ih =>
      have hcons : (∃ p, p <+: a :: w ∧ p ∈ rest s) ↔ ∃ p, p <+: w ∧ a :: p ∈ rest s := by
        constructor
        · rintro ⟨p, hp, hmem⟩
          cases p with
          | nil => exact absurd hmem (R.nil_notMem s)
          | cons b p =>
              obtain ⟨rfl, hpw⟩ := List.cons_prefix_cons.mp hp
              exact ⟨p, hpw, hmem⟩
        · rintro ⟨p, hp, hmem⟩
          exact ⟨a :: p, List.cons_prefix_cons.mpr ⟨rfl, hp⟩, hmem⟩
      rw [hcons]
      cases hstep : step s a with
      | ok s' =>
          rw [scan_cons_ok hstep, ← ih]
          simp only [R.mem_ok _ hstep]
      | error u =>
          rw [scan_cons_error hstep]
          simp only [R.mem_error _ hstep, Option.some_inj]
          constructor
          · rintro ⟨_, _, hgood, _⟩
            exact hgood
          · intro hgood
            exact ⟨[], List.nil_prefix, hgood, rfl⟩

/-- What is still missing after an undecided word. -/
theorem append_mem_iff {s' : σ} {w' : List α} (h : scan step s w = (s', none)) :
    w ++ w' ∈ rest s ↔ w' ∈ rest s' := by
  induction w generalizing s with
  | nil =>
      rw [scan_nil, Prod.mk.injEq] at h
      rw [List.nil_append, h.1]
  | cons a w ih =>
      cases hstep : step s a with
      | ok t =>
          rw [scan_cons_ok hstep] at h
          rw [List.cons_append, R.mem_ok _ hstep, ih h]
      | error v => simp [scan_cons_error hstep] at h

/-- No word of the language continues another. -/
theorem eq_of_prefix {p q : List α} (hp : p ∈ rest s) (hq : q ∈ rest s) (h : p <+: q) : p = q := by
  induction p generalizing s q with
  | nil => exact absurd hp (R.nil_notMem s)
  | cons a p ih =>
      cases q with
      | nil => simp at h
      | cons b q =>
          obtain ⟨rfl, hpq⟩ := List.cons_prefix_cons.mp h
          cases hstep : step s a with
          | ok s' =>
              rw [ih ((R.mem_ok p hstep).mp hp) ((R.mem_ok q hstep).mp hq) hpq]
          | error v =>
              rw [((R.mem_error p hstep).mp hp).2, ((R.mem_error q hstep).mp hq).2]

/-- An undecided word can be completed. -/
theorem exists_extension_of_undecided {s' : σ} (h : scan step s w = (s', none)) :
    ∃ e p, p <+: w ++ e ∧ p ∈ rest s := by
  obtain ⟨e, he⟩ := R.live s'
  have hgood : (scan step s (w ++ e)).2 = some good := by
    rw [scan_append h, he]
  exact ⟨e, R.exists_prefix_iff.mpr hgood⟩

/-- The scanner rejects exactly when no continuation has a prefix in the language. -/
theorem not_exists_extension_iff :
    (¬ ∃ e p, p <+: w ++ e ∧ p ∈ rest s) ↔ ∃ v, v ≠ good ∧ (scan step s w).2 = some v := by
  rcases hscan : scan step s w with ⟨s', _ | v⟩
  · simp [R.exists_extension_of_undecided hscan]
  · have hext : ∀ e, (∃ p, p <+: w ++ e ∧ p ∈ rest s) ↔ v = good := by
      intro e
      rw [R.exists_prefix_iff, scan_append_of_verdict hscan]
      simp
    simp [hext]

end Residual

end GinCpp.Scanner
