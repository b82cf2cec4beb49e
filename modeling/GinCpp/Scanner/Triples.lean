import GinCpp.Scanner.Residual

/-!
# What the words of a language lead to

`Leads` is a triple of preconditions, words and postconditions, with a rule for each way of building
a language.  `undecided_induction` is the other direction: what is known about a word, once it has
been read without a verdict.
-/

namespace GinCpp.Scanner

open Computability

variable {σ α ν : Type*} {step : σ → α → Except ν σ} {P Q S : σ → Prop} {K L : Language α}
  {s s' : σ} {t : List α}

/-- From `P` a word of the language is read without a verdict, and leads to `Q`. -/
def Leads (step : σ → α → Except ν σ) (P : σ → Prop) (L : Language α) (Q : σ → Prop) : Prop :=
  ∀ s t, P s → t ∈ L → ∃ s', scan step s t = (s', none) ∧ Q s'

theorem Leads.mul (h : Leads step P K Q) (h' : Leads step Q L S) : Leads step P (K * L) S := by
  intro s t hs ht
  obtain ⟨k, hk, l, hl, rfl⟩ := Language.mem_mul.mp ht
  obtain ⟨s', hscan, hs'⟩ := h s k hs hk
  rw [scan_append hscan]
  exact h' s' l hs' hl

theorem Leads.symbol {p : α → Prop}
    (h : ∀ s a, P s → p a → ∃ s', step s a = .ok s' ∧ Q s') :
    Leads step P (symbol p) Q := by
  rintro s t hs ⟨a, ha, rfl⟩
  obtain ⟨s', hstep, hs'⟩ := h s a hs ha
  exact ⟨s', scan_cons_ok hstep, hs'⟩

theorem Leads.kstar (h : Leads step P L P) : Leads step P L∗ P := by
  intro s t hs ht
  obtain ⟨words, rfl, hwords⟩ := Language.mem_kstar.mp ht
  induction words generalizing s with
  | nil => exact ⟨s, rfl, hs⟩
  | cons w words ih =>
      obtain ⟨hw, hmore⟩ := List.forall_mem_cons.mp hwords
      obtain ⟨s', hscan, hs'⟩ := h s w hs hw
      rw [List.flatten_cons, scan_append hscan]
      exact ih s' hs' hmore (Language.join_mem_kstar hmore)

/-- Induction over a word that has been read. -/
theorem undecided_induction {motive : List α → σ → Prop} (nil : motive [] s)
    (concat : ∀ t s a s', motive t s → step s a = .ok s' → motive (t ++ [a]) s')
    (h : scan step s t = (s', none)) : motive t s' := by
  induction t using List.reverseRecOn generalizing s' with
  | nil =>
      obtain ⟨rfl, -⟩ := Prod.mk.inj h
      exact nil
  | append_singleton t a ih =>
      rcases hscan : scan step s t with ⟨u, _ | v⟩
      · rw [scan_append hscan] at h
        cases hstep : step u a with
        | ok u' =>
            rw [scan_cons_ok hstep] at h
            obtain ⟨rfl, -⟩ := Prod.mk.inj h
            exact concat t u a _ (ih hscan) hstep
        | error v =>
            rw [scan_cons_error hstep] at h
            cases h
      · rw [scan_append_of_verdict hscan] at h
        cases h

/-! ## Words that grow at their end -/

variable {p : α → Prop} {a : α}

theorem concat_mem_mul_symbol (h : t ∈ K) (ha : p a) : t ++ [a] ∈ K * symbol p :=
  Language.append_mem_mul h (singleton_mem_symbol ha)

theorem mem_mul_kstar (h : t ∈ K) : t ∈ K * L∗ := by
  have hnil := Language.append_mem_mul h (Language.nil_mem_kstar L)
  rwa [List.append_nil] at hnil

theorem concat_mem_mul_kstar (h : t ∈ K * (symbol p)∗) (ha : p a) :
    t ++ [a] ∈ K * (symbol p)∗ := by
  obtain ⟨k, hk, l, hl, rfl⟩ := Language.mem_mul.mp h
  obtain ⟨words, rfl, hwords⟩ := Language.mem_kstar.mp hl
  have hall : ∀ w ∈ words ++ [[a]], w ∈ symbol p :=
    List.forall_mem_append.mpr ⟨hwords, List.forall_mem_singleton.mpr (singleton_mem_symbol ha)⟩
  rw [List.append_assoc]
  exact Language.append_mem_mul hk (Language.mem_kstar.mpr ⟨words ++ [[a]], by simp, hall⟩)

theorem mem_kstar_symbol (h : ∀ a ∈ t, p a) : t ∈ (symbol p)∗ := by
  refine Language.mem_kstar.mpr ⟨t.map ([·]), ?_, ?_⟩
  · rw [← List.flatMap_def, List.flatMap_singleton']
  · exact List.forall_mem_map.mpr fun a ha => singleton_mem_symbol (h a ha)

theorem mem_mul_word_nil (h : t ∈ K) : t ∈ K * word [] := by
  rwa [word_nil, mul_one]

theorem concat_mem_mul_word {w : List α} (h : t ∈ K * word w) (a : α) :
    t ++ [a] ∈ K * word (w ++ [a]) := by
  obtain ⟨k, hk, _, rfl, rfl⟩ := Language.mem_mul.mp h
  rw [List.append_assoc]
  exact Language.append_mem_mul hk rfl

end GinCpp.Scanner
