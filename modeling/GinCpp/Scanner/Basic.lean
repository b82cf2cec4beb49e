import Mathlib.Data.List.Basic

/-!
# Scanners

A scanner reads one symbol at a time and either moves on or stops with a verdict.  On a verdict
the state stays what it was and the symbols that follow are not looked at.

`scanChunks_eq` is the reason such a machine can be fed from a socket: reading a list of chunks
one after another, stopping at the first verdict, is reading their concatenation at once.
-/

namespace GinCpp.Scanner

variable {σ α ν : Type*} (step : σ → α → Except ν σ)

/-- Read symbols up to the first verdict. -/
def scan : σ → List α → σ × Option ν
  | s, [] => (s, none)
  | s, a :: w =>
      match step s a with
      | .ok s' => scan s' w
      | .error v => (s, some v)

/-- Read chunks one after another, up to the first verdict. -/
def scanChunks : σ → List (List α) → σ × Option ν
  | s, [] => (s, none)
  | s, chunk :: chunks =>
      match scan step s chunk with
      | (s', none) => scanChunks s' chunks
      | (s', some v) => (s', some v)

variable {step} {s s' : σ} {a : α} {v : ν} {w w' : List α}

@[simp] theorem scan_nil : scan step s [] = (s, none) := rfl

theorem scan_cons_ok (h : step s a = .ok s') : scan step s (a :: w) = scan step s' w := by
  simp [scan, h]

theorem scan_cons_error (h : step s a = .error v) : scan step s (a :: w) = (s, some v) := by
  simp [scan, h]

/-- An undecided prefix is read first. -/
theorem scan_append (h : scan step s w = (s', none)) :
    scan step s (w ++ w') = scan step s' w' := by
  induction w generalizing s with
  | nil =>
      rw [scan_nil, Prod.mk.injEq] at h
      rw [List.nil_append, h.1]
  | cons a w ih =>
      cases hstep : step s a with
      | ok t =>
          rw [scan_cons_ok hstep] at h
          rw [List.cons_append, scan_cons_ok hstep, ih h]
      | error v => simp [scan_cons_error hstep] at h

/-- Symbols that keep the scanner in one place only change what it collects. -/
theorem scan_absorb {β : Type*} (embed : β → σ) (push : β → α → β)
    (h : ∀ b, ∀ a ∈ w, step (embed b) a = .ok (embed (push b a))) (b : β) :
    scan step (embed b) (w ++ w') = scan step (embed (w.foldl push b)) w' := by
  induction w generalizing b with
  | nil => rfl
  | cons a w ih =>
      have hfirst : step (embed b) a = .ok (embed (push b a)) := h b a List.mem_cons_self
      rw [List.cons_append, scan_cons_ok hfirst, List.foldl_cons]
      exact ih (fun b a ha => h b a (List.mem_cons_of_mem _ ha)) (push b a)

/-- Symbols that are collected as they come. -/
theorem scan_collect (embed : List α → σ)
    (h : ∀ text, ∀ a ∈ w, step (embed text) a = .ok (embed (text ++ [a]))) (text : List α) :
    scan step (embed text) (w ++ w') = scan step (embed (text ++ w)) w' := by
  have hfold : w.foldl (fun text a => text ++ [a]) text = text ++ w := by
    rw [List.foldl_append_eq_append, ← List.flatMap_def, List.flatMap_singleton']
  rw [scan_absorb embed _ h, hfold]

/-- A map between the states of two scanners that commutes with a step commutes with the scan. -/
theorem scan_map {τ : Type*} {step' : τ → α → Except ν τ} (f : σ → τ)
    (h : ∀ s a, step' (f s) a = (step s a).map f) (s : σ) (w : List α) :
    scan step' (f s) w = (f (scan step s w).1, (scan step s w).2) := by
  induction w generalizing s with
  | nil => rfl
  | cons a w ih =>
      have hfirst := h s a
      cases hstep : step s a with
      | ok t =>
          rw [hstep] at hfirst
          rw [scan_cons_ok hstep, scan_cons_ok hfirst, ih]
      | error v =>
          rw [hstep] at hfirst
          rw [scan_cons_error hstep, scan_cons_error hfirst]

/-- A verdict is final: what follows is not read. -/
theorem scan_append_of_verdict (h : scan step s w = (s', some v)) :
    scan step s (w ++ w') = (s', some v) := by
  induction w generalizing s with
  | nil => simp at h
  | cons a w ih =>
      cases hstep : step s a with
      | ok t =>
          rw [scan_cons_ok hstep] at h
          rw [List.cons_append, scan_cons_ok hstep, ih h]
      | error u =>
          rw [scan_cons_error hstep] at h
          rw [List.cons_append, scan_cons_error hstep, h]

/-- A decided word is no prefix of an undecided one. -/
theorem not_prefix_of_undecided {t : σ} (hw : scan step s w = (s', none))
    (hw' : scan step s w' = (t, some v)) : ¬ w' <+: w := by
  rintro ⟨e, rfl⟩
  simp [scan_append_of_verdict hw'] at hw

/-- A verdict falls on one symbol. -/
theorem eq_of_decided {p p' t t' : List α} {a a' : α} {u u' : σ} {v' : ν}
    (hp : scan step s p = (u, none)) (ha : step u a = .error v)
    (hp' : scan step s p' = (u', none)) (ha' : step u' a' = .error v')
    (h : p ++ a :: t = p' ++ a' :: t') : p = p' ∧ a = a' ∧ t = t' := by
  have hnot : ¬ p ++ [a] <+: p' :=
    not_prefix_of_undecided hp' (by rw [scan_append hp, scan_cons_error ha])
  have hnot' : ¬ p' ++ [a'] <+: p :=
    not_prefix_of_undecided hp (by rw [scan_append hp', scan_cons_error ha'])
  rcases List.append_eq_append_iff.mp h with ⟨e, rfl, he⟩ | ⟨e, rfl, he⟩
  · cases e with
    | nil => simpa using he
    | cons b e =>
        obtain ⟨rfl, -⟩ := List.cons.inj he
        exact absurd ⟨e, by simp⟩ hnot
  · cases e with
    | nil => simpa [eq_comm] using he
    | cons b e =>
        obtain ⟨rfl, -⟩ := List.cons.inj he
        exact absurd ⟨e, by simp⟩ hnot'

/-- The symbol a verdict falls on. -/
theorem exists_of_scan_verdict (h : scan step s w = (s', some v)) :
    ∃ p a t, w = p ++ a :: t ∧ scan step s p = (s', none) ∧ step s' a = .error v := by
  induction w generalizing s with
  | nil => simp at h
  | cons a w ih =>
      cases hstep : step s a with
      | ok t =>
          rw [scan_cons_ok hstep] at h
          obtain ⟨p, b, u, rfl, hp, hb⟩ := ih h
          exact ⟨a :: p, b, u, rfl, by rw [scan_cons_ok hstep, hp], hb⟩
      | error u =>
          rw [scan_cons_error hstep, Prod.mk.injEq, Option.some_inj] at h
          obtain ⟨rfl, rfl⟩ := h
          exact ⟨[], a, w, rfl, rfl, hstep⟩

/-- Any property kept by `step` holds of the state a scan ends in. -/
theorem scan_induction {P : σ → Prop} (hstep : ∀ s a s', P s → step s a = .ok s' → P s')
    (hs : P s) : P (scan step s w).1 := by
  induction w generalizing s with
  | nil => exact hs
  | cons a w ih =>
      cases h : step s a with
      | ok t =>
          rw [scan_cons_ok h]
          exact ih (hstep s a t hs h)
      | error v =>
          rw [scan_cons_error h]
          exact hs

/-- **Chunk boundaries are invisible.** -/
theorem scanChunks_eq (chunks : List (List α)) :
    scanChunks step s chunks = scan step s chunks.flatten := by
  induction chunks generalizing s with
  | nil => rfl
  | cons chunk chunks ih =>
      rw [List.flatten_cons, scanChunks]
      rcases hscan : scan step s chunk with ⟨t, _ | v⟩
      · rw [scan_append hscan]
        exact ih
      · rw [scan_append_of_verdict hscan]

end GinCpp.Scanner
