import GinCpp.Scanner.Residual

/-!
# Calls that go on after a verdict

A scanner is called again and again, whatever its verdicts were: after one the rest of the call is
dropped, and the next call goes on from the state before it.  `taken` says without the scanner
which symbols are left, and `runCalls_isSome_iff` which of them have to be free of a hazard.
-/

namespace GinCpp.Scanner

variable {σ α ν : Type*}

/-! ## Hazards -/

section Hazard

variable (step : σ → α → Except ν σ) (hazard : σ → α → Prop) [∀ s a, Decidable (hazard s a)]

/-- One call, `none` at a hazard. -/
def runCall : σ → List α → Option (σ × Option ν)
  | s, [] => some (s, none)
  | s, a :: w =>
      if hazard s a then none
      else match step s a with
        | .ok s' => runCall s' w
        | .error v => some (s, some v)

/-- Calls one after another, with the verdict of the last one. -/
def runCalls (s : σ × Option ν) (calls : List (List α)) : Option (σ × Option ν) :=
  calls.foldlM (fun s call => runCall step hazard s.1 call) s

variable {step hazard} {s s' : σ} {w : List α}

/-- Without a hazard a call is a scan. -/
theorem runCall_eq {outcome : σ × Option ν} (h : runCall step hazard s w = some outcome) :
    scan step s w = outcome := by
  induction w generalizing s with
  | nil => exact Option.some_inj.mp h
  | cons a w ih =>
      rw [runCall] at h
      split_ifs at h
      cases hstep : step s a with
      | ok s' =>
          rw [hstep] at h
          rw [scan_cons_ok hstep]
          exact ih h
      | error v =>
          rw [hstep] at h
          rw [scan_cons_error hstep]
          exact Option.some_inj.mp h

theorem runCalls_concat (s : σ × Option ν) (calls : List (List α)) (call : List α) :
    runCalls step hazard s (calls ++ [call]) =
      (runCalls step hazard s calls).bind fun s => runCall step hazard s.1 call := by
  rw [runCalls, List.foldlM_append]
  simp [runCalls]

end Hazard

/-! ## Taken symbols -/

section Taken

/-- A word that something of the language begins with. -/
def Viable (L : Language α) (w : List α) : Prop := ∃ e, e ≠ [] ∧ w ++ e ∈ L

open Classical in
/-- The word with what a call adds to it: its symbols up to the first that does not fit. -/
noncomputable def takeCall (L : Language α) (t : List α) : List α → List α
  | [] => t
  | a :: w => if Viable L (t ++ [a]) then takeCall L (t ++ [a]) w else t

/-- The word that some calls make up. -/
noncomputable def taken (L : Language α) (calls : List (List α)) : List α :=
  calls.foldl (takeCall L) []

theorem taken_concat (L : Language α) (calls : List (List α)) (call : List α) :
    taken L (calls ++ [call]) = takeCall L (taken L calls) call := List.foldl_concat ..

variable {step : σ → α → Except ν σ} {good : ν} {rest : σ → Language α} {s₀ s s' : σ} {v : ν}
  {t w : List α} {a : α}

/-- A word is viable as long as there is no verdict. -/
theorem Residual.viable_iff (R : Residual step good rest) :
    Viable (rest s₀) w ↔ (scan step s₀ w).2 = none := by
  constructor
  · rintro ⟨e, hne, hmem⟩
    rcases hscan : scan step s₀ w with ⟨s, _ | v⟩
    · rfl
    · -- the word is decided, so nothing may follow what is accepted
      have hall := R.exists_prefix_iff.mp ⟨w ++ e, List.prefix_rfl, hmem⟩
      rw [scan_append_of_verdict hscan] at hall
      obtain ⟨p, hp, hmem'⟩ := R.exists_prefix_iff.mpr (by rw [hscan]; exact hall)
      have heq := R.eq_of_prefix hmem' hmem (hp.trans (List.prefix_append w e))
      have hlength := hp.length_le
      rw [heq, List.length_append] at hlength
      exact absurd (List.eq_nil_of_length_eq_zero (by omega)) hne
  · intro hnone
    have hscan : scan step s₀ w = ((scan step s₀ w).1, none) := Prod.ext rfl hnone
    obtain ⟨e, he⟩ := R.live (scan step s₀ w).1
    obtain ⟨p, -, hmem⟩ := R.exists_prefix_iff.mpr he
    have hne : p ≠ [] := fun hnil => R.nil_notMem _ (hnil ▸ hmem)
    exact ⟨p, hne, (R.append_mem_iff hscan).mpr hmem⟩

theorem Residual.viable_concat_ok (R : Residual step good rest) (h : scan step s₀ t = (s, none))
    (hstep : step s a = .ok s') :
    Viable (rest s₀) (t ++ [a]) ∧ scan step s₀ (t ++ [a]) = (s', none) := by
  have hscan : scan step s₀ (t ++ [a]) = (s', none) := by
    rw [scan_append h, scan_cons_ok hstep, scan_nil]
  exact ⟨R.viable_iff.mpr (by rw [hscan]), hscan⟩

theorem Residual.not_viable_concat (R : Residual step good rest) (h : scan step s₀ t = (s, none))
    (hstep : step s a = .error v) : ¬ Viable (rest s₀) (t ++ [a]) := by
  rw [R.viable_iff, scan_append h, scan_cons_error hstep]
  exact nofun

theorem prefix_takeCall (L : Language α) (t w : List α) : t <+: takeCall L t w := by
  induction w generalizing t with
  | nil => exact List.prefix_rfl
  | cons a w ih =>
      rw [takeCall]
      split_ifs
      · exact (List.prefix_append t [a]).trans (ih (t ++ [a]))
      · exact List.prefix_rfl

/-- The symbols that are taken lead to the state after the call. -/
theorem Residual.scan_takeCall (R : Residual step good rest) (h : scan step s₀ t = (s, none)) :
    scan step s₀ (takeCall (rest s₀) t w) = ((scan step s w).1, none) := by
  induction w generalizing t s with
  | nil => exact h
  | cons a w ih =>
      rw [takeCall]
      cases hstep : step s a with
      | ok s' =>
          obtain ⟨hviable, hscan⟩ := R.viable_concat_ok h hstep
          rw [if_pos hviable, scan_cons_ok hstep, ih hscan]
      | error v => rw [if_neg (R.not_viable_concat h hstep), scan_cons_error hstep, h]

theorem Residual.exists_scan_taken (R : Residual step good rest) (s₀ : σ)
    (calls : List (List α)) : ∃ s, scan step s₀ (taken (rest s₀) calls) = (s, none) := by
  induction calls using List.reverseRecOn with
  | nil => exact ⟨s₀, rfl⟩
  | append_singleton calls call ih =>
      obtain ⟨s, hscan⟩ := ih
      rw [taken_concat]
      exact ⟨_, R.scan_takeCall hscan⟩

end Taken

/-! ## The run of the calls -/

section Run

variable {step : σ → α → Except ν σ} {hazard : σ → α → Prop} {good : ν} {rest : σ → Language α}
  {s₀ s : σ} {v v₀ : Option ν} {t t' w : List α} {a : α} {calls : List (List α)}

/-- No symbol of a word is a hazard where it is read. -/
def Clear (step : σ → α → Except ν σ) (hazard : σ → α → Prop) (s₀ : σ) (t : List α) : Prop :=
  ∀ p a, p ++ [a] <+: t → ¬ hazard (scan step s₀ p).1 a

theorem Clear.of_prefix (h : Clear step hazard s₀ t) (ht : t' <+: t) : Clear step hazard s₀ t' :=
  fun p a hp => h p a (hp.trans ht)

theorem Clear.concat (h : Clear step hazard s₀ t) (ha : ¬ hazard (scan step s₀ t).1 a) :
    Clear step hazard s₀ (t ++ [a]) := by
  intro p b hp
  rcases List.prefix_concat_iff.mp hp with heq | hp
  · obtain ⟨rfl, hab⟩ := List.append_inj' heq rfl
    rwa [(List.cons.inj hab).1]
  · exact h p b hp

variable [∀ s a, Decidable (hazard s a)]

/-- A verdict falls on one more symbol. -/
theorem exists_of_runCalls_verdict {u : ν}
    (h : runCalls step hazard (s₀, none) calls = some (s, some u)) :
    ∃ a, step s a = .error u := by
  rcases calls.eq_nil_or_concat with rfl | ⟨calls, call, rfl⟩
  · cases h
  · rw [List.concat_eq_append, runCalls_concat] at h
    obtain ⟨⟨s', v'⟩, -, hcall⟩ := Option.bind_eq_some_iff.mp h
    obtain ⟨_, a, _, -, -, ha⟩ := exists_of_scan_verdict (runCall_eq hcall)
    exact ⟨a, ha⟩

variable (R : Residual step good rest)
  (hok : ∀ s a, hazard s a → ∃ s', step s a = .ok s')
include R hok

theorem runCall_isSome_iff (h : scan step s₀ t = (s, none)) (hclear : Clear step hazard s₀ t) :
    (runCall step hazard s w).isSome ↔ Clear step hazard s₀ (takeCall (rest s₀) t w) := by
  induction w generalizing t s with
  | nil => exact iff_of_true rfl hclear
  | cons a w ih =>
      have hstate : (scan step s₀ t).1 = s := by rw [h]
      rw [runCall, takeCall]
      by_cases hhazard : hazard s a
      · obtain ⟨s', hstep⟩ := hok s a hhazard
        obtain ⟨hviable, -⟩ := R.viable_concat_ok h hstep
        rw [if_pos hhazard, if_pos hviable]
        refine iff_of_false Bool.false_ne_true fun hall => ?_
        exact hall t a (prefix_takeCall ..) (hstate ▸ hhazard)
      · rw [if_neg hhazard]
        cases hstep : step s a with
        | ok s' =>
            obtain ⟨hviable, hscan⟩ := R.viable_concat_ok h hstep
            rw [if_pos hviable]
            exact ih hscan (hclear.concat (hstate ▸ hhazard))
        | error v =>
            rw [if_neg (R.not_viable_concat h hstep)]
            exact iff_of_true rfl hclear

omit hok in
/-- The symbols that are taken lead to the state after the calls. -/
theorem scan_taken (h : runCalls step hazard (s₀, v₀) calls = some (s, v)) :
    scan step s₀ (taken (rest s₀) calls) = (s, none) := by
  induction calls using List.reverseRecOn generalizing s v with
  | nil =>
      obtain ⟨rfl, -⟩ := Prod.mk.inj (Option.some_inj.mp h)
      rfl
  | append_singleton calls call ih =>
      rw [runCalls_concat] at h
      obtain ⟨⟨s', v'⟩, hcalls, hcall⟩ := Option.bind_eq_some_iff.mp h
      rw [taken_concat, R.scan_takeCall (ih hcalls), runCall_eq hcall]

/-- **The calls meet no hazard** if and only if none is among the symbols that are taken. -/
theorem runCalls_isSome_iff : (runCalls step hazard (s₀, v₀) calls).isSome ↔
    Clear step hazard s₀ (taken (rest s₀) calls) := by
  induction calls using List.reverseRecOn with
  | nil =>
      refine iff_of_true rfl fun p a hp => ?_
      have hlength := hp.length_le
      simp [taken] at hlength
  | append_singleton calls call ih =>
      rw [runCalls_concat, taken_concat]
      cases hcalls : runCalls step hazard (s₀, v₀) calls with
      | none =>
          rw [hcalls] at ih
          exact iff_of_false Bool.false_ne_true fun hclear =>
            Bool.false_ne_true (ih.mpr (hclear.of_prefix (prefix_takeCall ..)))
      | some outcome =>
          obtain ⟨s, v⟩ := outcome
          rw [hcalls] at ih
          exact runCall_isSome_iff R hok (scan_taken R hcalls) (ih.mp rfl)

end Run

end GinCpp.Scanner
