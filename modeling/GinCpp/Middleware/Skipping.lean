import GinCpp.Middleware.Chain

/-!
# Skipped middlewares

All calls of `next` share one index, so the second call of a middleware does not start its
successor again but whatever the first call did not reach, behind a middleware that is not
running.  `noneSkipped_iff` says that this is the only way to skip one: no middleware is skipped
exactly if none but the last calls `next` more than once.
-/

namespace GinCpp.Middleware

universe u

variable {σ ε : Type u}

/-- At each start the predecessor is inside a call of `next`. -/
def PredecessorInside (log : List (Entry ε)) : Prop :=
  ∀ e ∈ log, ∀ i, e.position = i + 1 → i ∈ e.inside

/-- At each start all middlewares before are. -/
def AllInside (log : List (Entry ε)) : Prop :=
  ∀ e ∈ log, ∀ i < e.position, i ∈ e.inside

/-- No middleware but the last of `n` calls `next` more than once. -/
def CalledOnce (n : ℕ) (log : List (Entry ε)) : Prop :=
  ∀ e ∈ log, e.position + 1 < n → e.calls.length ≤ 1

/-- **No middleware is skipped.**  Each is started by its predecessor, and the final handler
inside all of them. -/
def NoneSkipped (n : ℕ) (log : List (Entry ε)) : Prop :=
  PredecessorInside log ∧ ∀ e ∈ log, e.position = n → ∀ i < n, i ∈ e.inside

instance (n : ℕ) (log : List (Entry ε)) : Decidable (CalledOnce n log) :=
  inferInstanceAs (Decidable (∀ e ∈ log, e.position + 1 < n → e.calls.length ≤ 1))

/-- What a part of the log that belongs to one call of `next` satisfies. -/
structure Tracked (n : ℕ) (log : List (Entry ε)) : Prop where
  calledOnce : PredecessorInside log → CalledOnce n log
  allInside : CalledOnce n log → AllInside log

/-- The middleware at `i` after some `calls` of `next`, which left the index at `index` and
logged `D`. -/
inductive Phase (n i : ℕ) (inside : List ℕ) :
    ℕ → List (Option ε) → List (Entry ε) → Prop
  /-- It has not called `next`. -/
  | waiting : Phase n i inside (i + 1) [] []
  /-- It is the last one, and every call starts the final handler. -/
  | last {index calls D} : i + 1 = n → index = n →
      (∀ e ∈ D, e.position = n ∧ e.inside = i :: inside) → Phase n i inside index calls D
  /-- It has called `next` once, which started its successor. -/
  | once {index result D} : i + 1 < index → index ≤ n → Tracked n D →
      Phase n i inside index [result] D
  /-- It has called `next` again, and the second call has skipped its successor. -/
  | again {index calls D} : i + 1 < index → index ≤ n → 1 < calls.length →
      ¬ PredecessorInside D → Phase n i inside index calls D

namespace Phase

variable {n i index : ℕ} {inside : List ℕ} {calls : List (Option ε)} {D : List (Entry ε)}

/-- At the end of a middleware the part of the log up to its own entry is tracked. -/
theorem tracked (h : Phase n i inside index calls D) (hinside : ∀ x, x ∈ inside ↔ x < i)
    (outcome : Option ε) : Tracked n (D ++ [⟨i, inside, calls, outcome⟩]) := by
  have hown : ∀ x < i, x ∈ inside := fun x hx => (hinside x).mpr hx
  constructor
  · intro hpred
    have hD : PredecessorInside D := fun e he => hpred e (List.mem_append_left _ he)
    refine List.forall_mem_append.mpr ⟨?_, List.forall_mem_singleton.mpr ?_⟩
    · cases h with
      | waiting => nofun
      | last hlast _ hentries =>
          intro e he hlt
          rw [(hentries e he).1] at hlt
          omega
      | once _ _ htracked => exact htracked.calledOnce hD
      | again _ _ _ hnot => exact absurd hD hnot
    · intro hlt
      cases h with
      | waiting => exact Nat.zero_le 1
      | last hlast => exact absurd (show i + 1 < n from hlt) (by omega)
      | once => exact le_rfl
      | again _ _ _ hnot => exact absurd hD hnot
  · intro honce
    obtain ⟨hD, hentry⟩ := List.forall_mem_append.mp honce
    refine List.forall_mem_append.mpr ⟨?_, List.forall_mem_singleton.mpr hown⟩
    cases h with
    | waiting => nofun
    | last hlast _ hentries =>
        intro e he x hx
        obtain ⟨hposition, hinsideEntry⟩ := hentries e he
        rw [hinsideEntry, List.mem_cons, hinside]
        omega
    | once _ _ htracked => exact htracked.allInside hD
    | again hlt hle hcalls hnot =>
        have hle' := List.forall_mem_singleton.mp hentry (show i + 1 < n by omega)
        exact absurd hle' (by simpa using hcalls)

end Phase

namespace MiddlewareChain

variable {chain : MiddlewareChain σ ε} {inside : List ℕ} {p : Progress ε} {s : σ}

/-- A call of `next` at an index that skips a middleware. -/
theorem exists_skipping {i : ℕ} (hinside : ∀ x, x ∈ inside ↔ x < i) (hlt : i + 1 < p.index)
    (hle : p.index ≤ chain.middlewares.length) :
    ∃ D, (chain.next (i :: inside) p s).1.log = p.log ++ D ∧ ¬ PredecessorInside D := by
  obtain ⟨D, e, hlog, hposition, hentry⟩ := chain.log_next (i :: inside) p s
  refine ⟨D ++ [e], hlog, fun hpred => ?_⟩
  have hmem : p.index - 1 ∈ e.inside :=
    hpred e (List.mem_append_right D List.mem_cons_self) _ (by omega)
  rw [hentry, List.mem_cons, hinside] at hmem
  omega

/-- One more call of `next` by the middleware at `i`. -/
theorem phase_next {i : ℕ} {base D : List (Entry ε)} {calls : List (Option ε)}
    (hinside : ∀ x, x ∈ inside ↔ x < i) (hlt : i < chain.middlewares.length)
    (hfirst : ∀ p s, p.index = i + 1 → ∃ D, (chain.next (i :: inside) p s).1.log = p.log ++ D ∧
      Tracked chain.middlewares.length D)
    (hlog : p.log = base ++ D)
    (h : Phase chain.middlewares.length i inside p.index calls D) :
    ∃ D', (chain.next (i :: inside) p s).1.log = base ++ D' ∧
      Phase chain.middlewares.length i inside (chain.next (i :: inside) p s).1.index
        (calls ++ [(chain.next (i :: inside) p s).2.2]) D' := by
  generalize hindex : p.index = index at h
  cases h with
  | waiting =>
      by_cases hlast : i + 1 = chain.middlewares.length
      · -- the last middleware calls the final handler
        rw [next_of_le (by omega)]
        refine ⟨[⟨chain.middlewares.length, i :: inside, [], (chain.finalHandler s).2⟩], ?_, ?_⟩
        · simp [finish, hlog]
        · exact .last hlast (hindex.trans hlast) (by simp)
      · obtain ⟨E, hE, htracked⟩ := hfirst p s hindex
        refine ⟨E, by rw [hE, hlog, List.append_nil], ?_⟩
        exact .once (hindex ▸ index_lt_next (by omega)) (index_next_le (by omega)) htracked
  | last hlast hend hentries =>
      -- and so does every further call of it
      rw [next_of_le (by omega)]
      refine ⟨D ++ [⟨chain.middlewares.length, i :: inside, [], (chain.finalHandler s).2⟩], ?_, ?_⟩
      · simp [finish, hlog]
      · exact .last hlast (hindex.trans hend)
          (List.forall_mem_append.mpr ⟨hentries, by simp⟩)
  | once hbeyond hle htracked =>
      -- the second call skips what the first has started
      subst hindex
      obtain ⟨E, hE, hnot⟩ := exists_skipping (s := s) hinside hbeyond hle
      refine ⟨D ++ E, by rw [hE, hlog, List.append_assoc], ?_⟩
      exact .again (hbeyond.trans_le (index_le_nextWithin _ _ p s)) (index_next_le hle) (by simp)
        fun hpred => hnot fun e he => hpred e (List.mem_append_right D he)
  | again hbeyond hle hcalls hnot =>
      subst hindex
      obtain ⟨E, hE, -⟩ := exists_skipping (s := s) hinside hbeyond hle
      refine ⟨D ++ E, by rw [hE, hlog, List.append_assoc], ?_⟩
      exact .again (hbeyond.trans_le (index_le_nextWithin _ _ p s)) (index_next_le hle)
        (by rw [List.length_append]; omega)
        fun hpred => hnot fun e he => hpred e (List.mem_append_left E he)

/-- A call of `next` inside all middlewares before the index. -/
theorem tracked_next (chain : MiddlewareChain σ ε) (inside : List ℕ) (p : Progress ε) (s : σ)
    (hinside : ∀ x, x ∈ inside ↔ x < p.index) (hle : p.index ≤ chain.middlewares.length) :
    ∃ D, (chain.next inside p s).1.log = p.log ++ D ∧ Tracked chain.middlewares.length D := by
  induction inside, p, s using chain.next_induction with
  | final inside p s hge =>
      have hend : p.index = chain.middlewares.length := le_antisymm hle hge
      rw [next_of_le hge]
      refine ⟨_, rfl, ⟨?_, ?_⟩⟩
      · exact fun _ => List.forall_mem_singleton.mpr fun hlt => absurd hlt (by simp)
      · exact fun _ => List.forall_mem_singleton.mpr fun x hx => (hinside x).mpr (hend ▸ hx)
  | middleware inside p s hlt ih =>
      have hinside' : ∀ x, x ∈ p.index :: inside ↔ x < p.index + 1 := by
        intro x
        rw [List.mem_cons, hinside]
        omega
      have hfirst : ∀ p' s', p'.index = p.index + 1 →
          ∃ D, (chain.next (p.index :: inside) p' s').1.log = p'.log ++ D ∧
            Tracked chain.middlewares.length D := fun p' s' hp' =>
        ih (p.index :: inside) p' s' (by omega) (hp' ▸ hinside') (by omega)
      obtain ⟨D, hlog, hphase⟩ := runAt_induction inside s
        (P := fun p' calls => ∃ D, p'.log = p.log ++ D ∧
          Phase chain.middlewares.length p.index inside p'.index calls D)
        (fun p' s' calls ⟨D, hlog, hphase⟩ => phase_next hinside hlt hfirst hlog hphase)
        hlt ⟨[], (List.append_nil _).symm, .waiting⟩
      exact ⟨_, log_next_of_lt hlt hlog, hphase.tracked hinside _⟩

/-- **When no middleware is skipped.**  In every run of a chain, whatever the middlewares do: if
and only if none but the last calls `next` more than once. -/
theorem noneSkipped_iff (chain : MiddlewareChain σ ε) (s : σ) :
    NoneSkipped chain.middlewares.length (chain.start s).1.log ↔
      CalledOnce chain.middlewares.length (chain.start s).1.log := by
  obtain ⟨D, hlog, htracked⟩ := chain.tracked_next [] {} s (by simp) (Nat.zero_le _)
  have hstart : (chain.start s).1.log = D := hlog
  rw [hstart]
  constructor
  · intro hnone
    exact htracked.calledOnce hnone.1
  · intro honce
    have hall := htracked.allInside honce
    exact ⟨fun e he i hi => hall e he i (by omega), fun e he hn i hi => hall e he i (hn ▸ hi)⟩

/-- The first middleware calls `next` twice, the second never does. -/
def twice : MiddlewareChain Unit Unit where
  middlewares := [⟨.call fun _ => .call fun _ => .ret, 0⟩, ⟨.ret, 0⟩]
  finalHandler s := (s, none)

/-- The final handler runs although the second middleware did not call `next`. -/
theorem not_noneSkipped_twice : ¬ NoneSkipped 2 (twice.start ()).1.log := by
  intro hnone
  have hinside := hnone.2 ⟨2, [0], [], none⟩ (by decide) rfl 1 (by decide)
  exact absurd hinside (by decide)

end MiddlewareChain

end GinCpp.Middleware
