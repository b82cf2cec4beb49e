import GinCpp.Middleware.Chain

/-!
# What a run of a chain starts

No middleware is started twice, a call of `next` starts the successor at least once, and what is
behind a middleware starts inside its call of `next` as long as those in front of it call `next`
once.  `encloses_start` puts this together.
-/

namespace GinCpp.Middleware

universe u

variable {σ ε : Type u}

/-- The middleware at a position encloses all that is behind it, and is entered once if those
before it call `next` exactly once. -/
structure Encloses (log : List (Entry ε)) (g : ℕ) : Prop where
  inside : ∀ e ∈ log, g < e.position → g ∈ e.inside
  once : (∀ e ∈ log, e.position < g → e.calls.length = 1) → log.countP (·.position = g) = 1

/-- The log of calls that have moved the index from `first` to `last`. -/
structure Started (n first last : ℕ) (log : List (Entry ε)) : Prop where
  range : ∀ e ∈ log, e.position < n → first ≤ e.position ∧ e.position < last
  once : ∀ g < n, log.countP (·.position = g) ≤ 1
  successor : ∀ e ∈ log, e.position < n → e.calls ≠ [] → ∃ e' ∈ log, e'.position = e.position + 1

namespace Started

variable {n first mid last : ℕ} {D D' : List (Entry ε)}

theorem nil : Started n first last ([] : List (Entry ε)) := ⟨nofun, by simp, nofun⟩

theorem countP_eq_zero (h : Started n first last D) {g : ℕ} (hg : g < n)
    (hout : g < first ∨ last ≤ g) : D.countP (·.position = g) = 0 := by
  rw [List.countP_eq_zero]
  intro e he heq
  have hposition : e.position = g := by simpa using heq
  have hrange := h.range e he (hposition ▸ hg)
  omega

theorem append (h : Started n first mid D) (h' : Started n mid last D') (hfirst : first ≤ mid)
    (hlast : mid ≤ last) : Started n first last (D ++ D') where
  range := by
    refine List.forall_mem_append.mpr ⟨fun e he hlt => ?_, fun e he hlt => ?_⟩
    · have hrange := h.range e he hlt
      omega
    · have hrange := h'.range e he hlt
      omega
  once g hg := by
    rw [List.countP_append]
    by_cases hmid : g < mid
    · rw [h'.countP_eq_zero hg (Or.inl hmid)]
      exact h.once g hg
    · rw [h.countP_eq_zero hg (Or.inr (by omega)), Nat.zero_add]
      exact h'.once g hg
  successor := by
    refine List.forall_mem_append.mpr ⟨fun e he hlt hcalls => ?_, fun e he hlt hcalls => ?_⟩
    · obtain ⟨e', he', hposition⟩ := h.successor e he hlt hcalls
      exact ⟨e', List.mem_append_left _ he', hposition⟩
    · obtain ⟨e', he', hposition⟩ := h'.successor e he hlt hcalls
      exact ⟨e', List.mem_append_right _ he', hposition⟩

/-- The entry of the middleware that made the calls. -/
theorem concat {e : Entry ε} (h : Started n (e.position + 1) last D) (hlast : e.position < last)
    (hsuccessor : e.calls ≠ [] → ∃ e' ∈ D, e'.position = e.position + 1) :
    Started n e.position last (D ++ [e]) where
  range := by
    refine List.forall_mem_append.mpr ⟨fun e' he' hlt => ?_, List.forall_mem_singleton.mpr ?_⟩
    · have hrange := h.range e' he' hlt
      omega
    · exact fun _ => ⟨le_rfl, hlast⟩
  once g hg := by
    rw [List.countP_append, List.countP_singleton]
    split_ifs with heq
    · have hposition : e.position = g := by simpa using heq
      rw [h.countP_eq_zero hg (Or.inl (by omega))]
    · exact h.once g hg
  successor := by
    refine List.forall_mem_append.mpr ⟨fun e' he' hlt hcalls => ?_,
      List.forall_mem_singleton.mpr fun _ hcalls => ?_⟩
    · obtain ⟨e'', he'', hposition⟩ := h.successor e' he' hlt hcalls
      exact ⟨e'', List.mem_append_left _ he'', hposition⟩
    · obtain ⟨e', he', hposition⟩ := hsuccessor hcalls
      exact ⟨e', List.mem_append_left _ he', hposition⟩

end Started

namespace MiddlewareChain

variable {chain : MiddlewareChain σ ε}

theorem index_le_next (inside : List ℕ) (p : Progress ε) (s : σ) :
    p.index ≤ (chain.next inside p s).1.index :=
  index_le_nextWithin _ inside p s

/-- What a call of `next` starts. -/
theorem started_next (chain : MiddlewareChain σ ε) (inside : List ℕ) (p : Progress ε) (s : σ) :
    ∃ D, (chain.next inside p s).1.log = p.log ++ D ∧
      Started chain.middlewares.length p.index (chain.next inside p s).1.index D := by
  induction inside, p, s using chain.next_induction with
  | final inside p s hle =>
      rw [next_of_le hle]
      refine ⟨[⟨_, inside, [], _⟩], rfl, ?_, ?_, ?_⟩
      · exact List.forall_mem_singleton.mpr fun hlt => absurd hlt (lt_irrefl _)
      · intro g hg
        exact List.countP_le_length
      · exact List.forall_mem_singleton.mpr fun hlt => absurd hlt (lt_irrefl _)
  | middleware inside p s hlt ih =>
      -- between its calls of `next`: the entries so far start every position up to the index, and
      -- the first call is the one that starts the next
      obtain ⟨hindex, D, hlog, hstarted, hsuccessor, -⟩ := runAt_induction inside s
        (P := fun p' calls => p.index < p'.index ∧ ∃ D, p'.log = p.log ++ D ∧
          Started chain.middlewares.length (p.index + 1) p'.index D ∧
          (calls ≠ [] → ∃ e ∈ D, e.position = p.index + 1) ∧
          (calls = [] → p'.index = p.index + 1))
        (fun p' s' calls ⟨hp', D, hD, hstarted, hsuccessor, hfirst⟩ => by
          obtain ⟨E, hE, hstarted'⟩ := ih (p.index :: inside) p' s' hp'
          have hle : p'.index ≤ (chain.next (p.index :: inside) p' s').1.index :=
            index_le_next _ p' s'
          refine ⟨hp'.trans_le hle, D ++ E, by rw [hE, hD, List.append_assoc],
            hstarted.append hstarted' hp' hle, fun _ => ?_, fun h => absurd h (by simp)⟩
          by_cases hcalls : calls = []
          · -- the first call starts the successor
            obtain ⟨E', e, hE', hposition, -⟩ := chain.log_next (p.index :: inside) p' s'
            have hmem : e ∈ E := by
              rw [List.append_cancel_left (hE.symm.trans hE')]
              simp
            refine ⟨e, List.mem_append_right _ hmem, ?_⟩
            rw [hposition, hfirst hcalls]
            omega
          · obtain ⟨e, he, hposition⟩ := hsuccessor hcalls
            exact ⟨e, List.mem_append_left _ he, hposition⟩)
        hlt ⟨Nat.lt_succ_self _, [], (List.append_nil _).symm, .nil, fun h => absurd rfl h,
          fun _ => rfl⟩
      refine ⟨_, log_next_of_lt hlt hlog, ?_⟩
      rw [next_of_lt hlt]
      exact hstarted.concat (e := ⟨p.index, inside, _, _⟩) hindex hsuccessor

/-- What is behind a middleware starts inside its call of `next`, if those in front of it call
`next` at most once. -/
theorem inside_next (chain : MiddlewareChain σ ε) (g : ℕ) (inside : List ℕ) (p : Progress ε)
    (s : σ) (hinside : ∀ x < p.index, x ≤ g → x ∈ inside) :
    ∃ D, (chain.next inside p s).1.log = p.log ++ D ∧
      ((∀ e ∈ D, e.position < g → e.calls.length ≤ 1) →
        ∀ e ∈ D, ∀ x < e.position, x ≤ g → x ∈ e.inside) := by
  induction inside, p, s using chain.next_induction with
  | final inside p s hle =>
      rw [next_of_le hle]
      refine ⟨[⟨_, inside, [], _⟩], rfl, fun _ => List.forall_mem_singleton.mpr ?_⟩
      exact fun x hx => hinside x (hx.trans_le hle)
  | middleware inside p s hlt ih =>
      have hown : ∀ x ≤ p.index, x ≤ g → x ∈ p.index :: inside := by
        intro x hx hg
        rcases hx.eq_or_lt with rfl | hx
        · exact List.mem_cons_self
        · exact List.mem_cons_of_mem _ (hinside x hx hg)
      -- between its calls of `next`: if it is in front of `g` there has been one at most
      obtain ⟨-, -, D, hlog, hD⟩ := runAt_induction inside s
        (P := fun p' calls => p.index < p'.index ∧ (calls = [] → p'.index = p.index + 1) ∧
          ∃ D : List (Entry ε), p'.log = p.log ++ D ∧
            ((p.index < g → calls.length ≤ 1) → (∀ e ∈ D, e.position < g → e.calls.length ≤ 1) →
              ∀ e ∈ D, ∀ x < e.position, x ≤ g → x ∈ e.inside))
        (fun p' s' calls ⟨hp', hfirst, D, hD, hinsideD⟩ => by
          refine ⟨hp'.trans_le (index_le_next _ p' s'), fun h => absurd h (by simp), ?_⟩
          by_cases hagain : p.index < g ∧ calls ≠ []
          · -- a second call in front of `g`
            obtain ⟨D', e, hD', -⟩ := chain.log_next (p.index :: inside) p' s'
            refine ⟨D ++ (D' ++ [e]), by rw [hD', hD, List.append_assoc], fun hle => ?_⟩
            have hpos := List.length_pos_iff.mpr hagain.2
            have hone := hle hagain.1
            rw [List.length_append, List.length_singleton] at hone
            omega
          · have hhere : ∀ x < p'.index, x ≤ g → x ∈ p.index :: inside := by
              intro x hx hg
              apply hown x _ hg
              by_cases hcalls : calls = []
              · have hindex := hfirst hcalls
                omega
              · have hge : ¬ p.index < g := fun hlt' => hagain ⟨hlt', hcalls⟩
                omega
            obtain ⟨D', hD', hinsideD'⟩ := ih (p.index :: inside) p' s' hp' hhere
            refine ⟨D ++ D', by rw [hD', hD, List.append_assoc], fun hle honce => ?_⟩
            obtain ⟨honceD, honceD'⟩ := List.forall_mem_append.mp honce
            refine List.forall_mem_append.mpr ⟨hinsideD (fun hlt' => ?_) honceD,
              hinsideD' honceD'⟩
            have hone := hle hlt'
            rw [List.length_append] at hone
            omega)
        hlt ⟨Nat.lt_succ_self _, fun _ => rfl, [], (List.append_nil _).symm, nofun⟩
      refine ⟨_, log_next_of_lt hlt hlog, fun honce => ?_⟩
      obtain ⟨honceD, hlast⟩ := List.forall_mem_append.mp honce
      refine List.forall_mem_append.mpr ⟨hD (List.forall_mem_singleton.mp hlast) honceD, ?_⟩
      exact List.forall_mem_singleton.mpr hinside

/-- Every position up to `g` is started if those before `g` call `next`. -/
theorem exists_started (s : σ) {g : ℕ} (hg : g < chain.middlewares.length)
    (hcalls : ∀ e ∈ (chain.start s).1.log, e.position < g → e.calls.length = 1) :
    ∃ e ∈ (chain.start s).1.log, e.position = g := by
  obtain ⟨D, hlog, hstarted⟩ := chain.started_next [] {} s
  have hD : (chain.start s).1.log = D := hlog
  rw [hD] at hcalls ⊢
  induction g with
  | zero =>
      obtain ⟨D', e, hD', hposition, -⟩ := chain.log_next [] {} s
      refine ⟨e, ?_, hposition.trans (Nat.zero_min _)⟩
      rw [← hD]
      exact hD' ▸ by simp
  | succ g ih =>
      obtain ⟨e, he, hposition⟩ := ih (by omega) fun e he hlt => hcalls e he (by omega)
      have hone := hcalls e he (by omega)
      obtain ⟨e', he', hposition'⟩ := hstarted.successor e he (by omega)
        (List.ne_nil_of_length_eq_add_one hone)
      exact ⟨e', he', hposition'.trans (by rw [hposition])⟩

/-- **A middleware encloses all that is behind it**, if those in front of it call `next` at most
once. -/
theorem encloses_start (s : σ) {g : ℕ} (hg : g < chain.middlewares.length)
    (hcalls : ∀ e ∈ (chain.start s).1.log, e.position < g → e.calls.length ≤ 1) :
    Encloses (chain.start s).1.log g where
  inside := by
    obtain ⟨D, hlog, hinside⟩ := chain.inside_next g [] {} s fun x hx => absurd hx (by simp)
    have hD : (chain.start s).1.log = D := hlog
    rw [hD] at hcalls ⊢
    exact fun e he hlt => hinside hcalls e he g hlt le_rfl
  once hone := by
    obtain ⟨e, he, hposition⟩ := exists_started s hg hone
    obtain ⟨D, hlog, hstarted⟩ := chain.started_next [] {} s
    have hD : (chain.start s).1.log = D := hlog
    rw [hD] at he ⊢
    have hle := hstarted.once g hg
    have hpos : 0 < D.countP (·.position = g) := by
      rw [List.countP_pos_iff]
      exact ⟨e, he, by simpa using hposition⟩
    omega

end MiddlewareChain

end GinCpp.Middleware
