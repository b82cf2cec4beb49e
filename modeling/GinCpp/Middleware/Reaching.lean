import GinCpp.Middleware.Chain

/-!
# The calls of `next`

`Reaches` follows a run of a chain from one call of `next` to the calls made inside it.  Every
entry of the log belongs to a call that is reached (`exists_reaches_of_mem_log`).  In a chain whose
middlewares call `next` at most once, whatever is in front of a call that is reached has called
`next` itself: `Reaches.passed`.
-/

namespace GinCpp.Middleware

open Callback

universe u

variable {σ ε β : Type u}

/-- A call of `next`. -/
structure Call (σ ε : Type u) where
  inside : List ℕ := []
  progress : Progress ε := {}
  state : σ

/-- The middleware calls `next` at most once, and `view` is there what it was at its start. -/
structure Orderly (view : σ → β) (m : Middleware σ ε) : Prop where
  once : ∀ (next : Callee (Progress ε) σ ε) p s, (m.handler.run next p s).calls.length ≤ 1
  keeps : ∀ (next : Callee (Progress ε) σ ε) p s, ∀ a ∈ m.handler.arguments next p s,
    view a.2 = view s

namespace MiddlewareChain

variable (chain : MiddlewareChain σ ε)

/-- The calls of `next` that the middleware at the index makes, if it is started by a call. -/
def made (call : Call σ ε) : List (Progress ε × σ) :=
  match chain.middlewares[call.progress.index]? with
  | some middleware =>
      middleware.handler.arguments (chain.next (call.progress.index :: call.inside))
        { call.progress with index := call.progress.index + 1 } call.state
  | none => []

/-- From a call of `next` to itself and to the calls inside it. -/
inductive Reaches : Call σ ε → Call σ ε → Prop
  | refl (call : Call σ ε) : Reaches call call
  | inside {call call' p s} : (p, s) ∈ chain.made call →
      Reaches ⟨call.progress.index :: call.inside, p, s⟩ call' → Reaches call call'

variable {chain} {first call call' : Call σ ε}

theorem made_of_lt (h : call.progress.index < chain.middlewares.length) :
    chain.made call = (chain.middlewares[call.progress.index]).handler.arguments
      (chain.next (call.progress.index :: call.inside))
      { call.progress with index := call.progress.index + 1 } call.state := by
  rw [made, List.getElem?_eq_getElem h]

theorem lt_of_mem_made {a : Progress ε × σ} (h : a ∈ chain.made call) :
    call.progress.index < chain.middlewares.length := by
  by_contra hle
  rw [made, List.getElem?_eq_none (by omega)] at h
  cases h

/-- Every entry of the log belongs to a call that is reached. -/
theorem exists_reaches_of_mem_log (chain : MiddlewareChain σ ε) (call : Call σ ε) :
    ∃ D, (chain.next call.inside call.progress call.state).1.log = call.progress.log ++ D ∧
      ∀ e ∈ D, ∃ call', chain.Reaches call call' ∧
        e.position = min call'.progress.index chain.middlewares.length := by
  obtain ⟨inside, p, s⟩ := call
  induction inside, p, s using chain.next_induction with
  | final inside p s hle =>
      rw [next_of_le hle]
      refine ⟨_, rfl, List.forall_mem_singleton.mpr ⟨_, .refl _, ?_⟩⟩
      exact (min_eq_right hle).symm
  | middleware inside p s hlt ih =>
      have hmade : chain.made ⟨inside, p, s⟩ = _ := made_of_lt hlt
      obtain ⟨-, D, hlog, hD⟩ := Program.run_arguments_induction (chain.next (p.index :: inside))
        (P := fun p' _ => p.index < p'.index ∧ ∃ D : List (Entry ε), p'.log = p.log ++ D ∧
          ∀ e ∈ D, ∃ call', chain.Reaches ⟨inside, p, s⟩ call' ∧
            e.position = min call'.progress.index chain.middlewares.length)
        (chain.middlewares[p.index]).handler { p with index := p.index + 1 } s
        (fun p' s' _ hmem ⟨hlt', D, hD, hreach⟩ => by
          obtain ⟨E, hE, hreachE⟩ := ih (p.index :: inside) p' s' hlt'
          refine ⟨hlt'.trans_le (index_le_nextWithin _ _ p' s'), D ++ E, ?_, ?_⟩
          · rw [hE, hD, List.append_assoc]
          · refine List.forall_mem_append.mpr ⟨hreach, fun e he => ?_⟩
            obtain ⟨call', hcall', hposition⟩ := hreachE e he
            exact ⟨call', .inside (hmade ▸ hmem) hcall', hposition⟩)
        ⟨Nat.lt_succ_self _, [], (List.append_nil _).symm, nofun⟩
      refine ⟨_, log_next_of_lt hlt hlog, ?_⟩
      refine List.forall_mem_append.mpr ⟨hD, List.forall_mem_singleton.mpr ?_⟩
      exact ⟨_, .refl _, (min_eq_left hlt.le).symm⟩

/-! ## Chains that call once -/

variable {view : σ → β}

/-- A middleware that calls `next` at most once makes its call at the next index. -/
theorem made_orderly (horderly : ∀ m ∈ chain.middlewares, Orderly view m) {p : Progress ε} {s : σ}
    (h : (p, s) ∈ chain.made call) :
    p.index = call.progress.index + 1 ∧ view s = view call.state := by
  have hlt := lt_of_mem_made h
  rw [made_of_lt hlt] at h
  obtain ⟨honce, hkeeps⟩ := horderly _ (List.getElem_mem hlt)
  refine ⟨?_, hkeeps _ _ _ _ h⟩
  have hone := honce (chain.next (call.progress.index :: call.inside))
    { call.progress with index := call.progress.index + 1 } call.state
  rw [Program.length_calls_run] at hone
  cases hmade : (chain.middlewares[call.progress.index]).handler.arguments
      (chain.next (call.progress.index :: call.inside))
      { call.progress with index := call.progress.index + 1 } call.state with
  | nil =>
      rw [hmade] at h
      cases h
  | cons a more =>
      rw [hmade, List.length_cons] at hone
      obtain rfl : more = [] := List.length_eq_zero_iff.mp (by omega)
      rw [hmade, List.mem_singleton] at h
      have hcontrol := Program.fst_of_arguments_eq_cons hmade
      rw [← h] at hcontrol
      exact congrArg Progress.index hcontrol

/-- **What is in front of a call has called `next`.**  All that was at an earlier index was
started, with the same view of the state, and made a call itself. -/
theorem Reaches.passed (horderly : ∀ m ∈ chain.middlewares, Orderly view m)
    (h : chain.Reaches first call) :
    view call.state = view first.state ∧
      ∀ i, first.progress.index ≤ i → i < call.progress.index →
        ∃ call', chain.Reaches first call' ∧ call'.progress.index = i ∧
          view call'.state = view first.state ∧ chain.made call' ≠ [] := by
  induction h with
  | refl call => exact ⟨rfl, fun i hle hlt => absurd hlt (by omega)⟩
  | @inside outer call p s hmem hreach ih =>
      obtain ⟨hindex, hview⟩ := made_orderly horderly hmem
      obtain ⟨hstate, hpassed⟩ := ih
      refine ⟨hstate.trans hview, fun i hle hlt => ?_⟩
      rcases hle.eq_or_lt with rfl | hbehind
      · exact ⟨outer, .refl _, rfl, rfl, List.ne_nil_of_mem hmem⟩
      · obtain ⟨call', hcall', hi, hview', hmade⟩ := hpassed i (hindex.le.trans hbehind) hlt
        exact ⟨call', .inside hmem hcall', hi, hview'.trans hview, hmade⟩

end MiddlewareChain

end GinCpp.Middleware
