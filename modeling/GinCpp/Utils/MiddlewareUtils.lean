import GinCpp.Callback.Recording
import GinCpp.Callback.Simulation
import GinCpp.Middleware.Chain

/-!
# The chain builder

`utils/middleware_utils.cpp`.  `MiddlewareChainBuilder::run` keeps an iterator in a closure that
calls itself.  It does what one call of `MiddlewareChain::next` does with a final handler that does
nothing: the iterator of the one is the index of the other.

Both recursions are given here with a bound on their depth, and without a result when it is
exhausted.  `MiddlewareChain.next?_eq` and `MiddlewareChainBuilder.next?_eq` say that they end, as
`MiddlewareChain.next` does.
-/

namespace GinCpp

open Callback Middleware

variable {σ ε : Type}

/-! ## The chain with a bound -/

namespace Middleware.MiddlewareChain

/-- `MiddlewareChain::next`, fewer than `depth` calls deep; the control state is the index. -/
def next? (chain : MiddlewareChain σ ε) : ℕ → PartialCallee ℕ σ ε
  | 0, _, _ => none
  | depth + 1, index, s =>
      match chain.middlewares[index]? with
      | some middleware => middleware.handler.run? (chain.next? depth) (index + 1) s
      | none => some (index, chain.finalHandler s)

/-- The recursion ends: it never is deeper than the rest of the list is long. -/
theorem next?_eq (chain : MiddlewareChain σ ε) {depth : ℕ} (inside : List ℕ) (p : Progress ε)
    (s : σ) (h : chain.middlewares.length - p.index < depth) :
    chain.next? depth p.index s =
      some ((chain.next inside p s).1.index, (chain.next inside p s).2) := by
  induction depth generalizing inside p s with
  | zero => exact absurd h (Nat.not_lt_zero _)
  | succ depth ih =>
      rw [next?]
      by_cases hlt : p.index < chain.middlewares.length
      · -- inside the middleware the index is beyond its position
        have hcall : ∀ p' index' s', (p.index < p'.index ∧ p'.index = index') →
            ∃ index'', chain.next? depth index' s' =
                some (index'', (chain.next (p.index :: inside) p' s').2) ∧
              p.index < (chain.next (p.index :: inside) p' s').1.index ∧
                (chain.next (p.index :: inside) p' s').1.index = index'' := by
          rintro p' index' s' ⟨hindex, rfl⟩
          exact ⟨_, ih _ p' s' (by omega), hindex.trans_le (index_le_nextWithin _ _ p' s'), rfl⟩
        obtain ⟨index', hrun, -, hindex⟩ := Program.run?_of_simulation hcall
          chain.middlewares[p.index].handler (c := { p with index := p.index + 1 }) s
          ⟨Nat.lt_succ_self p.index, rfl⟩
        rw [List.getElem?_eq_getElem hlt, next_of_lt hlt, runAt]
        dsimp only
        rw [hrun, ← hindex]
      · rw [List.getElem?_eq_none (by omega), next_of_le (by omega)]
        rfl

end Middleware.MiddlewareChain

/-! ## The builder -/

namespace Utils

/-- `utils::MiddlewareChainBuilder`. -/
structure MiddlewareChainBuilder (σ ε : Type) where
  middlewares : List (Program σ ε) := []

namespace MiddlewareChainBuilder

def add (builder : MiddlewareChainBuilder σ ε) (middleware : Program σ ε) :
    MiddlewareChainBuilder σ ε :=
  ⟨builder.middlewares ++ [middleware]⟩

/-- The closure `next`, fewer than `depth` calls deep; the control state is the iterator `it`. -/
def next? (builder : MiddlewareChainBuilder σ ε) : ℕ → PartialCallee ℕ σ ε
  | 0, _, _ => none
  | depth + 1, it, ctx =>
      if h : it < builder.middlewares.length then
        (builder.middlewares[it]).run? (builder.next? depth) (it + 1) ctx
      else
        some (it, ctx, none)

/-- `MiddlewareChainBuilder::run`. -/
def run? (builder : MiddlewareChainBuilder σ ε) (depth : ℕ) (ctx : σ) : Option (σ × Option ε) :=
  (builder.next? depth 0 ctx).map (·.2)

/-- The same middlewares in front of a final handler that does nothing. -/
def toChain (builder : MiddlewareChainBuilder σ ε) : MiddlewareChain σ ε where
  middlewares := builder.middlewares.map fun handler => { handler }
  finalHandler s := (s, none)

/-- The same middlewares, recording what they do. -/
def recorded (builder : MiddlewareChainBuilder σ ε) :
    MiddlewareChainBuilder (σ × List (σ → σ)) ε :=
  ⟨builder.middlewares.map Program.recorded⟩

variable (builder : MiddlewareChainBuilder σ ε)

/-- The iterator moves as the index of the chain does. -/
theorem next?_eq (depth it : ℕ) (ctx : σ) :
    builder.next? depth it ctx = builder.toChain.next? depth it ctx := by
  induction depth generalizing it ctx with
  | zero => rfl
  | succ depth ih =>
      have hcallee : builder.next? depth = builder.toChain.next? depth := by
        funext it' ctx'
        exact ih it' ctx'
      rw [next?, MiddlewareChain.next?, hcallee, toChain, List.getElem?_map]
      split_ifs with hlt
      · rw [List.getElem?_eq_getElem hlt]
        rfl
      · rw [List.getElem?_eq_none (by omega)]
        rfl

/-- `run` ends with what one call of `next` on the chain leaves. -/
theorem run?_eq_start (depth : ℕ) (ctx : σ) (h : builder.middlewares.length < depth) :
    builder.run? depth ctx = some (builder.toChain.start ctx).2 := by
  have hlength : builder.toChain.middlewares.length = builder.middlewares.length :=
    List.length_map _
  rw [run?, next?_eq, builder.toChain.next?_eq [] {} ctx (by rw [hlength]; exact h)]
  rfl

/-- Recording changes nothing else. -/
theorem next_recorded (inside : List ℕ) (p : Progress ε) (s : σ) (record : List (σ → σ)) :
    (builder.recorded.toChain.next inside p (s, record)).1 =
        (builder.toChain.next inside p s).1 ∧
      (builder.recorded.toChain.next inside p (s, record)).2.1.1 =
        (builder.toChain.next inside p s).2.1 ∧
      (builder.recorded.toChain.next inside p (s, record)).2.2 =
        (builder.toChain.next inside p s).2.2 := by
  have hlength : builder.recorded.toChain.middlewares.length =
      builder.toChain.middlewares.length := by
    simp [recorded, toChain]
  induction inside, p, s using builder.toChain.next_induction generalizing record with
  | final inside p s hle =>
      rw [MiddlewareChain.next_of_le hle, MiddlewareChain.next_of_le (hlength ▸ hle),
        MiddlewareChain.finish, MiddlewareChain.finish, hlength]
      exact ⟨rfl, rfl, rfl⟩
  | middleware inside p s hlt ih =>
      have hmem : p.index < builder.middlewares.length := by
        simpa [toChain] using hlt
      have hcall : ∀ p' p'' (s' : σ × List (σ → σ)), (p.index < p'.index ∧ p' = p'') →
          (p.index < (builder.toChain.next (p.index :: inside) p' s'.1).1.index ∧
            (builder.toChain.next (p.index :: inside) p' s'.1).1 =
              (builder.recorded.toChain.next (p.index :: inside) p'' s').1) ∧
          (builder.recorded.toChain.next (p.index :: inside) p'' s').2.1.1 =
            (builder.toChain.next (p.index :: inside) p' s'.1).2.1 ∧
          (builder.recorded.toChain.next (p.index :: inside) p'' s').2.2 =
            (builder.toChain.next (p.index :: inside) p' s'.1).2.2 := by
        rintro p' _ ⟨s', record'⟩ ⟨hindex, rfl⟩
        obtain ⟨hcontrol, hanswer⟩ := ih (p.index :: inside) p' s' hindex record'
        have hle : p'.index ≤ (builder.toChain.next (p.index :: inside) p' s').1.index :=
          MiddlewareChain.index_le_nextWithin _ _ p' s'
        exact ⟨⟨hindex.trans_le hle, hcontrol.symm⟩, hanswer⟩
      obtain ⟨⟨-, hcontrol⟩, hstate, hcalls, houtcome⟩ := Program.recorded_runFrom hcall
        builder.middlewares[p.index] (c := { p with index := p.index + 1 }) (s, record) []
        ⟨Nat.lt_succ_self p.index, rfl⟩
      have hhandler : builder.toChain.middlewares[p.index]? =
          some ⟨builder.middlewares[p.index], 0⟩ := by
        simp [toChain, hmem]
      have hrecorded : builder.recorded.toChain.middlewares[p.index]? =
          some ⟨builder.middlewares[p.index].recorded, 0⟩ := by
        simp [recorded, toChain, hmem]
      rw [MiddlewareChain.next_eq, MiddlewareChain.next_eq, hhandler, hrecorded]
      dsimp only [Program.run]
      rw [← hcontrol, hcalls, houtcome]
      exact ⟨rfl, hstate, rfl⟩

/-- **The builder runs the chain**: both recursions end, fewer than one call deeper than the list
is long, and leave the same context and outcome after the same actions. -/
theorem agrees_toChain (builder : MiddlewareChainBuilder σ ε) (ctx : σ) (more : ℕ) :
    let depth := builder.middlewares.length + 1 + more
    builder.run? depth ctx = some (builder.toChain.start ctx).2 ∧
      builder.toChain.next? depth 0 ctx =
        some ((builder.toChain.start ctx).1.index, (builder.toChain.start ctx).2) ∧
      ∃ performed : List (σ → σ),
        builder.recorded.run? depth (ctx, []) =
          some (((builder.toChain.start ctx).2.1, performed), (builder.toChain.start ctx).2.2) ∧
        (builder.recorded.toChain.start (ctx, [])).2 =
          (((builder.toChain.start ctx).2.1, performed), (builder.toChain.start ctx).2.2) := by
  intro depth
  have hdepth : builder.middlewares.length < depth := by omega
  have hchain : builder.toChain.middlewares.length - (0 : ℕ) < depth := by
    simpa [toChain] using hdepth
  have hrecorded : builder.recorded.middlewares.length < depth := by
    simpa [recorded] using hdepth
  obtain ⟨-, hstate, houtcome⟩ := builder.next_recorded [] {} ctx []
  have hstart : (builder.recorded.toChain.start (ctx, [])).2 =
      (((builder.toChain.start ctx).2.1, (builder.recorded.toChain.start (ctx, [])).2.1.2),
        (builder.toChain.start ctx).2.2) :=
    Prod.ext (Prod.ext hstate rfl) houtcome
  refine ⟨builder.run?_eq_start depth ctx hdepth, builder.toChain.next?_eq [] {} ctx hchain, _, ?_,
    hstart⟩
  rw [builder.recorded.run?_eq_start depth (ctx, []) hrecorded, ← hstart]

example : let marked : Program (List String) Unit :=
      .act (· ++ ["start;"]) fun _ => .call fun _ => .act (· ++ ["end;"]) fun _ => .ret
    ((MiddlewareChainBuilder.add {} marked).add marked).run? 3 [] =
      some (["start;", "start;", "end;", "end;"], none) := rfl

end MiddlewareChainBuilder

end Utils

end GinCpp
