import GinCpp.Callback.Program
import Mathlib.Order.Nat

/-!
# The middleware chain

`middleware/middleware_chain.cpp`.  A chain keeps one index.  A call of `next` starts the
middleware at the index, or the final handler behind the last one, and every middleware is given
the same `next`.

A middleware is an arbitrary program over the request, the response and whatever else it
captures, all of it the state `σ`.  Besides the index the model logs each middleware that was
started, when it is left: which middlewares were inside a call of their own `next` then, how its
calls of `next` ended, and how it ended itself.
-/

namespace GinCpp.Middleware

open Callback

universe u

variable {σ ε : Type u}

/-- `HttpHandler`: how it ends is `none` when it returns. -/
abbrev HttpHandler (σ ε : Type u) := σ → σ × Option ε

set_option linter.dupNamespace false in
/-- `middleware::Middleware`. -/
structure Middleware (σ ε : Type u) where
  handler : Program σ ε
  priority : Int := 0

/-- `middleware::MiddlewareChain`, less its index. -/
structure MiddlewareChain (σ ε : Type u) where
  middlewares : List (Middleware σ ε)
  finalHandler : HttpHandler σ ε

/-- One start of a middleware, or of the final handler, whose position is the number of
middlewares. -/
structure Entry (ε : Type u) where
  position : ℕ
  /-- The middlewares inside a call of `next` at the start, the innermost first. -/
  inside : List ℕ
  calls : List (Option ε)
  outcome : Option ε
  deriving DecidableEq, Repr

/-- `m_current_middleware_index` and the log. -/
structure Progress (ε : Type u) where
  index : ℕ := 0
  log : List (Entry ε) := []
  deriving DecidableEq, Repr

namespace MiddlewareChain

variable (chain : MiddlewareChain σ ε)

/-- The call of the final handler. -/
def finish (inside : List ℕ) (p : Progress ε) (s : σ) : Progress ε × σ × Option ε :=
  let (s', outcome) := chain.finalHandler s
  ({ p with log := p.log ++ [⟨chain.middlewares.length, inside, [], outcome⟩] }, s', outcome)

/-- `MiddlewareChain::next`, nested at most `fuel` deep. -/
def nextWithin : ℕ → List ℕ → Callee (Progress ε) σ ε
  | 0, inside, p, s => chain.finish inside p s
  | fuel + 1, inside, p, s =>
      match chain.middlewares[p.index]? with
      | some middleware =>
          let run := middleware.handler.run (nextWithin fuel (p.index :: inside))
            { p with index := p.index + 1 } s
          ({ run.control with
              log := run.control.log ++ [⟨p.index, inside, run.calls, run.outcome⟩] },
            run.state, run.outcome)
      | none => chain.finish inside p s

/-- `MiddlewareChain::next`.  No nesting is deeper than the list is long, see `next_eq`. -/
def next (inside : List ℕ) : Callee (Progress ε) σ ε :=
  chain.nextWithin chain.middlewares.length inside

/-- One call of `next` on a new chain. -/
def start (s : σ) : Progress ε × σ × Option ε := chain.next [] {} s

/-! ## The recursion of `next` -/

variable {chain} {inside : List ℕ} {p : Progress ε} {s : σ}

/-- The index only grows. -/
theorem index_le_nextWithin (fuel : ℕ) (inside : List ℕ) (p : Progress ε) (s : σ) :
    p.index ≤ (chain.nextWithin fuel inside p s).1.index := by
  induction fuel generalizing inside p s with
  | zero => exact le_rfl
  | succ fuel ih =>
      rw [nextWithin]
      split
      · next middleware _ =>
        have hrun : p.index < (middleware.handler.run (chain.nextWithin fuel (p.index :: inside))
            { p with index := p.index + 1 } s).control.index :=
          Program.run_control_induction (chain.nextWithin fuel (p.index :: inside))
            (P := fun p' _ => p.index < p'.index)
            (fun p' s' _ h => h.trans_le (ih _ p' s')) _ s (Nat.lt_succ_self p.index)
        exact hrun.le
      · exact le_rfl

theorem nextWithin_of_length_le {fuel : ℕ} (h : chain.middlewares.length ≤ p.index) :
    chain.nextWithin fuel inside p s = chain.finish inside p s := by
  cases fuel with
  | zero => rfl
  | succ fuel => rw [nextWithin, List.getElem?_eq_none h]

/-- Any fuel that covers the rest of the list gives the same run. -/
theorem nextWithin_eq {fuel fuel' : ℕ} (h : chain.middlewares.length ≤ fuel + p.index)
    (h' : chain.middlewares.length ≤ fuel' + p.index) :
    chain.nextWithin fuel inside p s = chain.nextWithin fuel' inside p s := by
  induction fuel generalizing inside p s fuel' with
  | zero =>
      rw [Nat.zero_add] at h
      rw [nextWithin_of_length_le h, nextWithin_of_length_le h]
  | succ fuel ih =>
      cases fuel' with
      | zero =>
          rw [Nat.zero_add] at h'
          rw [nextWithin_of_length_le h', nextWithin_of_length_le h']
      | succ fuel' =>
          rw [nextWithin, nextWithin]
          split
          · next middleware _ =>
            -- inside the middleware the index is beyond its position
            have hsame : ∀ p' : Progress ε, ∀ s', p.index < p'.index →
                chain.nextWithin fuel (p.index :: inside) p' s' =
                  chain.nextWithin fuel' (p.index :: inside) p' s' :=
              fun p' s' hlt => ih (by omega) (by omega)
            rw [Program.run_congr hsame
              (fun p' s' hlt => hlt.trans_le (index_le_nextWithin fuel _ p' s'))
              middleware.handler s (Nat.lt_succ_self p.index)]
          · rfl

/-- **The code's recursion**: what one call of `next` does. -/
theorem next_eq : chain.next inside p s =
    match chain.middlewares[p.index]? with
    | some middleware =>
        let run := middleware.handler.run (chain.next (p.index :: inside))
          { p with index := p.index + 1 } s
        ({ run.control with
            log := run.control.log ++ [⟨p.index, inside, run.calls, run.outcome⟩] },
          run.state, run.outcome)
    | none => chain.finish inside p s := by
  have hfuel : chain.next inside p s =
      chain.nextWithin (chain.middlewares.length + 1) inside p s :=
    nextWithin_eq (by omega) (by omega)
  rw [hfuel, nextWithin]
  rfl

/-- The run of the middleware at the index. -/
def runAt (chain : MiddlewareChain σ ε) (inside : List ℕ) (p : Progress ε) (s : σ)
    (h : p.index < chain.middlewares.length) : Run (Progress ε) σ ε :=
  (chain.middlewares[p.index]).handler.run (chain.next (p.index :: inside))
    { p with index := p.index + 1 } s

theorem next_of_lt (h : p.index < chain.middlewares.length) :
    chain.next inside p s =
      ({ (chain.runAt inside p s h).control with
          log := (chain.runAt inside p s h).control.log ++
            [⟨p.index, inside, (chain.runAt inside p s h).calls,
              (chain.runAt inside p s h).outcome⟩] },
        (chain.runAt inside p s h).state, (chain.runAt inside p s h).outcome) := by
  rw [next_eq, List.getElem?_eq_getElem h]
  rfl

/-- What its calls of `next` preserve holds at the end of a middleware. -/
theorem runAt_induction (inside : List ℕ) (s : σ) {P : Progress ε → List (Option ε) → Prop}
    (hcall : ∀ p' s' calls, P p' calls →
      P (chain.next (p.index :: inside) p' s').1
        (calls ++ [(chain.next (p.index :: inside) p' s').2.2]))
    (h : p.index < chain.middlewares.length) (hstart : P { p with index := p.index + 1 } []) :
    P (chain.runAt inside p s h).control (chain.runAt inside p s h).calls :=
  Program.run_control_induction _ hcall _ s hstart

theorem next_of_le (h : chain.middlewares.length ≤ p.index) :
    chain.next inside p s = chain.finish inside p s :=
  nextWithin_of_length_le h

/-- Induction over a run of `next`: for a middleware, over everything that starts behind it. -/
theorem next_induction (chain : MiddlewareChain σ ε)
    {motive : List ℕ → Progress ε → σ → Prop}
    (final : ∀ inside p s, chain.middlewares.length ≤ p.index → motive inside p s)
    (middleware : ∀ inside p s, p.index < chain.middlewares.length →
      (∀ inside' p' s', p.index < p'.index → motive inside' p' s') → motive inside p s)
    (inside : List ℕ) (p : Progress ε) (s : σ) : motive inside p s := by
  induction hrest : chain.middlewares.length - p.index using Nat.strongRecOn
    generalizing inside p s with
  | ind rest ih =>
      by_cases hlt : p.index < chain.middlewares.length
      · refine middleware inside p s hlt fun inside' p' s' hlt' => ?_
        exact ih _ (by omega) inside' p' s' rfl
      · exact final inside p s (by omega)

/-! ## What a call of `next` leaves -/

theorem index_lt_next (h : p.index < chain.middlewares.length) :
    p.index < (chain.next inside p s).1.index := by
  rw [next_of_lt h]
  exact runAt_induction inside s (P := fun p' _ => p.index < p'.index)
    (fun p' s' _ hp' => hp'.trans_le (index_le_nextWithin _ _ p' s')) h (Nat.lt_succ_self _)

theorem index_next_le (h : p.index ≤ chain.middlewares.length) :
    (chain.next inside p s).1.index ≤ chain.middlewares.length := by
  induction inside, p, s using chain.next_induction with
  | final inside p s hle =>
      rw [next_of_le hle]
      exact h
  | middleware inside p s hlt ih =>
      rw [next_of_lt hlt]
      refine And.right (runAt_induction inside s
        (P := fun p' _ => p.index < p'.index ∧ p'.index ≤ chain.middlewares.length)
        (fun p' s' _ ⟨hp', hle⟩ => ?_) hlt ⟨Nat.lt_succ_self _, hlt⟩)
      exact ⟨hp'.trans_le (index_le_nextWithin _ _ p' s'), ih (p.index :: inside) p' s' hp' hle⟩

/-- The entry of a middleware follows what is logged while it runs. -/
theorem log_next_of_lt (hlt : p.index < chain.middlewares.length) {D : List (Entry ε)}
    (hlog : (chain.runAt inside p s hlt).control.log = p.log ++ D) :
    (chain.next inside p s).1.log = p.log ++ (D ++ [⟨p.index, inside,
      (chain.runAt inside p s hlt).calls, (chain.runAt inside p s hlt).outcome⟩]) := by
  rw [next_of_lt hlt, ← List.append_assoc, ← hlog]

/-- Every call of `next` is logged at its end. -/
theorem log_next (chain : MiddlewareChain σ ε) (inside : List ℕ) (p : Progress ε) (s : σ) :
    ∃ D e, (chain.next inside p s).1.log = p.log ++ (D ++ [e]) ∧
      e.position = min p.index chain.middlewares.length ∧ e.inside = inside := by
  induction inside, p, s using chain.next_induction with
  | final inside p s hle =>
      rw [next_of_le hle, min_eq_right hle]
      exact ⟨[], ⟨_, inside, [], _⟩, rfl, rfl, rfl⟩
  | middleware inside p s hlt ih =>
      obtain ⟨-, D, hD⟩ := runAt_induction inside s
        (P := fun p' _ => p.index < p'.index ∧ ∃ D, p'.log = p.log ++ D)
        (fun p' s' _ ⟨hp', D, hD⟩ => by
          obtain ⟨E, e, hE, -⟩ := ih (p.index :: inside) p' s' hp'
          refine ⟨hp'.trans_le (index_le_nextWithin _ _ p' s'), D ++ (E ++ [e]), ?_⟩
          rw [← List.append_assoc, ← hD]
          exact hE)
        hlt ⟨Nat.lt_succ_self _, [], (List.append_nil _).symm⟩
      rw [min_eq_left hlt.le]
      exact ⟨D, _, log_next_of_lt hlt hD, rfl, rfl⟩

end MiddlewareChain

end GinCpp.Middleware
