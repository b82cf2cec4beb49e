import GinCpp.Callback.Simulation
import GinCpp.Middleware.Chain

/-!
# The chain is nested composition

`compose` is what a chain is for: the first middleware is given the composition of those behind it
as its callback.  `next` computes it with an index that all callbacks share, as long as the
middlewares call `next` at most once: `next_eq_compose` ties the index to the nesting, and
`nested_next` reads the order of the starts and the ends off the log.
-/

namespace GinCpp.Middleware

open Callback

universe u

variable {σ ε : Type u}

/-- `m₁(m₂(…mₙ(final)…))`. -/
def compose : List (Middleware σ ε) → HttpHandler σ ε → HttpHandler σ ε
  | [], finalHandler, s => finalHandler s
  | middleware :: inner, finalHandler, s =>
      let run := middleware.handler.run
        (fun (_ : PUnit) s => (PUnit.unit, compose inner finalHandler s)) PUnit.unit s
      (run.state, run.outcome)

/-- The positions from `first` up to `last` are entered in order, each inside the one before, and
left in reverse order.  All but the last have called `next`. -/
structure Nested (inside : List ℕ) (first last : ℕ) (log : List (Entry ε)) : Prop where
  positions : log.map (·.position) = (List.range' first (last + 1 - first)).reverse
  inside : ∀ e ∈ log, e.inside = (List.range' first (e.position - first)).reverse ++ inside
  calls : ∀ e ∈ log, e.calls.length = if e.position < last then 1 else 0

namespace Nested

variable {inside : List ℕ} {first last : ℕ} {log : List (Entry ε)} {e : Entry ε}

theorem singleton (hposition : e.position = first) (hinside : e.inside = inside)
    (hcalls : e.calls = []) : Nested inside first first [e] where
  positions := by simp [hposition]
  inside := List.forall_mem_singleton.mpr (by simp [hposition, hinside])
  calls := List.forall_mem_singleton.mpr (by simp [hposition, hcalls])

/-- The entry of a middleware around what its call of `next` starts. -/
theorem concat (h : Nested (first :: inside) (first + 1) last log) (hlast : first < last)
    (hposition : e.position = first) (hinside : e.inside = inside) (hcalls : e.calls.length = 1) :
    Nested inside first last (log ++ [e]) where
  positions := by
    have hlength : last + 1 - first = (last + 1 - (first + 1)) + 1 := by omega
    rw [List.map_append, h.positions, hlength, List.range'_succ, List.reverse_cons, ← hposition]
    rfl
  inside := by
    refine List.forall_mem_append.mpr ⟨fun e' he' => ?_, List.forall_mem_singleton.mpr ?_⟩
    · have hmem : e'.position ∈ log.map (·.position) := List.mem_map_of_mem he'
      rw [h.positions, List.mem_reverse, List.mem_range'_1] at hmem
      have hlength : e'.position - first = (e'.position - (first + 1)) + 1 := by omega
      rw [h.inside e' he', hlength, List.range'_succ, List.reverse_cons, List.append_assoc]
      rfl
    · rw [hposition, hinside, Nat.sub_self]
      rfl
  calls := by
    refine List.forall_mem_append.mpr ⟨h.calls, List.forall_mem_singleton.mpr ?_⟩
    rw [hcalls, hposition, if_pos hlast]

end Nested

namespace MiddlewareChain

variable {chain : MiddlewareChain σ ε}

/-- At most one call of `next` in each middleware. -/
def CallsOnce (chain : MiddlewareChain σ ε) : Prop :=
  ∀ middleware ∈ chain.middlewares, middleware.handler.Once fun _ => True

/-- Exactly one call of `next` in each middleware. -/
def CallsExactlyOnce (chain : MiddlewareChain σ ε) : Prop :=
  ∀ middleware ∈ chain.middlewares, middleware.handler.ExactlyOnce

theorem CallsExactlyOnce.callsOnce (h : chain.CallsExactlyOnce) : chain.CallsOnce :=
  fun middleware hmem => (h middleware hmem).once

/-- **The index is the nesting depth**: a call of `next` runs the composition of the middlewares
from the index on. -/
theorem next_eq_compose (honce : chain.CallsOnce) (inside : List ℕ) (p : Progress ε) (s : σ) :
    (chain.next inside p s).2 =
      compose (chain.middlewares.drop p.index) chain.finalHandler s := by
  induction inside, p, s using chain.next_induction with
  | final inside p s hle =>
      rw [next_of_le hle, List.drop_eq_nil_of_le hle]
      rfl
  | middleware inside p s hlt ih =>
      -- the callback is called with the index that the start has left
      have hcallee : ∀ s', (chain.next (p.index :: inside) { p with index := p.index + 1 } s').2 =
          compose (chain.middlewares.drop (p.index + 1)) chain.finalHandler s' :=
        fun s' => ih _ _ s' (Nat.lt_succ_self _)
      obtain ⟨hstate, houtcome⟩ := (honce _ (List.getElem_mem hlt)).run_eq_of_callee_eq
        (chain.next (p.index :: inside)) (fun (_ : PUnit) s' =>
          (PUnit.unit, compose (chain.middlewares.drop (p.index + 1)) chain.finalHandler s'))
        { p with index := p.index + 1 } PUnit.unit hcallee s
      rw [next_of_lt hlt, List.drop_eq_getElem_cons hlt, compose]
      exact Prod.ext hstate houtcome

/-- A middleware is logged behind all that its calls of `next` have started. -/
theorem exists_entry_next (inside : List ℕ) {p : Progress ε} (s : σ)
    (h : p.index < chain.middlewares.length) :
    ∃ e : Entry ε, (chain.next inside p s).1.log = (chain.runAt inside p s h).control.log ++ [e] ∧
      e.position = p.index ∧ e.inside = inside ∧ e.calls = (chain.runAt inside p s h).calls := by
  rw [next_of_lt h]
  exact ⟨⟨_, inside, _, _⟩, rfl, rfl, rfl, rfl⟩

/-- The log of a call of `next`. -/
theorem nested_next (honce : chain.CallsOnce) (inside : List ℕ) (p : Progress ε) (s : σ)
    (h : p.index ≤ chain.middlewares.length) :
    ∃ D last, (chain.next inside p s).1.log = p.log ++ D ∧
      p.index ≤ last ∧ last ≤ chain.middlewares.length ∧ Nested inside p.index last D ∧
      (chain.CallsExactlyOnce → last = chain.middlewares.length) := by
  induction inside, p, s using chain.next_induction with
  | final inside p s hle =>
      have heq : chain.middlewares.length = p.index := le_antisymm hle h
      rw [next_of_le hle]
      exact ⟨[⟨_, inside, [], _⟩], p.index, rfl, le_rfl, h, Nested.singleton heq rfl rfl,
        fun _ => heq.symm⟩
  | middleware inside p s hlt ih =>
      obtain ⟨e, hentry, hposition, hinside, hcalls⟩ := exists_entry_next inside s hlt
      rcases (honce _ (List.getElem_mem hlt)).run_cases (chain.next (p.index :: inside))
          { p with index := p.index + 1 } s with ⟨hcontrol, hnone⟩ | ⟨s', hcontrol, hone⟩
      · -- no call of `next`: the last that is started
        refine ⟨[e], p.index, ?_, le_rfl, h, ?_, fun hexactly => ?_⟩
        · rw [hentry, runAt, hcontrol]
        · exact Nested.singleton hposition hinside (hcalls.trans hnone)
        · have hcall := (hexactly _ (List.getElem_mem hlt)).length_calls
            (chain.next (p.index :: inside)) { p with index := p.index + 1 } s
          rw [hnone] at hcall
          cases hcall
      · obtain ⟨D, last, hlog, hfirst, hlast, hnested, hexactly⟩ :=
          ih (p.index :: inside) { p with index := p.index + 1 } s' (Nat.lt_succ_self _) hlt
        refine ⟨D ++ [e], last, ?_, Nat.le_of_succ_le hfirst, hlast, ?_, hexactly⟩
        · rw [hentry, ← List.append_assoc, ← hlog, runAt, hcontrol]
        · refine hnested.concat hfirst hposition hinside ?_
          rw [hcalls, runAt, hone]
          rfl

/-- **A chain is the composition of its middlewares** if each calls `next` at most once.  What is
started is a prefix of the list and the final handler, nested in order. -/
theorem start_eq_compose (chain : MiddlewareChain σ ε) (honce : chain.CallsOnce) (s : σ) :
    (chain.start s).2 = compose chain.middlewares chain.finalHandler s ∧
      ∃ last ≤ chain.middlewares.length, Nested [] 0 last (chain.start s).1.log := by
  refine ⟨next_eq_compose honce [] {} s, ?_⟩
  obtain ⟨D, last, hlog, -, hlast, hnested, -⟩ :=
    chain.nested_next honce [] {} s (Nat.zero_le _)
  refine ⟨last, hlast, ?_⟩
  rw [start, hlog]
  exact hnested

/-- With exactly one call in each, all are started. -/
theorem nested_start (h : chain.CallsExactlyOnce) (s : σ) :
    Nested [] 0 chain.middlewares.length (chain.start s).1.log := by
  obtain ⟨D, last, hlog, -, -, hnested, hlast⟩ :=
    chain.nested_next h.callsOnce [] {} s (Nat.zero_le _)
  rw [start, hlog, ← hlast h]
  exact hnested

end MiddlewareChain

/-- Push a value, call `next`, push another. -/
def pushing (before after : ℕ) : Middleware (List ℕ) Unit where
  handler := .act (· ++ [before]) fun _ => .call fun
    | none => .act (· ++ [after]) fun _ => .ret
    | some e => .throw e

theorem once_pushing (before after : ℕ) : (pushing before after).handler.Once fun _ => True :=
  fun _ => ⟨⟨fun _ _ => trivial, fun _ => trivial⟩, fun _ => trivial⟩

/-- Two middlewares around a final handler that pushes as well. -/
def pushingChain : MiddlewareChain (List ℕ) Unit :=
  ⟨[pushing 1 10, pushing 2 20], fun s => (s ++ [3], none)⟩

theorem pushingChain_start : (pushingChain.start []).2 = ([1, 2, 3, 20, 10], none) ∧
    (pushingChain.start []).2 = compose pushingChain.middlewares pushingChain.finalHandler [] ∧
    ∃ last ≤ 2, Nested [] 0 last (pushingChain.start []).1.log := by
  refine ⟨rfl, MiddlewareChain.start_eq_compose pushingChain ?_ []⟩
  exact List.forall_mem_cons.mpr
    ⟨once_pushing 1 10, List.forall_mem_singleton.mpr (once_pushing 2 20)⟩

end GinCpp.Middleware
