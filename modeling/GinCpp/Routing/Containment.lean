import GinCpp.Routing.Coverage

/-!
# Exception containment

`std::sort` puts the higher priorities last, so that the error handler with its priority of 100 is
the innermost middleware of every chain.  It contains what the route handler throws, and nothing
that another middleware throws: `Built.contained_iff`.
-/

namespace GinCpp.Routing

open Http Middleware

variable {E : Type}

/-- The response to an error. -/
def Failed (s : Exchange E) : Prop := s.response.status = .internalServerError

/-- **Exceptions are contained.**  If anything was thrown, the handler of the match returns, with
the response to an error. -/
def Invocation.Contained (run : Invocation E) : Prop :=
  Raised run.log → run.outcome = none ∧ Failed run.state

theorem failed_renderException (e : Exception) (s : Exchange E) : Failed (renderException e s) :=
  ErrorRenderer.render_status _ _ _ _

/-- A middleware of a higher priority than all others is sorted to the end. -/
theorem sort_highest (sorting : Sorting E) {m : Layer E} {others : List (Layer E)}
    (hhighest : ∀ other ∈ others, other.priority < m.priority) :
    ∃ outer, sorting.sort (m :: others) = outer ++ [m] ∧ outer.Perm others := by
  have hperm := sorting.perm (m :: others)
  obtain ⟨outer, inner, hsplit⟩ := List.append_of_mem (hperm.mem_iff.mpr List.mem_cons_self)
  have hothers : (outer ++ inner).Perm others := by
    rw [hsplit] at hperm
    exact (List.perm_middle.symm.trans hperm).cons_inv
  have hnone : inner = [] := by
    refine List.eq_nil_iff_forall_not_mem.mpr fun other hother => ?_
    have hsorted := sorting.sorted (m :: others)
    rw [hsplit, List.pairwise_append, List.pairwise_cons] at hsorted
    have hle := hsorted.2.1.1 other hother
    have hlt := hhighest other (hothers.mem_iff.mp (List.mem_append_right outer hother))
    omega
  subst hnone
  rw [List.append_nil] at hothers
  exact ⟨outer, hsplit, hothers⟩

variable {placement : KeyedTree.Placement Str (Node (Handler E) (Layer E))}
  {regs : List (Registration (Handler E) (Layer E))} {router : Router (Handler E) (Layer E)}

/-- **When exceptions are contained.**  Where the other middlewares call `next` at most once and
leave the response to an error as it is: if none of them throws; and if they do not catch either,
only then. -/
theorem Built.contained_iff (hbuilt : Built placement createErrorHandler regs router)
    (files : Str → Option Str) (sorting : Sorting E) (lib : Library (Handler E) (Layer E))
    {request : Request} {params : Params} {node : Node (Handler E) (Layer E)} (s : Exchange E)
    (hmatch : (router.matchRoute lib request params).1 = .route node)
    (hpriority : ∀ m ∈ router.globalMiddlewares.tail ++ node.middlewares,
      0 ≤ m.priority ∧ m.priority ≤ 99)
    (honce : ∀ m ∈ router.globalMiddlewares.tail ++ node.middlewares, m.handler.Once Failed) :
    let others := router.globalMiddlewares.tail ++ node.middlewares
    let run := (router.matchRoute lib request params).1.invoke files sorting
      router.globalMiddlewares s
    (Calm others.length run.log → run.Contained) ∧
      ((∀ m ∈ others, m.handler.PassesOn) → (run.Contained ↔ Calm others.length run.log)) := by
  intro others run
  obtain ⟨further, hglobals⟩ := hbuilt.exists_globalMiddlewares
  have hall : router.globalMiddlewares ++ node.middlewares = createErrorHandler :: others := by
    dsimp only [others]
    rw [hglobals]
    rfl
  have hhighest : ∀ other ∈ others, other.priority < (createErrorHandler : Layer E).priority := by
    intro other hother
    have hbound := (hpriority other hother).2
    have hhundred : (createErrorHandler : Layer E).priority = 100 := rfl
    omega
  -- the highest priority is sorted to the end, so the error handler is the innermost
  obtain ⟨outer, hsort, hperm⟩ := sort_highest sorting hhighest
  have hmiddlewares : (chainOf sorting router.globalMiddlewares node).middlewares =
      outer ++ [catching renderException 100] := by
    rw [chainOf, hall]
    exact hsort
  have hrun : run = Dispatch.invoke files sorting router.globalMiddlewares s (.route node) := by
    dsimp only [run]
    rw [hmatch]
  obtain ⟨D, hlog, hcontained, hcalm⟩ := MiddlewareChain.contained_next hmiddlewares
    (fun m hm => honce m (hperm.mem_iff.mp hm)) failed_renderException [] {} s (Nat.zero_le _)
  have hD : run.log = D := by
    rw [hrun]
    exact hlog
  have henough : Calm others.length run.log → run.Contained := by
    intro h hraised
    rw [hD, ← hperm.length_eq] at h
    obtain ⟨hreturned, hfailed⟩ := hcontained h
    rw [hD] at hraised
    rw [hrun]
    exact ⟨hreturned, hfailed hraised⟩
  refine ⟨henough, fun hpass => ⟨fun h => ?_, henough⟩⟩
  rw [hD, ← hperm.length_eq]
  -- an exception that gets out of a middleware shows in the run, if all pass it on
  by_cases hraised : Raised run.log
  · have hreturned := (h hraised).1
    rw [hrun] at hreturned
    exact hcalm (fun m hm => hpass m (hperm.mem_iff.mp hm)) hreturned
  · intro e he _
    have hnone : ¬ e.outcome.isSome := fun hsome => hraised ⟨e, hD ▸ he, hsome⟩
    simpa using hnone

/-- A middleware that calls `next` and nothing else. -/
def passing : Layer Unit where
  handler := .call fun
    | none => .ret
    | some e => .throw e

/-- A route whose handler throws. -/
def failingRoute : Registration (Handler Unit) (Layer Unit) :=
  .route {
    method := ascii "GET", path := ascii "/test", middlewares := [passing],
    handler := some fun s => (s, some .other) }

/-- A route with a middleware that throws. -/
def guardedRoute : Registration (Handler Unit) (Layer Unit) :=
  .route {
    method := ascii "GET", path := ascii "/test", middlewares := [{ handler := .throw .other }],
    handler := some fun s => (s, none) }

/-- The exception of the route handler is contained. -/
theorem contained_failingRoute :
    (invokeGet (.build .last createErrorHandler [failingRoute]) "/test").Contained := by
  have hbuilt : Built .last createErrorHandler [failingRoute]
      (.build .last createErrorHandler [failingRoute]) := .add .construct rfl
  refine (hbuilt.contained_iff appScript .stable (.stable digits) ⟨getOf "/test",
    .stockResponse .ok, ()⟩ rfl (List.forall_mem_singleton.mpr ?_)
    (List.forall_mem_singleton.mpr ?_)).1 ?_
  · exact ⟨le_rfl, by decide⟩
  · exact ⟨trivial, fun e => trivial⟩
  · have hlog : ∀ e ∈ (invokeGet (.build .last createErrorHandler [failingRoute]) "/test").log,
        e.position < 1 → e.outcome = none := by decide +kernel
    exact hlog

/-- The exception of the middleware is not. -/
theorem not_contained_guardedRoute :
    ¬ (invokeGet (.build .last createErrorHandler [guardedRoute]) "/test").Contained := by
  intro hcontained
  have hthrown : (invokeGet (.build .last createErrorHandler [guardedRoute]) "/test").log =
      [⟨0, [], [], some .other⟩] := by decide +kernel
  have hraised :
      Raised (invokeGet (.build .last createErrorHandler [guardedRoute]) "/test").log := by
    rw [hthrown]
    exact ⟨_, List.mem_singleton_self _, rfl⟩
  have hreturned := (hcontained hraised).1
  revert hreturned
  decide +kernel

end GinCpp.Routing
