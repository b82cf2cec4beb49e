import GinCpp.Routing.Spelling

/-!
# The order of the registrations

A registration fails for a name that is taken and for a path that cannot be read, and for nothing
else.  Neither depends on the order, so that registrations that succeed do so in any order:
`Built.exists_of_perm`.
-/

namespace GinCpp.Routing

open KeyedTree

variable {H M : Type} {placement : Placement Str (Node H M)} {errorHandler : M}
  {regs regs' : List (Registration H M)} {router router' : Router H M}

/-- The name and the path of a named route. -/
def Registration.naming : Registration H M → Option (Str × Str)
  | .route r => if r.name ≠ [] then some (r.name, r.path) else none
  | .mount _ _ => none

/-- The path can be read. -/
def Registration.Readable : Registration H M → Prop
  | .route r => r.path = ascii "/" ∨ (readPath r.path).isSome
  | .mount _ _ => True

namespace Router

theorem namedRoutes_setTree (router : Router H M) (method : Str) (tree : TrieNode H M) :
    (router.setTree method tree).namedRoutes = router.namedRoutes := rfl

theorem namedRoutes_nameRoute (router : Router H M) (r : Route H M) :
    (router.nameRoute r).namedRoutes =
      router.namedRoutes ++ (Registration.route r).naming.toList := by
  unfold nameRoute Registration.naming
  dsimp only
  split_ifs
  · rfl
  · exact (List.append_nil _).symm

/-- **When a registration succeeds.** -/
theorem add_eq_ok_iff {reg : Registration H M} :
    (∃ router', router.add placement reg = .ok router') ↔
      (∀ named ∈ reg.naming, named.1 ∉ router.namedRoutes.map Prod.fst) ∧ reg.Readable := by
  cases reg with
  | mount path baseDir =>
      refine iff_of_true ⟨_, rfl⟩ ⟨fun named hnamed => ?_, trivial⟩
      cases hnamed
  | route r =>
      have hfree : (∀ named ∈ (Registration.route r).naming,
          named.1 ∉ router.namedRoutes.map Prod.fst) ↔
            ¬ (r.name ≠ [] ∧ (router.namedRoutes.find? (·.1 = r.name)).isSome) := by
        unfold Registration.naming
        by_cases hname : r.name = [] <;> simp [hname]
      rw [hfree, add, addRoute]
      by_cases htaken : r.name ≠ [] ∧ (router.namedRoutes.find? (·.1 = r.name)).isSome
      · rw [if_pos htaken]
        refine iff_of_false (fun h => ?_) fun h => h.1 htaken
        obtain ⟨router', hthrows⟩ := h
        cases hthrows
      · rw [if_neg htaken, Registration.Readable]
        by_cases hroot : r.path = ascii "/"
        · dsimp only
          rw [if_pos hroot]
          exact iff_of_true ⟨_, rfl⟩ ⟨htaken, Or.inl hroot⟩
        · dsimp only
          rw [if_neg hroot]
          cases readPath r.path with
          | none =>
              refine iff_of_false (fun h => ?_) (by simp [hroot])
              obtain ⟨router', hthrows⟩ := h
              cases hthrows
          | some segments => exact iff_of_true ⟨_, rfl⟩ ⟨htaken, Or.inr rfl⟩

theorem namedRoutes_add {reg : Registration H M} (h : router.add placement reg = .ok router') :
    router'.namedRoutes = router.namedRoutes ++ reg.naming.toList := by
  cases reg with
  | mount path baseDir =>
      obtain rfl := Except.ok.inj h
      exact (List.append_nil _).symm
  | route r =>
      simp only [add, addRoute] at h
      split_ifs at h with htaken hroot
      · obtain rfl := Except.ok.inj h
        rw [namedRoutes_setTree, namedRoutes_nameRoute]
      · split at h
        · cases h
        · obtain rfl := Except.ok.inj h
          rw [namedRoutes_setTree, namedRoutes_nameRoute]

end Router

/-- The names that some registrations take. -/
def namings (regs : List (Registration H M)) : List (Str × Str) :=
  regs.filterMap Registration.naming

theorem namings_append (regs : List (Registration H M)) (reg : Registration H M) :
    namings (regs ++ [reg]) = namings regs ++ reg.naming.toList := by
  rw [namings, List.filterMap_append, namings]
  cases hnaming : reg.naming <;> simp [hnaming]

/-- The names of a router are those of its registrations. -/
theorem Built.namedRoutes_eq (hbuilt : Built placement errorHandler regs router) :
    router.namedRoutes = namings regs := by
  induction hbuilt with
  | construct => rfl
  | use middleware hbuilt ih => exact ih
  | add hbuilt hadd ih => rw [Router.namedRoutes_add hadd, ih, namings_append]

/-- The last registration was made of a router with the others. -/
theorem Built.exists_add {reg : Registration H M}
    (hbuilt : Built placement errorHandler (regs ++ [reg]) router) :
    ∃ before after, Built placement errorHandler regs before ∧
      before.add placement reg = .ok after := by
  generalize hregs : regs ++ [reg] = all at hbuilt
  induction hbuilt with
  | construct => simp at hregs
  | use middleware hbuilt ih => exact ih hregs
  | add hbuilt hadd ih =>
      obtain ⟨rfl, hlast⟩ := List.append_inj' hregs rfl
      obtain rfl := (List.cons.inj hlast).1
      exact ⟨_, _, hbuilt, hadd⟩

/-- **Which registrations succeed.** -/
theorem exists_built_iff (placement : Placement Str (Node H M)) (errorHandler : M) :
    (∃ router, Built placement errorHandler regs router) ↔
      ((namings regs).map Prod.fst).Nodup ∧ ∀ reg ∈ regs, reg.Readable := by
  induction regs using List.reverseRecOn with
  | nil => exact iff_of_true ⟨_, .construct⟩ ⟨List.nodup_nil, nofun⟩
  | append_singleton regs reg ih =>
      have hnodup : ((namings (regs ++ [reg])).map Prod.fst).Nodup ↔
          ((namings regs).map Prod.fst).Nodup ∧
            ∀ named ∈ reg.naming, named.1 ∉ (namings regs).map Prod.fst := by
        rw [namings_append]
        cases reg.naming with
        | none => simp
        | some named =>
            rw [Option.toList_some, List.map_append, List.map_singleton, List.nodup_append]
            simp only [List.nodup_singleton, true_and, List.mem_singleton, forall_eq]
            refine and_congr_right fun _ => ?_
            simp only [Option.mem_some_iff, forall_eq']
            exact ⟨fun h hmem => h named.1 hmem rfl, fun h name hname heq => h (heq ▸ hname)⟩
      rw [hnodup, List.forall_mem_append, List.forall_mem_singleton]
      constructor
      · rintro ⟨router, hbuilt⟩
        obtain ⟨before, after, hbefore, hadd⟩ := hbuilt.exists_add
        obtain ⟨hnames, hreadable⟩ := ih.mp ⟨before, hbefore⟩
        obtain ⟨hfree, hread⟩ := Router.add_eq_ok_iff.mp ⟨after, hadd⟩
        rw [hbefore.namedRoutes_eq] at hfree
        exact ⟨⟨hnames, hfree⟩, hreadable, hread⟩
      · rintro ⟨⟨hnames, hfree⟩, hreadable, hread⟩
        obtain ⟨before, hbefore⟩ := ih.mpr ⟨hnames, hreadable⟩
        rw [← hbefore.namedRoutes_eq] at hfree
        obtain ⟨after, hadd⟩ := Router.add_eq_ok_iff.mpr ⟨hfree, hread⟩
        exact ⟨after, .add hbefore hadd⟩

/-- **The order of the registrations does not matter for their success.** -/
theorem Built.exists_of_perm (hbuilt : Built placement errorHandler regs router)
    (hperm : regs'.Perm regs) : ∃ router', Built placement errorHandler regs' router' := by
  obtain ⟨hnodup, hreadable⟩ := (exists_built_iff placement errorHandler).mp ⟨router, hbuilt⟩
  refine (exists_built_iff placement errorHandler).mpr ⟨?_, fun reg hreg => ?_⟩
  · exact ((hperm.filterMap _).map _).nodup_iff.mpr hnodup
  · exact hreadable reg (hperm.mem_iff.mp hreg)

end GinCpp.Routing
