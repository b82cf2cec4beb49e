import GinCpp.Assignment.Basic
import GinCpp.Http.Message
import Mathlib.Data.List.Chain
import Mathlib.Data.List.Pairwise

/-!
# Query strings

The loop of `get_query_params` reads a component from its last equals sign, and a component without
one is taken for a further value of the key before.  `Request.agrees` says when that makes no
difference.
-/

namespace GinCpp.Http

open Assignment

namespace QueryString

abbrev ASSIGN : UInt8 := '='.toUInt8
abbrev SEPARATOR : UInt8 := '&'.toUInt8

/-! ## What the loop assigns -/

/-- The loop on a character of a component: the key, and the text since the last separator. -/
def scan (read : Str × Str) (c : UInt8) : Str × Str :=
  if c = ASSIGN then (read.2, []) else (read.1, read.2 ++ [c])

/-- The key behind a component. -/
def keyAfter (key component : Str) : Str :=
  if ASSIGN ∈ component then lastName ASSIGN component else key

/-- The assignments of the loop, one for each component. -/
def assigned (key : Str) : List Str → List (Str × Str)
  | [] => []
  | component :: components =>
      (keyAfter key component, lastValue ASSIGN component) ::
        assigned (keyAfter key component) components

variable {key component previous : Str} {components : List Str} {m m' : Str → Option Str}

theorem keyAfter_concat_self (key component : Str) :
    keyAfter key (component ++ [ASSIGN]) = lastValue ASSIGN component := by
  rw [keyAfter, if_pos (List.mem_append_right _ List.mem_cons_self), lastName_concat_self]

theorem keyAfter_concat {c : UInt8} (h : c ≠ ASSIGN) (key component : Str) :
    keyAfter key (component ++ [c]) = keyAfter key component := by
  have hmem : ASSIGN ∈ component ++ [c] ↔ ASSIGN ∈ component := by
    simpa using fun hc : ASSIGN = c => absurd hc.symm h
  rw [keyAfter, keyAfter, lastName_concat h]
  simp only [hmem]

theorem foldl_scan (key component : Str) : component.foldl scan (key, []) =
    (keyAfter key component, lastValue ASSIGN component) := by
  induction component using List.reverseRecOn with
  | nil => rfl
  | append_singleton component c ih =>
      rw [List.foldl_concat, ih, scan]
      split_ifs with hc
      · subst hc
        rw [keyAfter_concat_self, lastValue_concat_self]
      · rw [keyAfter_concat hc, lastValue_concat hc]

theorem queryLoop_append (h : SEPARATOR ∉ component) (read : Str × Str) (rest : Str) :
    Request.queryLoop read.1 read.2 m (component ++ rest) =
      Request.queryLoop (component.foldl scan read).1 (component.foldl scan read).2 m rest := by
  induction component generalizing read with
  | nil => rfl
  | cons c component ih =>
      obtain ⟨hc, hcomponent⟩ : SEPARATOR ≠ c ∧ SEPARATOR ∉ component := by simpa using h
      rw [List.foldl_cons, ← ih hcomponent, List.cons_append, Request.queryLoop, scan]
      by_cases hassign : c = ASSIGN
      · rw [if_pos hassign, if_pos hassign]
      · rw [if_neg hassign, if_neg hassign, if_neg (Ne.symm hc)]

/-- **The loop, component by component.** -/
theorem queryLoop_eq (key : Str) (m : Str → Option Str) (query : Str) :
    Request.queryLoop key [] m query =
      assignAll m (assigned key (query.splitOn SEPARATOR)) := by
  induction hlength : query.length using Nat.strongRecOn generalizing key m query with
  | ind length ih =>
      by_cases hsep : SEPARATOR ∈ query
      · obtain ⟨component, rest, rfl, hcomponent⟩ := List.eq_append_cons_of_mem hsep
        have hrest := ih rest.length (by simp at hlength; omega) (keyAfter key component)
          (Function.update m (keyAfter key component) (some (lastValue ASSIGN component))) rest rfl
        rw [queryLoop_append hcomponent (key, []), foldl_scan, Request.queryLoop,
          if_neg (by decide), if_pos rfl, hrest, List.splitOn_append_cons_self,
          List.splitOn_eq_singleton hcomponent]
        rfl
      · have hall := queryLoop_append (m := m) hsep (key, []) []
        rw [List.append_nil] at hall
        rw [hall, foldl_scan, List.splitOn_eq_singleton hsep]
        rfl

theorem assigned_append (key : Str) (front components : List Str) :
    assigned key (front ++ components) =
      assigned key front ++ assigned (front.foldl keyAfter key) components := by
  induction front generalizing key with
  | nil => rfl
  | cons component front ih =>
      rw [List.cons_append, assigned, ih]
      rfl

/-- The key that is read from the last equals sign. -/
theorem keyAfter_of_mem (h : ASSIGN ∈ component) (key : Str) :
    keyAfter key component = lastName ASSIGN component := if_pos h

/-- An assignment is made at the end of a component, with the key that is there then. -/
theorem exists_of_mem_assigned {kv : Str × Str} (h : kv ∈ assigned key components) :
    ∃ component ∈ components, ∃ key', kv = (keyAfter key' component, lastValue ASSIGN component) ∧
      (key' = key ∨ ∃ earlier ∈ components, ASSIGN ∈ earlier ∧
        key' = lastName ASSIGN earlier) := by
  induction components generalizing key with
  | nil => cases h
  | cons first components ih =>
      rcases List.mem_cons.mp h with rfl | hmem
      · exact ⟨first, List.mem_cons_self, key, rfl, Or.inl rfl⟩
      · obtain ⟨component, hcomponent, key', rfl, hkey⟩ := ih hmem
        refine ⟨component, List.mem_cons_of_mem _ hcomponent, key', rfl, ?_⟩
        rcases hkey with rfl | ⟨earlier, hearlier, hlast⟩
        · by_cases hassign : ASSIGN ∈ first
          · exact Or.inr ⟨first, List.mem_cons_self, hassign, keyAfter_of_mem hassign key⟩
          · exact Or.inl (if_neg hassign)
        · exact Or.inr ⟨earlier, List.mem_cons_of_mem _ hearlier, hlast⟩

/-- No value has an equals sign, and every key is one in front of an equals sign. -/
theorem of_mem_assigned {kv : Str × Str} (h : kv ∈ assigned key components) :
    ASSIGN ∉ kv.2 ∧ (kv.1 = key ∨
      ∃ component ∈ components, ASSIGN ∈ component ∧ lastName ASSIGN component = kv.1) := by
  obtain ⟨component, hmem, key', rfl, hkey⟩ := exists_of_mem_assigned h
  refine ⟨notMem_lastValue component, ?_⟩
  by_cases hassign : ASSIGN ∈ component
  · exact Or.inr ⟨component, hmem, hassign, (keyAfter_of_mem hassign key').symm⟩
  · rw [show keyAfter key' component = key' from if_neg hassign]
    exact hkey.imp_right fun ⟨earlier, hearlier, hassign, hlast⟩ =>
      ⟨earlier, hearlier, hassign, hlast.symm⟩

theorem exists_mem_assigned (key : Str) (h : component ∈ components)
    (hassign : ASSIGN ∈ component) :
    ∃ kv ∈ assigned key components, kv.1 = lastName ASSIGN component := by
  obtain ⟨front, rest, rfl⟩ := List.append_of_mem h
  rw [assigned_append]
  exact ⟨_, List.mem_append_right _ List.mem_cons_self, keyAfter_of_mem hassign _⟩

/-! ## What the components say -/

/-- A component says: the text in front of its first equals sign has the text behind it. -/
def stated (component : Str) : Str × Str := (name ASSIGN component, value ASSIGN component)

/-- The maps are the same but for the empty key. -/
def Agree (m m' : Str → Option Str) : Prop := ∀ k ≠ [], m k = m' k

/-- Behind this component an empty one does no harm. -/
def Silent (component : Str) : Prop :=
  component = [] ∨ component.head? = some ASSIGN ∨ component.getLast? = some ASSIGN

/-- A component has one equals sign; or the key is the empty one, read from the first as from the
last equals sign; or it is empty and does no harm. -/
def Follows (previous component : Str) : Prop :=
  component.count ASSIGN = 1 ∨
    (component.head? = some ASSIGN ∧ lastName ASSIGN component = []) ∨
    (component = [] ∧ Silent previous)

instance (previous component : Str) : Decidable (Follows previous component) :=
  inferInstanceAs (Decidable (_ ∨ (_ ∧ _) ∨ _ ∧ (_ ∨ _ ∨ _)))

/-- The key that one component names is not one that the other has. -/
def Apart (component component' : Str) : Prop :=
  name ASSIGN component ≠ [] → name ASSIGN component ≠ name ASSIGN component' ∧
    name ASSIGN component ≠ lastName ASSIGN component'

instance (component component' : Str) : Decidable (Apart component component') :=
  inferInstanceAs (Decidable (_ → _ ∧ _))

theorem Agree.update (h : Agree m m') (k : Str) (v : Option Str) :
    Agree (Function.update m k v) (Function.update m' k v) := by
  intro k' hk'
  by_cases heq : k' = k
  · rw [heq, Function.update_self, Function.update_self]
  · rw [Function.update_of_ne heq, Function.update_of_ne heq, h k' hk']

theorem Agree.update_nil (h : Agree m m') (v v' : Option Str) :
    Agree (Function.update m [] v) (Function.update m' [] v') := by
  intro k hk
  rw [Function.update_of_ne hk, Function.update_of_ne hk, h k hk]

/-- An empty value for a key without one. -/
theorem Agree.update_silent (h : Agree m m') (hkey : key = [] ∨ m key = some []) :
    Agree (Function.update m key (some [])) m' := by
  intro k hk
  by_cases heq : k = key
  · rw [heq, Function.update_self, ← h key (heq ▸ hk), hkey.resolve_left (heq ▸ hk)]
  · rw [Function.update_of_ne heq, h k hk]

/-- **Components that follow each other well are read as they say.** -/
theorem agree_of_isChain (hchain : (previous :: components).IsChain Follows) (h : Agree m m')
    (hsilent : Silent previous → key = [] ∨ m key = some []) :
    Agree (assignAll m (assigned key components)) (assignAll m' (components.map stated)) := by
  induction components generalizing previous key m m' with
  | nil => exact h
  | cons component components ih =>
      obtain ⟨hfollows, hrest⟩ := List.isChain_cons_cons.mp hchain
      rw [assigned, List.map_cons, assignAll_cons, assignAll_cons]
      rcases hfollows with hone | ⟨hhead, hlast⟩ | ⟨rfl, hprevious⟩
      · obtain ⟨k, v, htext, hname, hvalue, hlastName, hlastValue⟩ := exists_of_count_eq_one hone
        have hmem : ASSIGN ∈ component := List.count_pos_iff.mp (hone ▸ Nat.one_pos)
        rw [keyAfter_of_mem hmem, stated, hname, hvalue, hlastName, hlastValue]
        refine ih hrest (h.update k (some v)) fun hempty => ?_
        rcases hempty with rfl | hhead | hend
        · cases hmem
        · exact Or.inl (hname ▸ name_of_head? hhead)
        · rw [Function.update_self, ← hlastValue, lastValue_of_getLast? hend]
          exact Or.inr rfl
      · rw [keyAfter_of_mem (List.mem_of_head? hhead), stated, hlast, name_of_head? hhead]
        exact ih hrest (h.update_nil _ _) fun _ => Or.inl rfl
      · refine ih hrest (fun k hk => ?_) fun _ => Or.inr (Function.update_self ..)
        exact (h.update_silent (hsilent hprevious) k hk).trans
          (Function.update_of_ne hk _ _).symm

/-! ## Components that do not share keys -/

/-- No two components share a key. -/
def Unshared (components : List Str) : Prop :=
  components.Pairwise fun component component' =>
    Apart component component' ∧ Apart component' component

instance (components : List Str) : Decidable (Unshared components) :=
  inferInstanceAs (Decidable (components.Pairwise _))

theorem Unshared.apart {component' : Str} (h : Unshared components) (hmem : component ∈ components)
    (hmem' : component' ∈ components) (hne : component ≠ component') :
    Apart component component' := by
  have : Std.Symm fun component component' =>
    Apart component component' ∧ Apart component' component := ⟨fun _ _ => And.symm⟩
  exact (List.Pairwise.forall h hmem hmem' hne).1

/-- A key that is named keeps its value. -/
theorem Unshared.assignAll_stated (h : Unshared components) (hmem : component ∈ components)
    (hname : name ASSIGN component ≠ []) :
    assignAll m (components.map stated) (name ASSIGN component) =
      some (value ASSIGN component) := by
  obtain ⟨front, rest, rfl⟩ := List.append_of_mem hmem
  rw [List.map_append, List.map_cons]
  refine assignAll_append_cons _ fun kv hkv heq => ?_
  obtain ⟨component', hmem', rfl⟩ := List.mem_map.mp hkv
  obtain ⟨-, hrest, -⟩ := List.pairwise_append.mp h
  exact absurd heq.symm (((List.pairwise_cons.mp hrest).1 component' hmem').1 hname).1

section Agreement

variable (hunshared : Unshared components)
  (hagree : Agree (assignAll (fun _ => none) (assigned [] components))
    (assignAll (fun _ => none) (components.map stated)))
include hunshared hagree

/-- A component with a key has one equals sign. -/
theorem count_eq_one_of_agree (hmem : component ∈ components)
    (hname : name ASSIGN component ≠ []) : component.count ASSIGN = 1 := by
  have hvalue := (hagree _ hname).trans (hunshared.assignAll_stated hmem hname)
  obtain ⟨hnone, hkey⟩ := of_mem_assigned ((mem_of_assignAll hvalue).resolve_left nofun)
  have hle : component.count ASSIGN < 2 := by
    by_contra htwo
    exact hnone (mem_value_of_two_le (not_lt.mp htwo))
  have hassign : ASSIGN ∈ component := by
    obtain ⟨component', hmem', hassign', hlast⟩ := hkey.resolve_left hname
    by_contra hnot
    have hne : component ≠ component' := fun heq => hnot (heq ▸ hassign')
    exact (hunshared.apart hmem hmem' hne hname).2 hlast.symm
  have hpos := List.count_pos_iff.mpr hassign
  omega

/-- A component without a key has none in front of its last equals sign either. -/
theorem lastName_eq_nil_of_agree (hmem : component ∈ components) (hassign : ASSIGN ∈ component)
    (hname : name ASSIGN component = []) : lastName ASSIGN component = [] := by
  by_contra hlast
  have hsome := isSome_assignAll (m := fun _ => none)
    (Or.inr (exists_mem_assigned [] hmem hassign))
  rw [hagree _ hlast] at hsome
  obtain ⟨v, hv⟩ := Option.isSome_iff_exists.mp hsome
  obtain ⟨component', hmem', hstated⟩ :=
    List.mem_map.mp ((mem_of_assignAll hv).resolve_left nofun)
  have hname' : name ASSIGN component' = lastName ASSIGN component := congrArg Prod.fst hstated
  have hne : component' ≠ component := by
    rintro rfl
    exact hlast (hname'.symm.trans hname)
  exact (hunshared.apart hmem' hmem hne (hname' ▸ hlast)).2 hname'

/-- Without an equals sign there is nothing. -/
theorem eq_nil_of_agree (hmem : component ∈ components) (hassign : ASSIGN ∉ component) :
    component = [] := by
  by_contra hne
  have hname : name ASSIGN component ≠ [] := (name_of_notMem hassign).symm ▸ hne
  have hone := count_eq_one_of_agree hunshared hagree hmem hname
  exact hassign (List.count_pos_iff.mp (hone ▸ Nat.one_pos))

/-- An empty component is behind one where it does no harm. -/
theorem silent_of_agree {front rest : List Str}
    (hcomponents : components = front ++ previous :: [] :: rest) : Silent previous := by
  by_cases hname : name ASSIGN previous = []
  · by_cases hne : previous = []
    · exact Or.inl hne
    · exact Or.inr (Or.inl (head?_of_name_eq_nil hname hne))
  · have hmem : previous ∈ components := by simp [hcomponents]
    have hone := count_eq_one_of_agree hunshared hagree hmem hname
    obtain ⟨k, v, htext, hk, hv, hlastName, hlastValue⟩ := exists_of_count_eq_one hone
    have hassign : ASSIGN ∈ previous := List.count_pos_iff.mp (hone ▸ Nat.one_pos)
    -- the empty component leaves the empty value, and the key is not assigned again
    have hloop : assignAll (fun _ => none) (assigned [] components) k = some [] := by
      rw [hcomponents, assigned_append, assigned, assigned, keyAfter_of_mem hassign, hlastName,
        List.append_cons]
      refine assignAll_append_cons _ fun kv hkv heq => ?_
      obtain ⟨component, hrest, key', rfl, -⟩ := exists_of_mem_assigned hkv
      have hmem' : component ∈ components := by simp [hcomponents, hrest]
      by_cases hassign' : ASSIGN ∈ component
      · refine absurd heq ?_
        rw [keyAfter_of_mem hassign', ← hk]
        rw [hcomponents] at hunshared
        obtain ⟨-, hbehind, -⟩ := List.pairwise_append.mp hunshared
        exact (((List.pairwise_cons.mp hbehind).1 component
          (List.mem_cons_of_mem _ hrest)).1 hname).2.symm
      · rw [eq_nil_of_agree hunshared hagree hmem' hassign', lastValue_nil]
    have hvalue := hunshared.assignAll_stated (m := fun _ => none) hmem hname
    rw [hk, hv, ← hagree k (hk ▸ hname), hloop] at hvalue
    refine Or.inr (Or.inr ?_)
    rw [htext, ← Option.some_inj.mp hvalue]
    simp

end Agreement

theorem isChain_of_agree (hunshared : Unshared components)
    (hagree : Agree (assignAll (fun _ => none) (assigned [] components))
      (assignAll (fun _ => none) (components.map stated))) :
    ([] :: components).IsChain Follows := by
  rw [List.isChain_iff_forall_rel_of_append_cons_cons]
  intro previous component front rest hsplit
  have hmem : component ∈ components ∧ (component = [] → Silent previous) := by
    cases front with
    | nil =>
        obtain ⟨rfl, rfl⟩ := List.cons.inj hsplit
        exact ⟨List.mem_cons_self, fun _ => Or.inl rfl⟩
    | cons _ front =>
        obtain ⟨-, rfl⟩ := List.cons.inj hsplit
        refine ⟨by simp, ?_⟩
        rintro rfl
        exact silent_of_agree hunshared hagree rfl
  obtain ⟨hmem, hsilent⟩ := hmem
  by_cases hname : name ASSIGN component = []
  · by_cases hne : component = []
    · exact Or.inr (Or.inr ⟨hne, hsilent hne⟩)
    · have hhead := head?_of_name_eq_nil hname hne
      exact Or.inr (Or.inl ⟨hhead,
        lastName_eq_nil_of_agree hunshared hagree hmem (List.mem_of_head? hhead) hname⟩)
  · exact Or.inl (count_eq_one_of_agree hunshared hagree hmem hname)

end QueryString

/-! ## The parameters of a request -/

namespace Request

open QueryString

/-- What is between the separators behind the first `?`. -/
def components (req : Request) : List Str :=
  match req.uri.dropWhile (· != 63) with
  | [] => []
  | _ :: query => query.splitOn SEPARATOR

/-- The parameters that the components say. -/
def statedParams (req : Request) : Str → Option Str :=
  assignAll (fun _ => none) (req.components.map stated)

theorem getQueryParams_eq (req : Request) :
    req.getQueryParams = assignAll (fun _ => none) (assigned [] req.components) := by
  rw [getQueryParams, components]
  cases req.uri.dropWhile (· != 63) with
  | nil => rfl
  | cons _ query => exact queryLoop_eq [] (fun _ => none) query

/-- **When the query string is split correctly**: if its components follow each other well, and, as
long as these do not share keys, only then. -/
theorem agree_getQueryParams (req : Request) :
    (([] :: req.components).IsChain Follows → Agree req.getQueryParams req.statedParams) ∧
      (Unshared req.components → Agree req.getQueryParams req.statedParams →
        ([] :: req.components).IsChain Follows) := by
  rw [getQueryParams_eq, statedParams]
  exact ⟨fun hchain => agree_of_isChain hchain (fun _ _ => rfl) fun _ => Or.inl rfl,
    isChain_of_agree⟩

end Request

open QueryString

/-- A search. -/
def searchRequest : Request := { Request.empty 1 1 with uri := ascii "/?q=gin&sort=&&page=2" }

theorem agree_getQueryParams_search :
    Agree searchRequest.getQueryParams searchRequest.statedParams ∧
      ([] :: searchRequest.components).IsChain Follows := by
  have hagree := searchRequest.agree_getQueryParams.1 (by decide)
  exact ⟨hagree, searchRequest.agree_getQueryParams.2 (by decide) hagree⟩

/-- The address of a page to come back to, with a query of its own. -/
def nextRequest : Request := { Request.empty 1 1 with uri := ascii "/?next=_method=DELETE" }

/-- What is in the value becomes a key. -/
theorem not_agree_next : ¬ Agree nextRequest.getQueryParams nextRequest.statedParams := by
  intro hagree
  have hmethod := hagree (ascii "_method") (by decide)
  have hread : nextRequest.getQueryParams (ascii "_method") = some (ascii "DELETE") := by decide
  have hstated : nextRequest.statedParams (ascii "_method") = none := by decide
  rw [hread, hstated] at hmethod
  cases hmethod

end GinCpp.Http
