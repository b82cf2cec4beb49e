import GinCpp.Routing.UrlPath

/-!
# Reverse routing and matching

The url of a named route should lead back to the route with the parameters it was made from.  It
does if no name with its colon occurs in front of its own place, and the pattern has no suffix
but a final `?`: `Built.reverses_iff`.
-/

namespace GinCpp.Routing

open Http KeyedTree RouteMatcher Template

variable {H M : Type}

/-- A value without `/` and `?` for each name. -/
structure Assigns (pattern : List Segment) (params : List (Str × Str)) : Prop where
  keys : (params.map Prod.fst).Perm (names pattern)
  values : ∀ kv ∈ params, kv.2 ≠ [] ∧ SLASH ∉ kv.2 ∧ QUESTION ∉ kv.2

/-- **Reverse routing inverts matching**: the url is the same for every order of the parameters,
and a request for it is dispatched to the route with exactly these. -/
def Router.Reverses (lib : Library H M) (router : Router H M) (r : Route H M)
    (params : List (Str × Str)) : Prop :=
  ∃ uri, (∀ order, order.Perm params → router.urlFor r.name order = uri) ∧
    ∀ (request : Request) (initial : Params), request.method = r.method →
      request.getHeader (ascii "X-HTTP-Method-Override") = [] → request.uri = uri →
        effectiveMethod request = r.method ∧ ∃ node, node.handler = r.handler ∧
          router.matchRoute lib request initial = (.route node, valueOf params)

/-- What the inversion takes. -/
structure Reversible (r : Route H M) (params : List (Str × Str)) : Prop where
  /-- No name with its colon occurs in front of its own place, neither in the text nor in a value,
  unless that is its value. -/
  apart : r.words.Pairwise (Word.Apart (substitution params))
  /-- Only the last segment has a suffix, and that is the question mark. -/
  bare : r.words.Pairwise fun w w' => w' ≠ .fixed [] → w.Bare
  suffix : ∀ t s, .hole t s ∈ r.words → s = [] ∨ s = [QUESTION]
  text : ∀ text, .fixed text ∈ r.words → QUESTION ∉ text
  /-- No value is the name of its parameter. -/
  value : ∀ kv ∈ params, kv.2 ≠ kv.1

/-! ## The request for a url -/

section Request

variable {key component : Str} {params : Params} {query : Str} {n : Str} {request : Request}

/-- Without an `=` there is no key but the empty one. -/
theorem queryLoop_eq_none (hquery : EQUALS ∉ query) (hkey : n ≠ key) (hparams : params n = none) :
    Request.queryLoop key component params query n = none := by
  induction query generalizing component params with
  | nil => rw [Request.queryLoop, Function.update_of_ne hkey, hparams]
  | cons c query ih =>
      obtain ⟨hc, hquery⟩ : EQUALS ≠ c ∧ EQUALS ∉ query := by simpa using hquery
      have hc : ¬ c = '='.toUInt8 := Ne.symm hc
      rw [Request.queryLoop, if_neg hc]
      split_ifs
      · exact ih hquery (by rw [Function.update_of_ne hkey, hparams])
      · exact ih hquery hparams

theorem effectiveMethod_eq (hheader : request.getHeader (ascii "X-HTTP-Method-Override") = [])
    (hquery : EQUALS ∉ (request.uri.dropWhile (· != QUESTION)).tail) :
    effectiveMethod request = request.method := by
  have hparams : request.getQueryParams (ascii "_method") = none := by
    unfold Request.getQueryParams
    change EQUALS ∉ (request.uri.dropWhile (· != 63)).tail at hquery
    cases hsplit : request.uri.dropWhile (· != 63) with
    | nil => rfl
    | cons c query =>
        rw [hsplit] at hquery
        exact queryLoop_eq_none hquery (by decide) rfl
  rw [effectiveMethod, hheader, hparams]
  rfl

theorem joinPath_cons_cons (text next : Str) (texts : List Str) :
    joinPath (text :: next :: texts) = text ++ SLASH :: joinPath (next :: texts) := by
  rw [joinPath, List.intercalate_cons_cons, List.append_assoc]
  rfl

theorem eq_slash_of_mem_joinPath {texts : List Str} (h : ∀ text ∈ texts, text = []) :
    ∀ c ∈ joinPath texts, c = SLASH := by
  induction texts with
  | nil => exact nofun
  | cons text texts ih =>
      obtain ⟨rfl, hrest⟩ := List.forall_mem_cons.mp h
      cases texts with
      | nil => rw [joinPath_singleton]; exact nofun
      | cons next texts =>
          rw [joinPath_cons_cons, List.nil_append]
          exact List.forall_mem_cons.mpr ⟨rfl, ih hrest⟩

/-- Behind the question mark of a url that is filled there are slashes at most. -/
theorem eq_slash_of_mem_query {texts : List Str}
    (hlast : texts.Pairwise fun text text' => text' ≠ [] → QUESTION ∉ text)
    (htexts : ∀ text ∈ texts, QUESTION ∈ text → ∃ v, text = v ++ [QUESTION] ∧ QUESTION ∉ v) :
    ∀ c ∈ ((joinPath texts).dropWhile (· != QUESTION)).tail, c = SLASH := by
  have hpass : ∀ front back : Str, QUESTION ∉ front →
      (front ++ back).dropWhile (· != QUESTION) = back.dropWhile (· != QUESTION) := by
    intro front back hfront
    apply List.dropWhile_append_of_pos
    intro c hc
    simpa using fun hmark : c = QUESTION => hfront (hmark ▸ hc)
  induction texts with
  | nil => exact nofun
  | cons text texts ih =>
      obtain ⟨hfirst, hlast⟩ := List.pairwise_cons.mp hlast
      obtain ⟨htext, htexts⟩ := List.forall_mem_cons.mp htexts
      cases texts with
      | nil =>
          rw [joinPath_singleton]
          by_cases hmark : QUESTION ∈ text
          · obtain ⟨v, rfl, hv⟩ := htext hmark
            rw [hpass _ _ hv]
            exact nofun
          · rw [← List.append_nil text, hpass _ _ hmark]
            exact nofun
      | cons next texts =>
          rw [joinPath_cons_cons]
          by_cases hmark : QUESTION ∈ text
          · have hempty : ∀ text' ∈ next :: texts, text' = [] := by
              intro text' htext'
              by_contra hne
              exact hfirst text' htext' hne hmark
            obtain ⟨v, rfl, hv⟩ := htext hmark
            rw [List.append_assoc, hpass _ _ hv]
            exact List.forall_mem_cons.mpr ⟨rfl, eq_slash_of_mem_joinPath hempty⟩
          · rw [hpass _ _ hmark]
            exact ih hlast htexts

end Request

/-! ## The values of the names -/

namespace Assigns

variable {pattern : List Segment} {params order : List (Str × Str)} {kv : Str × Str} {n : Str}

theorem substitution_eq (h : Assigns pattern params) (hnodup : (names pattern).Nodup)
    (hkv : kv ∈ params) : substitution params (COLON :: kv.1) = kv.2 := by
  have hvalue := valueOf_eq_some (h.keys.nodup_iff.mpr hnodup) hkv
  rw [substitution, List.tail_cons, hvalue]
  rfl

theorem mem_names (h : Assigns pattern params) (hkv : kv ∈ params) : kv.1 ∈ names pattern :=
  h.keys.mem_iff.mp (List.mem_map_of_mem hkv)

/-- The value of a name. -/
theorem spec (h : Assigns pattern params) (hnodup : (names pattern).Nodup)
    (hn : n ∈ names pattern) :
    valueOf params n = some (substitution params (COLON :: n)) ∧
      substitution params (COLON :: n) ≠ [] ∧ SLASH ∉ substitution params (COLON :: n) ∧
        QUESTION ∉ substitution params (COLON :: n) := by
  obtain ⟨kv, hkv, rfl⟩ := List.mem_map.mp (h.keys.mem_iff.mpr hn)
  rw [h.substitution_eq hnodup hkv]
  exact ⟨valueOf_eq_some (h.keys.nodup_iff.mpr hnodup) hkv, h.values kv hkv⟩

theorem valueOf_eq_none (h : Assigns pattern params) (hn : n ∉ names pattern) :
    valueOf params n = none := by
  rw [← Option.not_isSome_iff_eq_none, isSome_valueOf_iff, h.keys.mem_iff]
  exact hn

/-- An order of the parameters is an order of the targets. -/
theorem perm_targets (h : Assigns pattern params) (horder : order.Perm params) :
    (order.map fun kv => COLON :: kv.1).Perm ((names pattern).map (COLON :: ·)) := by
  have hkeys : (order.map Prod.fst).Perm (names pattern) := (horder.map _).trans h.keys
  have htargets := hkeys.map (COLON :: ·)
  rwa [List.map_map] at htargets

/-- An order of the targets is an order of the parameters. -/
theorem exists_perm (h : Assigns pattern params) (hnodup : (names pattern).Nodup)
    {targets : List Str} (htargets : targets.Perm ((names pattern).map (COLON :: ·))) :
    ∃ order : List (Str × Str), order.Perm params ∧
      (order.map fun kv => COLON :: kv.1) = targets := by
  refine ⟨targets.map fun target => (target.tail, substitution params target), ?_, ?_⟩
  · have hparams : params = (params.map Prod.fst).map fun n =>
        (n, substitution params (COLON :: n)) := by
      rw [List.map_map]
      refine (List.map_id'' (fun _ => rfl) params).symm.trans (List.map_congr_left fun kv hkv => ?_)
      rw [Function.comp_apply, h.substitution_eq hnodup hkv]
    have hnames := h.keys.map fun n => (n, substitution params (COLON :: n))
    rw [← hparams] at hnames
    have htargets := htargets.map fun target => (target.tail, substitution params target)
    rw [List.map_map] at htargets
    exact htargets.trans hnames.symm
  · rw [List.map_map]
    refine (List.map_congr_left fun target htarget => ?_).trans
      (List.map_id'' (fun _ => rfl) targets)
    obtain ⟨n, -, rfl⟩ := List.mem_map.mp (htargets.mem_iff.mp htarget)
    rfl

end Assigns

/-! ## The url of a route -/

section Route

variable {placement : Placement Str (Node H M)} {errorHandler : M} {regs : List (Registration H M)}
  {router : Router H M} {r : Route H M} {params order : List (Str × Str)}

theorem Built.reads (hbuilt : Built placement errorHandler regs router) (hr : .route r ∈ regs) :
    Reads (r.path.splitOn SLASH) r.segments := by
  apply reads_of_mapM
  have hreadable := ((exists_built_iff placement errorHandler).mp ⟨router, hbuilt⟩).2 _ hr
  change readPath r.path = some r.segments
  rw [Route.segments]
  rcases hreadable with hroot | hread
  · rw [hroot]
    decide
  · obtain ⟨segments, hsegments⟩ := Option.isSome_iff_exists.mp hread
    rw [hsegments]
    rfl

theorem slash_notMem_of_mem_splitOn {path piece : Str} (h : piece ∈ path.splitOn SLASH) :
    SLASH ∉ piece := by
  intro hslash
  have hpiece := not_of_mem_splitOnPPrepend h nofun SLASH hslash
  simp at hpiece

theorem map_raw_words (r : Route H M) : r.words.map Word.raw = r.path.splitOn SLASH := by
  rw [Route.words, List.map_map]
  exact List.map_id'' raw_word _

theorem words_ne_nil (r : Route H M) : r.words ≠ [] := by
  rw [Route.words, Ne, List.map_eq_nil_iff]
  exact List.splitOn_ne_nil SLASH r.path

/-- **The url**, for an order of the parameters. -/
theorem Built.urlFor_eq_joinPath (hbuilt : Built placement errorHandler regs router)
    (hr : .route r ∈ regs) (hname : r.name ≠ []) (hnodup : (names r.segments).Nodup)
    (hassigns : Assigns r.segments params) (horder : order.Perm params) :
    router.urlFor r.name order = joinPath (replaceAll (substitution params) (r.words.map Word.raw)
      (order.map fun kv => COLON :: kv.1)) := by
  have hpath : joinPath (r.path.splitOn SLASH) = r.path := List.intercalate_splitOn SLASH
  rw [hbuilt.urlFor_eq hr hname, map_raw_words, ← substitute_joinPath, hpath]
  intro kv hkv
  have hkv := horder.mem_iff.mp hkv
  obtain ⟨isOptional, defaultValue, hseg⟩ := Routing.mem_names.mp (hassigns.mem_names hkv)
  exact ⟨slash_not_mem_part_of_mem_segments r _ hseg, hassigns.substitution_eq hnodup hkv⟩

/-! ## A url that is filled -/

/-- A named route, alone in the tree of its method, of static segments and parameters of distinct
names. -/
structure NamedRoute (regs : List (Registration H M)) (r : Route H M) : Prop where
  sole : Sole regs r
  name : r.name ≠ []
  handler : r.handler.isSome
  simple : Simple r.segments
  nodup : (names r.segments).Nodup

/-- The targets of the words are distinct. -/
theorem NamedRoute.nodup_targets (hr : NamedRoute regs r)
    (hreads : Reads (r.path.splitOn SLASH) r.segments) : (targets r.words).Nodup := by
  rw [Route.words, targets_map_word hreads]
  exact hr.nodup.map fun _ _ heq => (List.cons.inj heq).2

theorem hole_mem_words (hreads : Reads (r.path.splitOn SLASH) r.segments) {t s : Str}
    (h : .hole t s ∈ r.words) : ∃ n ∈ names r.segments, t = COLON :: n := by
  have htarget : t ∈ targets r.words := mem_targets.mpr ⟨s, h⟩
  rw [Route.words, targets_map_word hreads] at htarget
  obtain ⟨n, hn, rfl⟩ := List.mem_map.mp htarget
  exact ⟨n, hn, rfl⟩

/-- The texts of a url that is filled have no slash. -/
theorem slash_notMem_filled (hreads : Reads (r.path.splitOn SLASH) r.segments)
    (hnodup : (names r.segments).Nodup) (hassigns : Assigns r.segments params) :
    ∀ text ∈ r.words.map (Word.filled (substitution params)), SLASH ∉ text := by
  intro text htext
  obtain ⟨w, hw, rfl⟩ := List.mem_map.mp htext
  have hmem : w.raw ∈ r.path.splitOn SLASH := by
    rw [← map_raw_words]
    exact List.mem_map_of_mem hw
  have hraw : SLASH ∉ w.raw := slash_notMem_of_mem_splitOn hmem
  cases w with
  | fixed text => exact hraw
  | hole t s =>
      obtain ⟨n, hn, rfl⟩ := hole_mem_words hreads hw
      rw [Word.raw, List.mem_append, not_or] at hraw
      rw [Word.filled, List.mem_append, not_or]
      exact ⟨(hassigns.spec hnodup hn).2.2.1, hraw.2⟩

/-- Only the last text has a question mark, and that is its end. -/
theorem Reversible.question_filled (h : Reversible r params)
    (hreads : Reads (r.path.splitOn SLASH) r.segments) (hnodup : (names r.segments).Nodup)
    (hassigns : Assigns r.segments params) :
    ((r.words.map (Word.filled (substitution params))).Pairwise fun text text' =>
        text' ≠ [] → QUESTION ∉ text) ∧
      ∀ text ∈ r.words.map (Word.filled (substitution params)), QUESTION ∈ text →
        ∃ v, text = v ++ [QUESTION] ∧ QUESTION ∉ v := by
  have hvalue : ∀ t s, .hole t s ∈ r.words → QUESTION ∉ substitution params t := by
    intro t s hmem
    obtain ⟨n, hn, rfl⟩ := hole_mem_words hreads hmem
    exact (hassigns.spec hnodup hn).2.2.2
  constructor
  · rw [List.pairwise_map]
    refine h.bare.imp_of_mem fun {w w'} hw _ hbare hne => ?_
    have hbare : w.Bare := hbare fun hempty => hne (by rw [hempty]; rfl)
    cases w with
    | fixed text => exact h.text text hw
    | hole t s =>
        obtain rfl : s = [] := hbare
        rw [Word.filled, List.append_nil]
        exact hvalue t [] hw
  · intro text htext hquestion
    obtain ⟨w, hw, rfl⟩ := List.mem_map.mp htext
    cases w with
    | fixed text => exact absurd hquestion (h.text text hw)
    | hole t s =>
        rcases h.suffix t s hw with rfl | rfl
        · rw [Word.filled, List.append_nil] at hquestion
          exact absurd hquestion (hvalue t [] hw)
        · exact ⟨substitution params t, rfl, hvalue t _ hw⟩

/-- **A reversible route is matched again.** -/
theorem Reversible.reverses (h : Reversible r params) (lib : Library H M)
    (hbuilt : Built placement errorHandler regs router) (hr : NamedRoute regs r)
    (hassigns : Assigns r.segments params) : router.Reverses lib r params := by
  have hreads := hbuilt.reads hr.sole.mem
  have htargets : targets r.words = (names r.segments).map (COLON :: ·) := targets_map_word hreads
  have hvalue : ∀ n ∈ names r.segments, substitution params (COLON :: n) ≠ [] ∧
      QUESTION ∉ substitution params (COLON :: n) := by
    intro n hn
    obtain ⟨-, hne, -, hquestion⟩ := hassigns.spec hr.nodup hn
    exact ⟨hne, hquestion⟩
  refine ⟨joinPath (r.words.map (Word.filled (substitution params))), fun order horder => ?_,
    fun request initial hmethod hheader huri => ?_⟩
  · -- the words are apart, so the order of the replacements does not matter
    have hperm := hassigns.perm_targets horder
    rw [← htargets] at hperm
    rw [hbuilt.urlFor_eq_joinPath hr.sole.mem hr.name hr.nodup hassigns horder,
      replaceAll_eq_filled h.apart (hr.nodup_targets hreads) hperm]
  · have heffective : effectiveMethod request = r.method := by
      obtain ⟨hlast, htexts⟩ := h.question_filled hreads hr.nodup hassigns
      rw [← hmethod]
      refine effectiveMethod_eq hheader fun hmem => ?_
      rw [huri] at hmem
      exact absurd (eq_slash_of_mem_query hlast htexts _ hmem) (by decide)
    -- the url is split into the texts that were filled in, so the pattern is reached
    have hpath := splitPath_getPath (by simpa using words_ne_nil r)
      (slash_notMem_filled hreads hr.nodup hassigns) huri
    obtain ⟨hlength, hstands⟩ := pathOf_filled (substitution params) hreads hr.simple h.bare
      h.suffix h.text hvalue
    change (pathOf (r.words.map _)).length = _ at hlength
    rw [← hpath] at hlength
    change ∀ seg s, (seg, s) ∈ r.segments.zip (pathOf (r.words.map _)) → _ at hstands
    rw [← hpath] at hstands
    have hreached : Reached lib.regex false r.segments (splitPath request.getPath) :=
      reached_of_zip hr.simple hlength fun seg s hmem => (hstands seg s hmem).1
    obtain ⟨u, hspells, hhandler, hmatch⟩ :=
      hbuilt.matchRoute_sole hr.sole hr.handler heffective hreached initial
    refine ⟨heffective, u.value, hhandler, ?_⟩
    have hinvariant : Invariant (grown placement [r]) [r] := invariant_grown (noClash_singleton r)
    have hnone : ∀ n, n ∉ names r.segments → valueOf params n = none :=
      fun n hn => hassigns.valueOf_eq_none hn
    rw [hmatch, Route.address, addDefault_eq_of_stands hinvariant.distinct hinvariant.unmounted
      hinvariant.required hspells (hhandler ▸ hr.handler) hr.simple hr.nodup
      (slash_not_mem_part_of_mem_segments r) hreached hlength hnone]
    intro seg s hmem hkind
    have hname := part_mem_names hr.simple (List.of_mem_zip hmem).1 hkind
    obtain ⟨kv, hkv, hpart⟩ := List.mem_map.mp (hassigns.keys.mem_iff.mpr hname)
    rw [← (hstands seg s hmem).2 hkind]
    refine ⟨(hassigns.spec hr.nodup hname).1, ?_⟩
    rw [← hpart, hassigns.substitution_eq hr.nodup hkv]
    exact h.value kv hkv

/-! ## A url that is matched again -/

/-- The url of the root. -/
theorem reversible_root (hroot : r.path = ascii "/") (hassigns : Assigns r.segments params) :
    Reversible r params := by
  have hwords : r.words = [.fixed [], .fixed []] := by
    rw [Route.words, hroot]
    rfl
  have hparams : params = [] := by
    have hkeys := hassigns.keys
    rw [segments_of_root hroot] at hkeys
    exact List.map_eq_nil_iff.mp hkeys.eq_nil
  have hempty : ∀ w ∈ r.words, w = .fixed [] := by simp [hwords]
  refine ⟨?_, ?_, fun t s hmem => ?_, fun text hmem => ?_, ?_⟩
  · refine List.pairwise_of_forall_mem_list fun w _ w' hw' t ht => ?_
    rw [hempty w' hw'] at ht
    cases ht
  · exact List.pairwise_of_forall_mem_list fun w _ w' hw' hne => absurd (hempty w' hw') hne
  · cases hempty _ hmem
  · rw [Word.fixed.inj (hempty _ hmem)]
    exact List.not_mem_nil
  · rw [hparams]
    exact List.forall_mem_nil _

theorem joinPath_injective {texts texts' : List Str} (hne : texts ≠ []) (hne' : texts' ≠ [])
    (hslash : ∀ text ∈ texts, SLASH ∉ text) (hslash' : ∀ text ∈ texts', SLASH ∉ text)
    (h : joinPath texts = joinPath texts') : texts = texts' := by
  rw [← List.splitOn_intercalate SLASH hslash hne, ← List.splitOn_intercalate SLASH hslash' hne']
  exact congrArg (List.splitOn SLASH) h

theorem slash_notMem_of_traced {pieces texts : List Str} (h : List.Forall₂ Traced pieces texts)
    (hpieces : ∀ piece ∈ pieces, SLASH ∉ piece) : ∀ text ∈ texts, SLASH ∉ text := by
  induction h with
  | nil => exact nofun
  | cons hfirst h ih =>
      obtain ⟨hpiece, hpieces⟩ := List.forall_mem_cons.mp hpieces
      exact List.forall_mem_cons.mpr ⟨hfirst.slash hpiece, ih hpieces⟩

/-- What the parameters make of the pieces of the path. -/
theorem traced_replaceAll (hreads : Reads (r.path.splitOn SLASH) r.segments)
    (hnodup : (names r.segments).Nodup) (hassigns : Assigns r.segments params)
    (hquestion : ∀ n ∈ names r.segments, QUESTION ∉ n) (horder : order.Perm params) :
    List.Forall₂ Traced (r.path.splitOn SLASH) (replaceAll (substitution params)
      (r.words.map Word.raw) (order.map fun kv => COLON :: kv.1)) := by
  rw [map_raw_words]
  refine forall₂_replaceAll Traced.refl (fun _ _ _ => Traced.trans) (fun t ht before after => ?_) _
  obtain ⟨n, hn, rfl⟩ := List.mem_map.mp ((hassigns.perm_targets horder).mem_iff.mp ht)
  have hequals : EQUALS ∉ COLON :: n :=
    List.not_mem_cons_of_ne_of_not_mem (by decide) (equals_notMem_names hreads n hn)
  have hmark : QUESTION ∉ COLON :: n :=
    List.not_mem_cons_of_ne_of_not_mem (by decide) (hquestion n hn)
  exact Traced.replace ⟨List.cons_ne_nil _ _, hequals, hmark⟩ (hassigns.spec hnodup hn).2
    before after

/-- If the url is the same for every order, so are its texts. -/
theorem Built.exists_texts (hbuilt : Built placement errorHandler regs router)
    (hr : NamedRoute regs r) (hassigns : Assigns r.segments params)
    (hquestion : ∀ n ∈ names r.segments, QUESTION ∉ n) {uri : Str}
    (huri : ∀ order, order.Perm params → router.urlFor r.name order = uri) :
    ∃ texts, uri = joinPath texts ∧ texts ≠ [] ∧ (∀ text ∈ texts, SLASH ∉ text) ∧
      List.Forall₂ Traced (r.path.splitOn SLASH) texts ∧
      ∀ order, order.Perm (targets r.words) →
        replaceAll (substitution params) (r.words.map Word.raw) order = texts := by
  have hreads := hbuilt.reads hr.sole.mem
  have htraced := fun {order} (horder : List.Perm order params) =>
    traced_replaceAll hreads hr.nodup hassigns hquestion horder
  have hslash := fun {order} (horder : List.Perm order params) =>
    slash_notMem_of_traced (htraced horder) fun _ => slash_notMem_of_mem_splitOn
  have hne : ∀ {texts}, List.Forall₂ Traced (r.path.splitOn SLASH) texts → texts ≠ [] := by
    rintro texts h rfl
    exact List.splitOn_ne_nil SLASH r.path (List.forall₂_nil_right_iff.mp h)
  have hjoin := fun {order} (horder : List.Perm order params) =>
    (huri order horder).symm.trans
      (hbuilt.urlFor_eq_joinPath hr.sole.mem hr.name hr.nodup hassigns horder)
  refine ⟨_, hjoin (.refl _), hne (htraced (.refl _)), hslash (.refl _), htraced (.refl _), ?_⟩
  intro targets' htargets
  rw [Route.words, targets_map_word hreads] at htargets
  obtain ⟨order, horder, rfl⟩ := hassigns.exists_perm hr.nodup htargets
  exact joinPath_injective (hne (htraced horder)) (hne (htraced (.refl _))) (hslash horder)
    (hslash (.refl _)) ((hjoin horder).symm.trans (hjoin (.refl _)))

/-- If the route is matched with its parameters, they stand in the path. -/
theorem Built.stands_of_matchRoute (hbuilt : Built placement errorHandler regs router)
    (hr : NamedRoute regs r) (hassigns : Assigns r.segments params)
    (hquestion : ∀ n ∈ names r.segments, QUESTION ∉ n) {lib : Library H M} {request : Request}
    {initial : Params} {node : Node H M} {texts : List Str}
    (heffective : effectiveMethod request = r.method)
    (hpath : splitPath request.getPath = pathOf texts)
    (htraced : List.Forall₂ Traced (r.path.splitOn SLASH) texts)
    (hreached : Reached lib.regex false r.segments (pathOf texts))
    (hmatch : router.matchRoute lib request initial = (.route node, valueOf params)) :
    ∀ seg s, (seg, s) ∈ r.segments.zip (pathOf texts) → seg.kind ≠ .static →
      (pathOf texts).length = r.segments.length ∧ substitution params (COLON :: seg.part) = s ∧
        s ≠ seg.part := by
  intro seg s hmem hkind
  have hreads := hbuilt.reads hr.sole.mem
  have hinvariant : Invariant (grown placement [r]) [r] := invariant_grown (noClash_singleton r)
  rw [← hpath] at hreached
  obtain ⟨u, hspells, hhandler, hsole⟩ :=
    hbuilt.matchRoute_sole hr.sole hr.handler heffective hreached initial
  have hparams := (Prod.mk.inj (hsole.symm.trans hmatch)).2
  rw [hpath] at hparams hreached
  have hname := part_mem_names hr.simple (List.of_mem_zip hmem).1 hkind
  obtain ⟨hlength, hstands⟩ := stands_of_addDefault hinvariant.distinct hinvariant.unmounted
    hinvariant.required hspells (hhandler ▸ hr.handler) hr.simple hr.nodup
    (slash_not_mem_part_of_mem_segments r) hreached
    (fun n hn => isSome_valueOf_iff.mpr (hassigns.keys.mem_iff.mpr hn)) hparams hmem hkind
  refine ⟨hlength, ?_⟩
  rcases hstands with ⟨hvalue, hne⟩ | ⟨rfl, defaultValue, hdefault, hne⟩
  · have hspec := (hassigns.spec hr.nodup hname).1
    exact ⟨Option.some_inj.mp (hspec.symm.trans hvalue), hne⟩
  · -- the text of a parameter with a default is not its name
    obtain ⟨hequals, hnone⟩ :=
      equals_of_default hreads htraced hmem hdefault hne (hquestion _ hname)
    exact absurd hequals hnone

/-- **A route that is matched again is reversible.** -/
theorem Router.Reverses.reversible {lib : Library H M} (h : router.Reverses lib r params)
    (hbuilt : Built placement errorHandler regs router) (hr : NamedRoute regs r)
    (hassigns : Assigns r.segments params) (hquestion : ∀ n ∈ names r.segments, QUESTION ∉ n) :
    Reversible r params := by
  by_cases hroot : r.path = ascii "/"
  · exact reversible_root hroot hassigns
  have hreads := hbuilt.reads hr.sole.mem
  have htargets : targets r.words = (names r.segments).map (COLON :: ·) := targets_map_word hreads
  obtain ⟨uri, horders, hmatch⟩ := h
  obtain ⟨texts, huri, hne, hslash, htraced, hall⟩ :=
    hbuilt.exists_texts hr hassigns hquestion horders
  -- a request for the url is matched, and gives back the values
  obtain ⟨request, hmethod, hheader, rfl⟩ : ∃ request : Request, request.method = r.method ∧
      request.getHeader (ascii "X-HTTP-Method-Override") = [] ∧ request.uri = uri :=
    ⟨{ Request.empty 1 1 with method := r.method, uri }, rfl, rfl, rfl⟩
  obtain ⟨heffective, node, -, hmatch⟩ := hmatch request (fun _ => none) hmethod hheader rfl
  have hpath := splitPath_getPath hne hslash huri
  have hreached := hbuilt.reached_of_matchRoute hr.sole hr.handler hroot heffective hmatch
  rw [hpath] at hreached
  have hstands :=
    hbuilt.stands_of_matchRoute hr hassigns hquestion heffective hpath htraced hreached hmatch
  obtain ⟨hgives, hlength⟩ := gives_of_reached hreads htraced hr.simple hreached
    fun seg s hmem hkind => (hstands seg s hmem hkind).imp_right And.left
  have hmark : ∀ t ∈ targets r.words, QUESTION ∉ t := by
    rw [htargets]
    intro t ht
    obtain ⟨n, hn, rfl⟩ := List.mem_map.mp ht
    exact List.not_mem_cons_of_ne_of_not_mem (by decide) (hquestion n hn)
  have hsuffix : ∀ t s, .hole t s ∈ r.words → s.head? = some QUESTION → s = [QUESTION] := by
    intro t s hmem hhead
    obtain ⟨piece, -, hword⟩ := List.mem_map.mp hmem
    rcases suffix_of_word hword with rfl | rfl | hequals
    · cases hhead
    · rfl
    · exact absurd (hequals.symm.trans hhead) (by decide)
  -- all orders give the same texts, which they do for words that are apart only
  obtain ⟨hapart, hbare, hsuffixes⟩ := hgives.apart (hr.nodup_targets hreads) hmark hsuffix hall
  refine ⟨hapart, hbare, hsuffixes, fun text hmem => hgives.mark_notMem _ hmem, fun kv hkv => ?_⟩
  obtain ⟨isOptional, defaultValue, hseg⟩ := Routing.mem_names.mp (hassigns.mem_names hkv)
  obtain ⟨s, hmem⟩ := exists_mem_zip hlength hseg
  obtain ⟨-, hvalue, hown⟩ := hstands _ s hmem nofun
  rw [hassigns.substitution_eq hr.nodup hkv] at hvalue
  exact hvalue ▸ hown

/-- **When reverse routing inverts matching.** -/
theorem Built.reverses_iff (hbuilt : Built placement errorHandler regs router)
    (hr : NamedRoute regs r) (hassigns : Assigns r.segments params) (lib : Library H M) :
    (Reversible r params → router.Reverses lib r params) ∧
      ((∀ n ∈ names r.segments, QUESTION ∉ n) →
        (router.Reverses lib r params ↔ Reversible r params)) := by
  have hreverses : Reversible r params → router.Reverses lib r params :=
    fun h => h.reverses lib hbuilt hr hassigns
  exact ⟨hreverses, fun hquestion =>
    ⟨fun h => h.reversible hbuilt hr hassigns hquestion, hreverses⟩⟩

end Route

/-- A named `GET` route. -/
def namedRoute (name path : String) (handler : ℕ) : Route ℕ Unit :=
  { getRoute path handler with name := ascii name }

/-- A user. -/
def user : Route ℕ Unit := namedRoute "user" "/users/:id" 0

/-- A page, the first if there is none in the path. -/
def page : Route ℕ Unit := namedRoute "page" "/pages/:n=1" 0

theorem namedRoute_user : NamedRoute [.route user] user where
  sole := rfl
  name := by decide
  handler := rfl
  simple := List.forall_mem_cons.mpr
    ⟨Or.inl rfl, List.forall_mem_singleton.mpr (Or.inr ⟨false, [], rfl⟩)⟩
  nodup := by decide

theorem namedRoute_page : NamedRoute [.route page] page where
  sole := rfl
  name := by decide
  handler := rfl
  simple := List.forall_mem_cons.mpr
    ⟨Or.inl rfl, List.forall_mem_singleton.mpr (Or.inr ⟨true, ascii "1", rfl⟩)⟩
  nodup := by decide

/-- The url of a user leads to the user. -/
theorem reverses_user :
    (Router.build .last () [.route user]).Reverses (.stable digits) user
      [(ascii "id", ascii "5")] := by
  have hbuilt : Built .last () [.route user] (.build .last () [.route user]) := .add .construct rfl
  have hwords : user.words = [.fixed [], .fixed (ascii "users"), .hole (ascii ":id") []] := by
    decide
  refine (hbuilt.reverses_iff namedRoute_user ⟨by decide, by decide⟩ (.stable digits)).1
    ⟨?_, ?_, ?_, ?_, by decide⟩
  · rw [hwords]
    decide
  · simp [hwords, Word.Bare]
  · simp [hwords]
  · rw [hwords]
    intro text htext
    have hfixed : text = [] ∨ text = ascii "users" := by simpa using htext
    rcases hfixed with rfl | rfl <;> decide

/-- The default of a page stays in its url. -/
theorem not_reverses_page :
    Built .last () [.route page] (.build .last () [.route page]) ∧
      NamedRoute [.route page] page ∧ Assigns page.segments [(ascii "n", ascii "5")] ∧
      ¬ (Router.build .last () [.route page]).Reverses (.stable digits) page
        [(ascii "n", ascii "5")] := by
  refine ⟨.add .construct rfl, namedRoute_page, ⟨by decide, by decide⟩, ?_⟩
  rintro ⟨uri, horders, hmatch⟩
  obtain ⟨-, node, -, hresult⟩ := hmatch (getOf "/pages/5=1") (fun _ => none) rfl rfl
    (horders _ (.refl _))
  have hfound : ((Router.build .last () [.route page]).matchRoute (.stable digits)
      (getOf "/pages/5=1") fun _ => none).2 (ascii "n") = some (ascii "5=1") := rfl
  rw [hresult] at hfound
  have hpage : valueOf [(ascii "n", ascii "5")] (ascii "n") ≠ some (ascii "5=1") := by decide
  exact hpage hfound

/-- The name that is a prefix of the other is looked for in its place. -/
example : substitute (ascii "/:ab/:a") [(ascii "ab", ascii "1"), (ascii "a", ascii "2")] =
      ascii "/1/2" ∧
    substitute (ascii "/:ab/:a") [(ascii "a", ascii "2"), (ascii "ab", ascii "1")] =
      ascii "/2b/:a" := by
  decide

end GinCpp.Routing
