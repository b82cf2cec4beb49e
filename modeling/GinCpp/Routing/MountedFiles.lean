import GinCpp.Routing.Completeness
import GinCpp.Routing.Coverage

/-!
# A mount serves its directory

The matcher finds a mount by its own segments, and the file server takes `/` and the directory off
the front of the whole path.  So the file that is opened is the one in the directory only where the
two say the same (`Built.serves_iff`).
-/

namespace GinCpp.Routing

open Http KeyedTree Middleware RouteMatcher GinCpp.Path

/-! ## The tree of a mount -/

section Mount

variable {H M : Type} {placement : Placement Str (Node H M)} {errorHandler : M}
  {router : Router H M} {path baseDir : Str}

/-- A path that begins with the address of a mount leads to a mount. -/
theorem exists_candidate_of_isStaticFiles (regex : Regex) {t : TrieNode H M} {address : List Str}
    {node : Node H M} (hnode : t.valueAt? address = some node) (hmount : node.isStaticFiles = true)
    (rest : List Str) : ∃ below node', Candidate regex t (address ++ rest) below node' := by
  induction address generalizing t with
  | nil =>
      obtain rfl := Option.some_inj.mp hnode
      exact ⟨[], _, .mount hmount⟩
  | cons key address ih =>
      cases hroot : t.value.isStaticFiles with
      | true => exact ⟨[], _, .mount hroot⟩
      | false =>
          rw [valueAt?_cons] at hnode
          obtain ⟨c, hchild, hnode⟩ := Option.bind_eq_some_iff.mp hnode
          obtain ⟨below, node', hcandidate⟩ := ih hnode
          exact ⟨key :: below, node', .child hroot hchild (.name rfl) hcandidate⟩

/-- The tree with the mount alone. -/
theorem Built.treeFor_mount
    (hbuilt : Built placement errorHandler [.mount path baseDir] router) :
    router.treeFor (ascii "GET") = walk placement (.mount baseDir)
      ((splitPath path).map fun seg => ⟨seg, .static⟩) .root := by
  refine And.right (hbuilt.treeFor_induction (P := fun regs tree =>
    (regs = [] → tree = .root) ∧ ∀ path baseDir, regs = [.mount path baseDir] →
      tree = walk placement (.mount baseDir)
        ((splitPath path).map fun seg => ⟨seg, .static⟩) .root)
    ⟨fun _ => rfl, fun path baseDir h => absurd h (List.cons_ne_nil _ _).symm⟩ ?_ ?_)
    path baseDir rfl
  · rintro regs reg tree - - ⟨hroot, -⟩
    refine ⟨fun h => absurd h (by simp), fun path baseDir h => ?_⟩
    obtain ⟨hnil, hreg⟩ := List.append_eq_singleton_iff.mp h |>.resolve_right (by simp)
    obtain rfl : reg = .mount path baseDir := by simpa using hreg
    rw [hroot hnil]
    rfl
  · rintro regs reg tree hother ⟨hroot, -⟩
    refine ⟨fun h => absurd h (by simp), fun path baseDir h => ?_⟩
    obtain ⟨hnil, hreg⟩ := List.append_eq_singleton_iff.mp h |>.resolve_right (by simp)
    obtain rfl : reg = .mount path baseDir := by simpa using hreg
    exact absurd rfl hother

/-- The mount is found there. -/
theorem exists_valueAt?_mount (placement : Placement Str (Node H M)) (segments : List Str)
    (baseDir : Str) : ∃ node,
      (walk placement (.mount baseDir) (segments.map fun seg => ⟨seg, .static⟩)
        (TrieNode.root : TrieNode H M)).valueAt? segments = some node ∧
      node.isStaticFiles = true := by
  have hdistinct : (TrieNode.root : TrieNode H M).Distinct := Invariant.root.distinct
  have hparts : (segments.map fun seg => (⟨seg, .static⟩ : Segment)).map Segment.part =
      segments := by
    rw [List.map_map]
    exact List.map_id segments
  obtain ⟨node, hnode⟩ := exists_valueAt?_walk_end placement (.mount baseDir)
    (segments.map fun seg => ⟨seg, .static⟩) hdistinct
  rw [hparts] at hnode
  exact ⟨_, hnode, rfl⟩

/-- There are no handlers. -/
theorem handler_mount (placement : Placement Str (Node H M)) (segments : List Str)
    (baseDir : Str) : ∀ address, ∀ node ∈
      (walk placement (.mount baseDir) (segments.map fun seg => ⟨seg, .static⟩)
        (TrieNode.root : TrieNode H M)).valueAt? address, node.handler = none := by
  have hleaf : ∀ (_ : List Str) (node : Node H M), node.handler = none →
      (node.mount baseDir).handler = none := fun _ _ hnode => hnode
  refine forall_valueAt?_insert Invariant.root.distinct hleaf (fun step hstep _ old hold => ?_)
    fun address node hnode => ?_
  · obtain ⟨seg, -, rfl⟩ := List.mem_map.mp hstep
    change ((old.getD seg.node).mark seg).handler = none
    rw [mark_handler]
    cases old with
    | none => rfl
    | some node => exact hold node rfl
  · cases address with
    | nil =>
        obtain rfl := Option.some_inj.mp hnode
        rfl
    | cons key address => cases hnode

/-- **A request below the mount is dispatched to the file server.** -/
theorem Built.matchRoute_mount
    (hbuilt : Built placement errorHandler [.mount path baseDir] router) (lib : Library H M)
    {request : Request} (params : Params) {rest : List Str}
    (hmethod : effectiveMethod request = ascii "GET")
    (hpath : splitPath request.getPath = splitPath path ++ rest) :
    (router.matchRoute lib request params).1 = .staticFiles baseDir := by
  have hdistinct := hbuilt.distinct (ascii "GET")
  have hdispatch : ∃ directory,
      (router.matchRoute lib request params).1 = .staticFiles directory := by
    obtain ⟨node, hnode, hmount⟩ := exists_valueAt?_mount placement (splitPath path) baseDir
    obtain ⟨below, node', hcandidate⟩ :=
      exists_candidate_of_isStaticFiles lib.regex hnode hmount rest
    rw [← hbuilt.treeFor_mount, ← hpath] at hcandidate
    obtain ⟨best, hbest, hlookup, -⟩ := exists_matchRoute_of_mem lib params
      ((mem_findMatches_iff_candidate (m := ⟨below, node'⟩) hdistinct).mpr
        ⟨below, rfl, hcandidate⟩)
    obtain ⟨address, -, hvalue, hpushed⟩ := exists_address_of_mem_findMatches hdistinct hbest
    rw [hbuilt.treeFor_mount] at hvalue
    have hstatic : best.node.isStaticFiles = true := hpushed.resolve_right fun hhandler => by
      rw [handler_mount placement _ baseDir address _ hvalue] at hhandler
      cases hhandler
    refine ⟨best.node.staticFilesBaseDir, ?_⟩
    rw [Router.matchRoute, Router.lookup_eq, hmethod]
    generalize hresult : RouteMatcher.matchRoute lib (router.treeFor (ascii "GET"))
      request.getPath params = result at hlookup
    obtain ⟨found, params'⟩ := result
    obtain rfl : found = some best := hlookup
    dsimp only
    rw [if_pos hstatic]
  obtain ⟨directory, hdirectory⟩ := hdispatch
  obtain ⟨path', hmem⟩ := hbuilt.exists_mount hdirectory
  obtain ⟨-, rfl⟩ := Registration.mount.inj (List.mem_singleton.mp hmem)
  exact hdirectory

end Mount

/-! ## The name of the file -/

/-- The file with some segments in a directory.  The empty directory is the current one. -/
def fileIn (baseDir : Str) (segments : List Str) : Str :=
  if baseDir = [] then joinPath segments else baseDir ++ SLASH :: joinPath segments

/-- What a name leads through. -/
abbrev through (name : Str) : List Str := components SLASH DOT name

/-- The mount and the directory lead through the same, if `/` and the directory are what the path
begins with, and the mount through nothing otherwise. -/
def PrefixAgrees (baseDir : Str) (mount rest : List Str) : Prop :=
  if baseDir <+: joinPath (mount ++ rest) then through baseDir = through (joinPath mount)
  else through (joinPath mount) = []

/-- There are no two dots in a row. -/
def NoDots (baseDir : Str) (segments : List Str) : Prop :=
  ¬ ascii ".." <:+: baseDir ∧ ∀ s ∈ segments, ¬ ascii ".." <:+: s

/-- A path that is joined from segments is split into them again. -/
theorem splitPath_cons_joinPath {segments : List Str} (h : ∀ s ∈ segments, s ≠ [] ∧ SLASH ∉ s) :
    splitPath (SLASH :: joinPath segments) = segments := by
  have hsplit : (SLASH :: joinPath segments).splitOn SLASH =
      [] :: (joinPath segments).splitOn SLASH := List.splitOn_append_cons_self [] _
  rw [splitPath, hsplit, List.filter_cons_of_neg (by simp)]
  cases segments with
  | nil => rfl
  | cons s segments =>
      rw [joinPath, List.splitOn_intercalate _ (fun seg hseg => (h seg hseg).2)
        (List.cons_ne_nil _ _), List.filter_eq_self]
      intro seg hseg
      simpa using (h seg hseg).1

section FilePath

variable {baseDir : Str} {mount rest : List Str}

theorem through_joinPath {segments : List Str} (h : ∀ s ∈ segments, SLASH ∉ s) :
    through (joinPath segments) = segments.filter fun s => s ≠ [] ∧ s ≠ [DOT] :=
  components_intercalate_eq_filter h

theorem through_joinPath_append (h : ∀ s ∈ mount ++ rest, SLASH ∉ s) :
    through (joinPath (mount ++ rest)) = through (joinPath mount) ++ through (joinPath rest) := by
  obtain ⟨hmount, hrest⟩ := List.forall_mem_append.mp h
  rw [through_joinPath h, through_joinPath hmount, through_joinPath hrest, List.filter_append]

theorem filePath_of_begins (h : baseDir <+: joinPath (mount ++ rest)) :
    FileServer.filePath baseDir (SLASH :: joinPath (mount ++ rest)) =
      joinPath (mount ++ rest) := by
  obtain ⟨text, htext⟩ := h
  have hslash : SLASH :: baseDir <+: SLASH :: (baseDir ++ text) :=
    List.cons_prefix_cons.mpr ⟨rfl, List.prefix_append _ _⟩
  rw [FileServer.filePath, ← htext, if_pos hslash, List.length_cons, List.drop_succ_cons,
    List.drop_left]

theorem filePath_of_not_begins (h : ¬ baseDir <+: joinPath (mount ++ rest)) :
    FileServer.filePath baseDir (SLASH :: joinPath (mount ++ rest)) =
      baseDir ++ SLASH :: joinPath (mount ++ rest) := by
  rw [FileServer.filePath, if_neg fun hprefix => h (List.cons_prefix_cons.mp hprefix).2]

/-- The file that is opened is the one in the directory. -/
theorem same_filePath_iff (h : ∀ s ∈ mount ++ rest, s ≠ [] ∧ SLASH ∉ s) :
    normalise SLASH DOT (FileServer.filePath baseDir (SLASH :: joinPath (mount ++ rest))) =
        normalise SLASH DOT (fileIn baseDir rest) ↔ PrefixAgrees baseDir mount rest := by
  have hslash : ∀ s ∈ mount ++ rest, SLASH ∉ s := fun s hs => (h s hs).2
  have hrelative : ∀ segments, (∀ s ∈ segments, s ≠ [] ∧ SLASH ∉ s) →
      (joinPath segments).head? ≠ some SLASH := fun segments => head?_intercalate_ne
  rw [normalise_eq_iff, PrefixAgrees, fileIn]
  by_cases hprefix : baseDir <+: joinPath (mount ++ rest)
  · rw [if_pos hprefix, filePath_of_begins hprefix, ← through, through_joinPath_append hslash]
    by_cases hempty : baseDir = []
    · rw [if_pos hempty, hempty, and_iff_right (iff_of_false (hrelative _ h)
        (hrelative _ (List.forall_mem_append.mp h).2)), List.append_left_eq_self]
      exact eq_comm
    · have hhead : (baseDir ++ SLASH :: joinPath rest).head? ≠ some SLASH := by
        obtain ⟨text, htext⟩ := hprefix
        have hjoined := hrelative _ h
        rw [← htext, List.head?_append_of_ne_nil _ hempty] at hjoined
        rwa [List.head?_append_of_ne_nil _ hempty]
      rw [if_neg hempty, and_iff_right (iff_of_false (hrelative _ h) hhead),
        components_append_cons, List.append_left_inj]
      exact eq_comm
  · have hempty : baseDir ≠ [] := by
      rintro rfl
      exact hprefix List.nil_prefix
    rw [if_neg hprefix, if_neg hempty, filePath_of_not_begins hprefix,
      List.head?_append_of_ne_nil _ hempty, List.head?_append_of_ne_nil _ hempty,
      and_iff_right Iff.rfl, components_append_cons, components_append_cons,
      List.append_right_inj, ← through, through_joinPath_append hslash]
    exact List.append_left_eq_self

/-- The file is not refused. -/
theorem noDots_filePath_iff (baseDir : Str) (mount rest : List Str) :
    ¬ ascii ".." <:+: FileServer.filePath baseDir (SLASH :: joinPath (mount ++ rest)) ↔
      NoDots baseDir (mount ++ rest) := by
  have hslash : SLASH ∉ ascii ".." := by decide
  have hjoined : ascii ".." <:+: joinPath (mount ++ rest) ↔
      ∃ s ∈ mount ++ rest, ascii ".." <:+: s :=
    isInfix_intercalate_iff hslash (by decide)
  have hnone : (¬ ∃ s ∈ mount ++ rest, ascii ".." <:+: s) ↔
      ∀ s ∈ mount ++ rest, ¬ ascii ".." <:+: s := by
    simp only [not_exists, not_and]
  rw [NoDots, ← hnone, ← hjoined]
  by_cases hprefix : baseDir <+: joinPath (mount ++ rest)
  · rw [filePath_of_begins hprefix]
    exact (and_iff_right_of_imp fun hnot hdots => hnot (hdots.trans hprefix.isInfix)).symm
  · rw [filePath_of_not_begins hprefix, isInfix_append_cons_iff hslash, not_or]

end FilePath

/-! ## The answer -/

section Answer

variable {E : Type} {sorting : Sorting E} {globals : List (Layer E)}

/-- What an `ifstream` that is opened with a name gives, or that it does not open: a directory opens
and gives nothing.  Repeated slashes and single dots in a name do not matter. -/
structure FileSystem where
  read : Str → Option Str
  read_congr : ∀ name name', normalise SLASH DOT name = normalise SLASH DOT name' →
    read name = read name'

/-- The content of a file with the status `ok`, and `not_found` without one. -/
def Answers (files : FileSystem) (name : Str) (run : Invocation E) : Prop :=
  run.outcome = none ∧
    match files.read name with
    | some content => run.state.response.status = .ok ∧ run.state.response.content = content
    | none => run.state.response.status = .notFound

/-- A file system where every name can be opened, or every name of one file. -/
def FileSystem.all : FileSystem := ⟨fun _ => some [], fun _ _ _ => rfl⟩

def FileSystem.only (name : Str) : FileSystem where
  read name' := if normalise SLASH DOT name' = normalise SLASH DOT name then some [] else none
  read_congr name' name'' h := by rw [h]

/-- What the file server answers with. -/
theorem invoke_staticFiles (files : Str → Option Str) (sorting : Sorting E)
    (globals : List (Layer E)) (baseDir : Str) (s : Exchange E) :
    let run := Dispatch.invoke files sorting globals s (.staticFiles baseDir)
    let name := FileServer.filePath baseDir s.request.getPath
    run.outcome = none ∧
      (ascii ".." <:+: name → run.state.response.status = .badRequest) ∧
      (¬ ascii ".." <:+: name → match files name with
        | some content => run.state.response.status = .ok ∧ run.state.response.content = content
        | none => run.state.response.status = .notFound) := by
  intro run name
  have hrun : run = Dispatch.invoke files sorting globals s (.staticFiles baseDir) := rfl
  rw [hrun, Dispatch.invoke, FileServer.handleRequest]
  by_cases hdots : ascii ".." <:+: name
  · rw [if_pos hdots]
    exact ⟨rfl, fun _ => rfl, fun hnot => absurd hdots hnot⟩
  · rw [if_neg hdots]
    dsimp only
    cases hfile : files name with
    | none => exact ⟨rfl, fun h => absurd h hdots, fun _ => rfl⟩
    | some content => exact ⟨rfl, fun h => absurd h hdots, fun _ => ⟨rfl, rfl⟩⟩

/-- The file server answers with a file if and only if it is the one that it opens. -/
theorem answers_staticFiles_iff {baseDir name : Str} (s : Exchange E) :
    (∀ files : FileSystem, Answers files name
        (Dispatch.invoke files.read sorting globals s (.staticFiles baseDir))) ↔
      ¬ ascii ".." <:+: FileServer.filePath baseDir s.request.getPath ∧
        normalise SLASH DOT (FileServer.filePath baseDir s.request.getPath) =
          normalise SLASH DOT name := by
  constructor
  · intro hanswers
    by_cases hdots : ascii ".." <:+: FileServer.filePath baseDir s.request.getPath
    · -- a file that can be read is refused
      have hok := (hanswers .all).2.1
      rw [(invoke_staticFiles FileSystem.all.read sorting globals baseDir s).2.1 hdots] at hok
      cases hok
    · refine ⟨hdots, ?_⟩
      by_contra hother
      have hnone : (FileSystem.only name).read (FileServer.filePath baseDir s.request.getPath) =
          none := if_neg hother
      have hsome : (FileSystem.only name).read name = some [] := if_pos rfl
      have hanswer := (hanswers (.only name)).2
      have hopened := (invoke_staticFiles (FileSystem.only name).read sorting globals baseDir
        s).2.2 hdots
      rw [hnone] at hopened
      rw [hsome, hopened] at hanswer
      cases hanswer.1
  · rintro ⟨hdots, hsame⟩ files
    obtain ⟨houtcome, -, hopened⟩ := invoke_staticFiles files.read sorting globals baseDir s
    refine ⟨houtcome, ?_⟩
    rw [← files.read_congr _ _ hsame]
    exact hopened hdots

/-- **When a mount serves its directory.** -/
theorem Built.serves_iff {placement : Placement Str (Node (Handler E) (Layer E))}
    {errorHandler : Layer E} {router : Router (Handler E) (Layer E)} {path baseDir : Str}
    (hbuilt : Built placement errorHandler [.mount path baseDir] router)
    (lib : Library (Handler E) (Layer E)) (sorting : Sorting E) (params : Params)
    {s : Exchange E} {rest : List Str} (hmethod : effectiveMethod s.request = ascii "GET")
    (hpath : s.request.getPath = SLASH :: joinPath (splitPath path ++ rest))
    (hrest : ∀ seg ∈ rest, seg ≠ [] ∧ SLASH ∉ seg) :
    (∀ files : FileSystem, Answers files (fileIn baseDir rest)
        ((router.matchRoute lib s.request params).1.invoke files.read sorting
          router.globalMiddlewares s)) ↔
      PrefixAgrees baseDir (splitPath path) rest ∧ NoDots baseDir (splitPath path ++ rest) := by
  have hsegments : ∀ seg ∈ splitPath path ++ rest, seg ≠ [] ∧ SLASH ∉ seg := by
    refine List.forall_mem_append.mpr ⟨fun seg hseg => ⟨?_, ?_⟩, hrest⟩
    · simpa using (List.mem_filter.mp hseg).2
    · exact slash_not_mem_of_mem_splitPath hseg
  have hsplit : splitPath s.request.getPath = splitPath path ++ rest := by
    rw [hpath, splitPath_cons_joinPath hsegments]
  rw [hbuilt.matchRoute_mount lib params hmethod hsplit, answers_staticFiles_iff, hpath,
    same_filePath_iff hsegments, noDots_filePath_iff]
  exact and_comm

end Answer

/-- Scripts in a directory of their own. -/
def scriptsMount : Registration (Handler Unit) (Layer Unit) :=
  .mount (ascii "/assets") (ascii "public")

/-- The request for a script. -/
def scriptRequest : Exchange Unit := ⟨getOf "/assets/app.js", .stockResponse .ok, ()⟩

theorem serves_iff_scripts : ∃ router,
    Built .last createErrorHandler [scriptsMount] router ∧
    ((∀ files : FileSystem, Answers files (fileIn (ascii "public") [ascii "app.js"])
        ((router.matchRoute (.stable digits) scriptRequest.request fun _ => none).1.invoke
          files.read .stable router.globalMiddlewares scriptRequest)) ↔
      PrefixAgrees (ascii "public") (splitPath (ascii "/assets")) [ascii "app.js"] ∧
        NoDots (ascii "public") (splitPath (ascii "/assets") ++ [ascii "app.js"])) := by
  have hbuilt : Built .last createErrorHandler [scriptsMount] _ := .add .construct rfl
  exact ⟨_, hbuilt, Built.serves_iff hbuilt (.stable digits) .stable (fun _ => none)
    (s := scriptRequest) rfl (by decide) (by decide)⟩

/-- The script is not found, since it is looked for in `public/assets`. -/
theorem not_served_script : ∃ router, Built .last createErrorHandler [scriptsMount] router ∧
    ¬ ∀ files : FileSystem, Answers files (fileIn (ascii "public") [ascii "app.js"])
      ((router.matchRoute (.stable digits) scriptRequest.request fun _ => none).1.invoke
        files.read .stable router.globalMiddlewares scriptRequest) := by
  refine ⟨.build .last createErrorHandler [scriptsMount], .add .construct rfl,
    fun hanswers => ?_⟩
  have hanswer := (hanswers (.only (ascii "public/app.js"))).2
  have hread : (FileSystem.only (ascii "public/app.js")).read
      (fileIn (ascii "public") [ascii "app.js"]) = some [] := by decide +kernel
  have hstatus : (((Router.build .last createErrorHandler [scriptsMount]).matchRoute
      (.stable digits) scriptRequest.request fun _ => none).1.invoke
        (FileSystem.only (ascii "public/app.js")).read .stable
        (Router.build .last createErrorHandler [scriptsMount]).globalMiddlewares
        scriptRequest).state.response.status = .notFound := by decide +kernel
  rw [hread, hstatus] at hanswer
  cases hanswer.1

end GinCpp.Routing
