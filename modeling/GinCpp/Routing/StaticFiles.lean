import GinCpp.Path.Basic
import GinCpp.Routing.Invocation
import GinCpp.Routing.Locality

/-!
# Files outside of the directory

The file server takes `/` and the directory off the front of the path and puts the rest behind the
directory, as text.  Without `..` the name it opens is in the directory if and only if the rest is
set off by a slash (`Built.confined_iff`).
-/

namespace GinCpp.Routing

open Http KeyedTree Middleware GinCpp.Path

namespace FileServer

/-- What follows `/` and the directory in the path, the whole path if it does not begin so. -/
def rest (baseDir path : Str) : Str :=
  if SLASH :: baseDir <+: path then path.drop (SLASH :: baseDir).length else path

/-- The name that `handle_request` opens a file by. -/
def openedFile (files : Str → Option Str) (baseDir path : Str) : Option Str :=
  let name := filePath baseDir path
  if ascii ".." <:+: name then none else if (files name).isSome then some name else none

/-- **No file outside of the directory is opened**, whatever files there are. -/
def Confined (baseDir path : Str) : Prop :=
  ∀ files name, openedFile files baseDir path = some name → Inside SLASH DOT baseDir name

/-- The path is refused, or what follows the directory in it is set off by a slash.  A directory
that ends in a slash or in a dot of its own needs none, and the empty one must not be followed by
one. -/
def SetOff (baseDir path : Str) : Prop :=
  ascii ".." <:+: baseDir ++ rest baseDir path ∨
    if baseDir = [] then (rest baseDir path).head? ≠ some SLASH
    else rest baseDir path = [] ∨ (rest baseDir path).head? = some SLASH ∨
      lastPiece SLASH baseDir = [] ∨ lastPiece SLASH baseDir = [DOT]

variable {E : Type} {files : Str → Option Str} {baseDir path name : Str}

theorem filePath_eq (baseDir path : Str) : filePath baseDir path = baseDir ++ rest baseDir path :=
  rfl

/-- The content of the file that was opened is the response, and without one there is an error. -/
theorem handleRequest_openedFile (s : Exchange E) :
    (∃ name content, openedFile files baseDir s.request.getPath = some name ∧
        files name = some content ∧
        (handleRequest files baseDir s).1.response.status = .ok ∧
        (handleRequest files baseDir s).1.response.content = content) ∨
      (openedFile files baseDir s.request.getPath = none ∧
        (handleRequest files baseDir s).1.response.status ≠ .ok) := by
  unfold openedFile handleRequest
  dsimp only
  by_cases hdots : ascii ".." <:+: filePath baseDir s.request.getPath
  · rw [if_pos hdots, if_pos hdots]
    exact .inr ⟨rfl, nofun⟩
  · rw [if_neg hdots, if_neg hdots]
    cases hfile : files (filePath baseDir s.request.getPath) with
    | none => exact .inr ⟨rfl, nofun⟩
    | some content => exact .inl ⟨_, content, rfl, hfile, rfl, rfl⟩

theorem openedFile_eq_some_iff : openedFile files baseDir path = some name ↔
    ¬ ascii ".." <:+: name ∧ (files name).isSome ∧ name = filePath baseDir path := by
  unfold openedFile
  dsimp only
  split_ifs with hdots hfile
  · refine iff_of_false nofun ?_
    rintro ⟨hnone, -, rfl⟩
    exact hnone hdots
  · constructor
    · rintro ⟨rfl⟩
      exact ⟨hdots, hfile, rfl⟩
    · rintro ⟨-, -, rfl⟩
      rfl
  · refine iff_of_false nofun ?_
    rintro ⟨-, hsome, rfl⟩
    exact hfile hsome

/-- **When the file server stays in its directory.** -/
theorem confined_iff_setOff (hrelative : baseDir.head? ≠ some SLASH) (path : Str) :
    Confined baseDir path ↔ SetOff baseDir path := by
  have hinside : Confined baseDir path ↔ ascii ".." <:+: filePath baseDir path ∨
      Inside SLASH DOT baseDir (filePath baseDir path) := by
    constructor
    · intro hconfined
      by_cases hdots : ascii ".." <:+: filePath baseDir path
      · exact .inl hdots
      -- there may be a file of this very name
      · exact .inr (hconfined (fun _ => some []) _ (openedFile_eq_some_iff.mpr ⟨hdots, rfl, rfl⟩))
    · intro h files name hopened
      obtain ⟨hdots, -, rfl⟩ := openedFile_eq_some_iff.mp hopened
      exact h.resolve_left hdots
  rw [hinside, filePath_eq, inside_append_iff hrelative]
  rfl

end FileServer

open FileServer

variable {H M : Type} {placement : Placement Str (Node H M)} {errorHandler : M}
  {regs : List (Registration H M)} {router : Router H M}

/-! ## The directory of a mount -/

/-- A mount has the directory of a registration. -/
def Node.Mounted (regs : List (Registration H M)) (node : Node H M) : Prop :=
  node.isStaticFiles = true → ∃ path, .mount path node.staticFilesBaseDir ∈ regs

theorem Node.Mounted.mono {node : Node H M} {regs' : List (Registration H M)}
    (h : node.Mounted regs) (hsub : regs ⊆ regs') : node.Mounted regs' := by
  intro hmount
  obtain ⟨path, hpath⟩ := h hmount
  exact ⟨path, hsub hpath⟩

theorem Node.Mounted.mark {node : Node H M} (h : node.Mounted regs) (seg : Segment) :
    (node.mark seg).Mounted regs := by
  obtain ⟨part, kind⟩ := seg
  cases kind <;> exact h

theorem Node.Mounted.atEnd {node : Node H M} {reg : Registration H M} (h : node.Mounted regs)
    (hreg : reg ∈ regs) : (reg.atEnd node).Mounted regs := by
  cases reg with
  | route r =>
      rw [Registration.atEnd, Route.atEnd]
      split_ifs
      · exact h
      · exact h
  | mount path baseDir => exact fun _ => ⟨path, hreg⟩

theorem Built.mounted (hbuilt : Built placement errorHandler regs router) (method : Str) :
    ∀ address, ∀ node ∈ (router.treeFor method).valueAt? address, node.Mounted regs := by
  have hmono : ∀ regs (reg : Registration H M) (tree : TrieNode H M),
      (∀ address, ∀ node ∈ tree.valueAt? address, node.Mounted regs) →
      ∀ address, ∀ node ∈ tree.valueAt? address, node.Mounted (regs ++ [reg]) :=
    fun regs reg tree h address node hnode =>
      (h address node hnode).mono (List.subset_append_left _ _)
  refine hbuilt.treeFor_induction (P := fun regs tree =>
    ∀ address, ∀ node ∈ tree.valueAt? address, node.Mounted regs)
    (fun address node hnode => ?_) ?_ ?_
  · cases address with
    | nil =>
        obtain rfl := Option.some_inj.mp hnode
        exact nofun
    | cons key address => cases hnode
  · intro regs reg tree _ hdistinct ih
    refine forall_valueAt?_insert (P := fun _ node => node.Mounted (regs ++ [reg])) hdistinct
      (fun _ node hnode => hnode.atEnd (List.mem_append_right _ (List.mem_singleton_self _)))
      (fun step hstep _ old hold => ?_) (hmono regs reg tree ih)
    obtain ⟨seg, -, rfl⟩ := List.mem_map.mp hstep
    apply Node.Mounted.mark
    cases old with
    | none => exact nofun
    | some node => exact hold node rfl
  · intro regs reg tree _ ih
    exact hmono regs reg tree ih

/-- What a request is dispatched to comes from a registration. -/
theorem Built.exists_mount (hbuilt : Built placement errorHandler regs router) {lib : Library H M}
    {request : Request} {params : Params} {baseDir : Str}
    (h : (router.matchRoute lib request params).1 = .staticFiles baseDir) :
    ∃ path, .mount path baseDir ∈ regs := by
  have hmatch : router.matchRoute lib request params =
      (.staticFiles baseDir, (router.matchRoute lib request params).2) := Prod.ext h rfl
  obtain ⟨found, hfound, hmount, rfl⟩ := Router.matchRoute_staticFiles hmatch
  rw [Router.lookup_eq] at hfound
  have hmounted := hbuilt.mounted (effectiveMethod request)
  have hdistinct := hbuilt.distinct (effectiveMethod request)
  rcases RouteMatcher.matchRoute_cases hdistinct hfound with ⟨-, -, rfl, -⟩ | ⟨hmem, -, -⟩
  · exact hmounted [] _ valueAt?_nil hmount
  · obtain ⟨below, -, hnode, -⟩ :=
      RouteMatcher.exists_address_of_mem_findMatches hdistinct hmem
    exact hmounted below _ hnode hmount

/-- **When static files stay in their directory.**  For every request that is routed to a mount of
a relative directory. -/
theorem Built.confined_iff (hbuilt : Built placement errorHandler regs router)
    (hrelative : ∀ path baseDir, .mount path baseDir ∈ regs → baseDir.head? ≠ some SLASH)
    (lib : Library H M) (request : Request) (params : Params) {baseDir : Str}
    (hrouted : (router.matchRoute lib request params).1 = .staticFiles baseDir) :
    Confined baseDir request.getPath ↔ SetOff baseDir request.getPath := by
  obtain ⟨path, hpath⟩ := hbuilt.exists_mount hrouted
  exact confined_iff_setOff (hrelative path baseDir hpath) request.getPath

/-- The directory `static` for every path. -/
def rootMount : Registration ℕ Unit := .mount (ascii "/") (ascii "static")

def mountedAtRoot : Router ℕ Unit := Router.build .last () [rootMount]

theorem built_mountedAtRoot : Built .last () [rootMount] mountedAtRoot := .add .construct rfl

theorem relative_rootMount : ∀ path baseDir, .mount path baseDir ∈ [rootMount] →
    baseDir.head? ≠ some SLASH := by
  intro path baseDir hmem
  obtain ⟨-, rfl⟩ := Registration.mount.inj (List.mem_singleton.mp hmem)
  decide

/-- A path that leads into another directory. -/
theorem not_confined_private :
    (mountedAtRoot.matchRoute (.stable digits) (getOf "/static-private/key") fun _ => none).1 =
        .staticFiles (ascii "static") ∧
      ¬ Confined (ascii "static") (getOf "/static-private/key").getPath := by
  refine ⟨rfl, fun hconfined => ?_⟩
  have hinside := hconfined (fun _ => some []) (ascii "static-private/key") (by decide +kernel)
  exact absurd hinside (by decide +kernel)

theorem confined_iff_private :
    Confined (ascii "static") (getOf "/static-private/key").getPath ↔
      SetOff (ascii "static") (getOf "/static-private/key").getPath :=
  built_mountedAtRoot.confined_iff relative_rootMount (.stable digits)
    (getOf "/static-private/key") (fun _ => none) rfl

end GinCpp.Routing
