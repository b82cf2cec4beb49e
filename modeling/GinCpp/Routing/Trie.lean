import GinCpp.KeyedTree.Basic
import GinCpp.Routing.Pattern

/-!
# The route trie

The nodes of the trie, and the two loops that put a route or a mount into it, the bodies of
`Router::add_route` and `Router::add_static_route`.

All kinds of segments share the children of a node, under their bare names.  The type of a node
is that of the segment that created it; a later segment of the same name finds it there and
overwrites the fields of its own kind.
-/

namespace GinCpp.Routing

/-- `TrieNode`, less its children.  `H` are the handlers and `M` the middlewares. -/
structure Node (H M : Type) where
  part : Str
  type : NodeType
  handler : Option H := none
  middlewares : List M := []
  isWildcard : Bool := false
  isCatchAll : Bool := false
  isStaticFiles : Bool := false
  staticFilesBaseDir : Str := []
  isOptional : Bool := false
  defaultValue : Str := []
  regexPattern : Str := []
  priority : Int := 0

variable {H M : Type}

/-- `TrieNode`. -/
abbrev TrieNode (H M : Type) := KeyedTree Str (Node H M)

/-- `TrieNode("", NodeType::STATIC)`. -/
def TrieNode.root : TrieNode H M := { value := { part := [], type := .static }, children := [] }

namespace Node

/-- The fields that a segment passing through a node overwrites. -/
def mark (seg : Segment) (node : Node H M) : Node H M :=
  match seg.kind with
  | .static => node
  | .parameter isOptional defaultValue => { node with isOptional, defaultValue }
  | .wildcard => { node with isWildcard := true }
  | .regex pattern => { node with regexPattern := pattern }

/-- The end of `add_route`: the handler, the middlewares and the priority.  A priority of 0 asks
for the default of the node's type, which regex nodes do not have. -/
def register (handler : Option H) (middlewares : List M) (priority : Int) (node : Node H M) :
    Node H M :=
  { node with
    handler, middlewares,
    priority :=
      if priority ≠ 0 then priority
      else match node.type with
        | .static => 3
        | .parameter => 2
        | .wildcard => 1
        | .regex => node.priority }

/-- The end of `add_static_route`. -/
def mount (baseDir : Str) (node : Node H M) : Node H M :=
  { node with isStaticFiles := true, staticFilesBaseDir := baseDir }

/-- The branch of `add_route` for the path `/`. -/
def catchAll (handler : Option H) (middlewares : List M) (node : Node H M) : Node H M :=
  { node with isCatchAll := true, handler, middlewares }

end Node

/-- A new node for a segment. -/
def Segment.node (seg : Segment) : Node H M := { part := seg.part, type := seg.kind.type }

/-- One turn of the loop of `add_route`: the key, and the node that is there or a new one, marked
by the segment. -/
def Segment.step (seg : Segment) : Str × (Option (Node H M) → Node H M) :=
  (seg.part, fun node => (node.getD seg.node).mark seg)

/-- One turn of the loop of `add_static_route`. -/
def mountStep (seg : Str) : Str × (Option (Node H M) → Node H M) :=
  (seg, fun node => node.getD { part := seg, type := .static })

namespace TrieNode

/-- The loop of `add_route` and what follows it. -/
def addRoute (placement : KeyedTree.Placement Str (Node H M)) (segments : List Segment)
    (handler : Option H) (middlewares : List M) (priority : Int) (root : TrieNode H M) :
    TrieNode H M :=
  root.insert placement (Node.register handler middlewares priority) (segments.map Segment.step)

/-- The loop of `add_static_route` and what follows it. -/
def addStaticRoute (placement : KeyedTree.Placement Str (Node H M)) (segments : List Str)
    (baseDir : Str) (root : TrieNode H M) : TrieNode H M :=
  root.insert placement (Node.mount baseDir) (segments.map mountStep)

end TrieNode

end GinCpp.Routing
