import PathQuery.Selection.Graph
import PathQuery.Traversal.Breadth

/-! The selection as a forest: in each connected part the tree of shortest ways from its root. -/
namespace PathQuery

structure OutlineEntry where
  id : String
  name : String
  path : List String
  explicit : Bool
  optional : Bool
  count : Bool
  deriving DecidableEq, Repr

inductive OutlineTree where
  | node (entry : OutlineEntry) (children : List OutlineTree)
  deriving Repr

structure Outline where
  root : Option String
  trees : List OutlineTree
  nodes : List OutlineTree
  deriving Repr

structure OutlineOptions where
  explicit : List String
  allOptional : Bool
  referencesOptional : Bool

namespace OutlineTree

def entry : OutlineTree → OutlineEntry
  | node e _ => e

def children : OutlineTree → List OutlineTree
  | node _ trees => trees

mutual

def toValue : OutlineTree → Value
  | node e trees => .mapping
      [("type",.text "selectionNode"),("id",.text e.id),("name",.text e.name),
        ("path_array",Value.texts e.path),("explicit",.flag e.explicit),("optional",.flag e.optional),
        ("count",.flag e.count),("children",.list (toValues trees))]

def toValues : List OutlineTree → List Value
  | [] => []
  | tree :: rest => toValue tree :: toValues rest

end

end OutlineTree

namespace Outline

abbrev Found := List (String × Option String)

def ends (g : SelectionGraph) (id : String) : List String :=
  g.internalEdges.flatMap fun e =>
    (if e.source = id then [e.target] else []) ++ (if e.target = id then [e.source] else [])

def steps (g : SelectionGraph) (id : String) (_ : Option String) : Found :=
  (sortBy (fun a b => decide (a ≤ b)) (ends g id)).map (·,some id)

def rootOf (g : SelectionGraph) : Option String :=
  match g.selectedCentral with
  | some id => some id
  | none => (sortedIds g.nodeIds).head?

def found (g : SelectionGraph) : Found :=
  let ids := sortedIds g.nodeIds
  Breadth.forest (steps g) ids (((rootOf g).toList ++ ids).map fun id => [(id,none)])

def isCrossed (g : SelectionGraph) (id : String) : Bool :=
  (g.node? id).any (·.isReference) || g.edges.any fun e => e.boundary && e.target == id && g.isInternal e

def entryOf (g : SelectionGraph) (o : OutlineOptions) (id : String) : OutlineEntry :=
  let node := g.node? id
  { id := id, name := (node.map (·.name)).getD id, path := (node.map (·.path)).getD []
    explicit := o.explicit.contains id
    optional := o.allOptional || node.any (·.multiple) || (o.referencesOptional && isCrossed g id)
    count := g.count.contains id }

structure Nesting where
  waiting : List (Option String × OutlineTree)
  all : List OutlineTree

def nest (entry : String → OutlineEntry) : Found → Nesting
  -- Nodes come after their parents, so from the last to the first each finds its children waiting.
  | [] => ⟨[],[]⟩
  | (id,parent) :: rest =>
      let later := nest entry rest
      let mine := later.waiting.filter fun w => w.1 == some id
      let tree := OutlineTree.node (entry id) (mine.map (·.2))
      ⟨(parent,tree) :: later.waiting.filter fun w => w.1 != some id,tree :: later.all⟩

def ofGraph (g : SelectionGraph) (o : OutlineOptions) : Outline :=
  let nesting := nest (entryOf g o) (found g)
  ⟨rootOf g,nesting.waiting.map (·.2),nesting.all⟩

def toValue (outline : Outline) : Value :=
  .mapping
    [("type",.text "selectionAst"),("rootId",Value.ofOption .text outline.root),
      ("children",.list (OutlineTree.toValues outline.trees)),
      ("nodes",.list (OutlineTree.toValues outline.nodes))]

def explicitOf (value : Value) : Except Fault (List String) :=
  if value.holds then value.toKeys else .ok []

end Outline

end PathQuery
