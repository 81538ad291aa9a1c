import PathQuery.Selection.Graph
import PathQuery.Traversal.Breadth

/-! The parts of a selection that are counted on their own: each count node with all that hangs from
it in the breadth-first tree of the central node. -/
namespace PathQuery

abbrev Tree := List (String × Option String)

def Tree.subtree (tree : Tree) (root : String) : List String :=
  tree.foldl (fun ids node =>
    if node.1 = root || node.2.any ids.contains then ids ++ [node.1] else ids) []

def Tree.contains (tree : Tree) (id : String) : Bool := tree.any fun node => decide (node.1 = id)

def Tree.parent? (tree : Tree) (id : String) : Option String :=
  (tree.find? fun node => decide (node.1 = id)).bind (·.2)

namespace SelectionGraph

def treeSteps (g : SelectionGraph) (id : String) (_ : Option String) : List (String × Option String) :=
  (g.neighboursOf id).map (·,some id)

def treeFrom (g : SelectionGraph) (root : String) : Tree :=
  Breadth.forest g.treeSteps (sortedIds g.nodeIds) [[(root,none)]]

def centralTree (g : SelectionGraph) : Tree :=
  match g.effectiveCentral with
  | some central => g.treeFrom central
  | none => []

end SelectionGraph

structure CountClosures where
  excluded : List String
  members : Table String (List String)
  parents : Table String String

namespace CountClosures

def add (tree : Tree) (c : CountClosures) (id : String) : CountClosures :=
  if tree.contains id then
    { excluded := c.excluded ++ tree.subtree id
      members := c.members.insert id (tree.subtree id)
      parents := match tree.parent? id with
        | some parent => c.parents.insert id parent
        | none => c.parents }
  else c

def ofGraph (g : SelectionGraph) : CountClosures :=
  g.count.foldl (add g.centralTree) ⟨[],.empty,.empty⟩

end CountClosures

end PathQuery
