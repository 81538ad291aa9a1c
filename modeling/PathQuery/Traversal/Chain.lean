import PathQuery.Selection.Graph

/-! The optional scopes of each node. A multiple-valued node opens one, and everything below it stays
in that one. -/
namespace PathQuery.SelectionGraph

abbrev Chains := Table String (List String)

def isMultipleNode (g : SelectionGraph) (id : String) : Bool := (g.node? id).any (·.multiple)

/-- The chain of a node, and the chains known after it. A node on the way up to itself has none to
give, and the central node always has the empty one. -/
def chainFrom (g : SelectionGraph) (parents : Table String String) (central : Option String) :
    Nat → Chains → List String → String → List String × Chains
  | 0, known, _, _ => ([],known)
  | fuel + 1, known, below, id =>
      match known.find? id with
      | some chain => (chain,known)
      | none =>
          if id ∈ below then ([],known)
          else if central = some id then ([],known.insert id [])
          else
            let above := match parents.find? id with
              | some parent =>
                  if parent = "" then ([],known)
                  else chainFrom g parents central fuel known (id :: below) parent
              | none => ([],known)
            let chain := if !above.1.isEmpty then above.1 else if g.isMultipleNode id then [id] else []
            (chain,above.2.insert id chain)

def chainOf (g : SelectionGraph) (parents : Table String String) (central : Option String)
    (known : Chains) (id : String) : List String × Chains :=
  -- A way up repeats no node that has a parent, so it is no longer than the table of parents.
  chainFrom g parents central (parents.entries.length + 2) known [] id

def chainsFrom (g : SelectionGraph) (parents : Table String String) (central : Option String) :
    Chains → Chains → List String → Chains
  | _, chains, [] => chains
  | known, chains, id :: rest =>
      let found := chainOf g parents central known id
      chainsFrom g parents central found.2 (chains.insert id found.1) rest

def optionalChains (g : SelectionGraph) (order : List String) (parents : Table String String)
    (central : Option String) : Chains :=
  chainsFrom g parents central .empty .empty order

end PathQuery.SelectionGraph
