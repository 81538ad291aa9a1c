import PathQuery.Query.Text

/-! From a selection to the text of its query, which a check that is given accepts. Nothing is assumed of the check. -/
namespace PathQuery

abbrev Check := List Char → Except Fault Unit

namespace SelectionGraph

def fullPrefixes (g : SelectionGraph) (o : QueryOptions) : Bool :=
  o.fullPrefixes && match (g.effectiveCentral.bind g.node?).bind (·.element) with
    | some element => decide (element.classification ≠ .root)
    | none => true

def headerLines (g : SelectionGraph) (fullPrefixes : Bool) : List (List Char) :=
  let central := (g.central.filter (· ≠ "")).getD "(none)"
  ["# Auto-generated from currently selected graph nodes".toList,
    "# Central node: ".toList ++ central.toList,
    if g.size = 0 then "# No selected graph nodes found".toList
    else "# Selected graph nodes: ".toList ++ Nat.toDigits 10 g.size,
    if fullPrefixes then "# Full path_array prefix constraints are included per selected node.".toList
    else "# Shared path_array prefixes are deduplicated in WHERE patterns.".toList]

def outer (g : SelectionGraph) : SelectionGraph :=
  let excluded := (CountClosures.ofGraph g).excluded
  g.restrict (g.nodeIds.filter fun id => !excluded.contains id)

def parts (g : SelectionGraph) (o : QueryOptions) : Except Fault (SelectPattern × Counts) := do
  let full := g.fullPrefixes o
  let outer ← g.outer.pattern full
  let counts ← Counts.ofGraph g outer (CountClosures.ofGraph g) o.namespaces o.includeZeroCounts full
  .ok (outer,counts)

def queryText (g : SelectionGraph) (o : QueryOptions) : Except Fault (List Char) := do
  let (outer,counts) ← g.parts o
  .ok (outer.toPattern.query o (counts.extras o.namespaces))

def compile (g : SelectionGraph) (check : Check) (o : QueryOptions) : Except Fault (List Char) := do
  let query ← g.queryText o
  check query
  .ok (Text.joinLines (g.headerLines (g.fullPrefixes o)) ++ '\n' :: query)

end SelectionGraph

end PathQuery
