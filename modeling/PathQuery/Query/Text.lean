import PathQuery.Options
import PathQuery.Query.Count
import PathQuery.Text.Line

/-! The text of a query: prefixes, columns, body, order and limit. -/
namespace PathQuery

namespace Projection

def origin (p : Projection) : Option String := p.source.map fun s => if s = "" then p.name else s

def expression (p : Projection) : List Char := match p.origin with
  | some source => "(COALESCE(?".toList ++ source.toList ++ ", 0) AS ?".toList ++ p.name.toList ++ [')']
  | none => '?' :: p.name.toList

def text (p : Projection) : List Char :=
  indent p.depth ++ p.expression ++ (if p.central then "  # <<<<< central node".toList else [])

end Projection

structure Extras where
  projections : List Projection
  blocks : List (List (List Char))
  labels : List String

def Counts.extras (namespaces : NamespaceTable) (c : Counts) : Extras :=
  ⟨c.projections,c.blocks.map (CountBlock.lines namespaces),c.labels⟩

def addBlock (lines block : List (List Char)) : List (List Char) :=
  if lines.isEmpty then block else lines ++ [] :: block

def QueryOptions.endLines (o : QueryOptions) : List (List Char) :=
  o.orderVariable.toList.map (fun name =>
    "ORDER BY ".toList ++ o.orderDirection.label.toList ++ "(?".toList ++ name.toList ++ [')']) ++
  o.limit.toList.map fun n => "LIMIT ".toList ++ Nat.toDigits 10 n

namespace Pattern

def selectLines (projections : List Projection) : List (List Char) :=
  if projections.isEmpty then ["  *".toList] else projections.map Projection.text

def bodyLines (p : Pattern) (namespaces : NamespaceTable) : List (List Char) :=
  (p.lines []).map (Line.text namespaces)

def queryLines (p : Pattern) (o : QueryOptions) (extras : Extras) : List (List Char) :=
  let used := p.labels o.namespaces [] ++ extras.labels
  (o.namespaces.declarations used).map (·.toList) ++
    [[],"SELECT DISTINCT".toList] ++ selectLines (p.projections ++ extras.projections) ++
    ["WHERE \x7b".toList] ++ extras.blocks.foldl addBlock (p.bodyLines o.namespaces) ++ ["\x7d".toList] ++
    o.endLines

def query (p : Pattern) (o : QueryOptions) (extras : Extras) : List Char :=
  Text.joinLines (p.queryLines o extras)

end Pattern

end PathQuery
