import PathQuery.Pattern.Build
import PathQuery.Query.Where
import PathQuery.Traversal.Closure

/-! Counts: for every count node a sub-select of its own, joined to the outer pattern by the variable
of the node that it hangs from. -/
namespace PathQuery

def aliasBlocks (candidate name : String) : Bool := name == candidate || name == candidate ++ "_raw"

def uniqueAlias (base : String) (taken : List String) : String :=
  firstFree aliasBlocks (numbered base "_") 0 taken

def isBlankLine (line : List Char) : Bool := Text.allBlank line

def indented (margin line : List Char) : List Char := if isBlankLine line then [] else margin ++ line

def dropBlank {α : Type} (text : α → List Char) : List α → List α
  | [] => []
  | line :: kept => if isBlankLine (text line) then kept else line :: kept

def withoutComments {α : Type} (text : α → List Char) (comments : List (List Char)) (lines : List α) :
    List α :=
  (lines.foldl (fun kept line =>
    if comments.contains (Text.trim (text line)) then dropBlank text kept else line :: kept) []).reverse

def blockLines (comment : Option (List Char)) (select : List Char) (body : List (List Char))
    (groupBy : Option (List Char)) (optional : Bool) : List (List Char) :=
  -- An empty comment or grouping is none.
  let margin := "  ".toList
  let inner := if optional then "    ".toList else margin
  ((comment.filter (· ≠ [])).toList.map (margin ++ ·)) ++
    (if optional then [margin ++ "OPTIONAL \x7b".toList] else []) ++
    [inner ++ ['\x7b'],inner ++ (if optional then [] else margin) ++ select,
      inner ++ "  WHERE \x7b".toList] ++
    body.map (indented inner) ++ [inner ++ "  \x7d".toList] ++
    ((groupBy.filter (· ≠ [])).toList.map (inner ++ margin ++ ·)) ++ [inner ++ ['\x7d']] ++
    (if optional then [margin ++ ['\x7d']] else [])

/-- A sub-select that counts the values of a variable, for each value of `parent` if there is one. -/
structure CountBlock where
  comment : Option String
  parent : Option String
  counted : String
  raw : String
  body : List Line
  optional : Bool
  deriving DecidableEq, Repr

namespace CountBlock

def select (b : CountBlock) : List Char :=
  "SELECT ".toList ++ (b.parent.elim [] fun p => '?' :: p.toList ++ [' ']) ++ "(COUNT(DISTINCT ?".toList ++
    b.counted.toList ++ ") AS ?".toList ++ b.raw.toList ++ [')']

def groupBy (b : CountBlock) : Option (List Char) :=
  b.parent.map fun p => "GROUP BY ?".toList ++ p.toList

def lines (namespaces : NamespaceTable) (b : CountBlock) : List (List Char) :=
  blockLines (b.comment.map (·.toList)) b.select (b.body.map (Line.text namespaces)) b.groupBy b.optional

end CountBlock

structure Counts where
  projections : List Projection
  blocks : List CountBlock
  labels : List String

structure Tally where
  node : String
  comment : Option String
  parent : Option String
  counted : String
  body : List Line
  labels : List String
  deriving DecidableEq, Repr

namespace SelectionGraph

def nameOf (g : SelectionGraph) (id : String) : Option String :=
  ((g.node? id).map (·.name)).filter (· ≠ "")

def stepComments (parent count : String) : List (List Char) :=
  [Arrow.plain,Arrow.falling,Arrow.rising].map fun arrow =>
    (transitionComment parent arrow.label count).toList

def parentVariable (p : SelectPattern) (parent : Option String) : Option String :=
  (parent.filter (· ≠ "")).bind p.selected.find?

def parentRenaming (inner outer : Option String) : Renaming := match inner,outer with
  | some a,some b => if a = b then .empty else .ofList [(a,b)]
  | _,_ => .empty

def countPattern (g : SelectionGraph) (fullPrefixes : Bool) (members : List String)
    (parent : Option String) (id : String) : Except Fault SelectPattern :=
  ((g.restrict (members ++ parent.toList)).withCentral id).pattern fullPrefixes

def covered (outer sub : SelectPattern) (names : Renaming) : List Triple :=
  sub.records.keys.filter fun t => outer.records.contains (t.rename names)

def countBody (namespaces : NamespaceTable) (outer sub : SelectPattern) (names : Renaming)
    (comments : List (List Char)) : List Line :=
  let lines := sub.toPattern.unmarked.lines (covered outer sub names)
  withoutComments (Line.text namespaces) comments (lines.map (Line.rename names))

def hangsOutside (outer : SelectPattern) (parent : Option String) : Bool :=
  parent.any fun id => !outer.selected.contains id && !outer.order.contains id

def tally (g : SelectionGraph) (namespaces : NamespaceTable) (fullPrefixes : Bool) (outer : SelectPattern)
    (closures : CountClosures) (id : String) (members : List String) : Except Fault (Option Tally) :=
  let parent := closures.parents.find? id
  if hangsOutside outer parent then .ok none
  else do
    let sub ← g.countPattern fullPrefixes members parent id
    match sub.selected.find? id with
    | none => .ok none
    | some counted =>
        let outerParent := parentVariable outer parent
        let parentName := parent.bind g.nameOf
        let name := (g.nameOf id).getD ""
        let names := parentRenaming (parentVariable sub parent) outerParent
        let comments := parentName.elim [] fun p => stepComments p name
        let body := countBody namespaces outer sub names comments
        if body.all fun line => isBlankLine (line.text namespaces) then .ok none
        else .ok (some
          { node := id, parent := outerParent, counted := counted, body := body
            comment := parentName.map fun p => transitionComment p Arrow.plain.label name
            labels := sub.toPattern.labels namespaces (covered outer sub names) })

end SelectionGraph

namespace Counts

def ofTallies (depths : Table String Int) (includeZero : Bool) (taken : List String) : List Tally → Counts
  | [] => ⟨[],[],[]⟩
  | t :: rest =>
      let name := uniqueAlias (t.counted ++ "_count") taken
      let raw := name ++ "_raw"
      let depth := depths.findD t.node 0
      let more := ofTallies depths includeZero (name :: raw :: taken) rest
      let projection := if includeZero then ⟨name,depth,false,some raw⟩ else ⟨raw,depth,false,none⟩
      ⟨projection :: more.projections,
        ⟨t.comment,t.parent,t.counted,raw,t.body,includeZero⟩ :: more.blocks,t.labels ++ more.labels⟩

def ofGraph (g : SelectionGraph) (outer : SelectPattern) (closures : CountClosures)
    (namespaces : NamespaceTable) (includeZero fullPrefixes : Bool) : Except Fault Counts := do
  let tallies ← closures.members.entries.mapM fun entry =>
    g.tally namespaces fullPrefixes outer closures entry.1 entry.2
  .ok (ofTallies g.depths includeZero (outer.projections.map (·.name)) (tallies.filterMap id))

end Counts

end PathQuery
