import PathQuery.Pattern.Build
import PathQuery.Query.Line

/-! The lines of a pattern's body. Emissions are gone through in order, with a stack of open optional
scopes that follows the chain of each emission's owner. -/
namespace PathQuery

def sharedScopes : List Scope → List String → Nat
  | scope :: opened, id :: chain => if scope.id = id then sharedScopes opened chain + 1 else 0
  | _, _ => 0

def closings (scopes : List Scope) : List Line := scopes.reverse.map .closing

def leaving (opened : List Scope) (chain : List String) : List Line :=
  closings (opened.drop (sharedScopes opened chain))

def entering (opened : List Scope) (chain : List String) (depth : Int) : List Scope :=
  (chain.drop (sharedScopes opened chain)).map fun id => ⟨id,depth⟩

namespace Pattern

def chainOf (p : Pattern) (e : Emission) : List String :=
  (e.owner.bind p.chains.find?).getD []

def notes (p : Pattern) (e : Emission) : List Line :=
  (p.comments.findD e.id []).flatMap fun text => [.blank,.note e.depth text]

def markerAt (p : Pattern) (e : Emission) : Option String :=
  (p.central.filter fun m => m.emission = e.id).map (·.comment)

def marking (p : Pattern) (e : Emission) (opened : List Scope) : List Line :=
  match p.markerAt e with
  | some comment => leaving opened (p.chainOf e) ++ [.blank,.marker comment]
  | none => []

def marked (p : Pattern) (e : Emission) (opened : List Scope) : List Scope :=
  match p.markerAt e with
  | some _ => opened.take (sharedScopes opened (p.chainOf e))
  | none => opened

def linesFrom (p : Pattern) (opened : List Scope) (done : List Triple) : List Emission → List Line
  -- A triple in `done` is not written again, but its comments are.
  | [] => closings opened
  | e :: rest =>
      if p.records.contains e.triple then
        let here := p.marked e opened
        let chain := p.chainOf e
        let added := entering here chain e.depth
        p.notes e ++ p.marking e opened ++
          if done.contains e.triple then p.linesFrom here done rest
          else
            leaving here chain ++ added.map .opening ++
              .triple e.depth e.triple ::
                p.linesFrom (here.take (sharedScopes here chain) ++ added) (e.triple :: done) rest
      else p.linesFrom opened done rest

def lines (p : Pattern) (excluded : List Triple) : List Line := p.linesFrom [] excluded p.emissions

def labelsFrom (p : Pattern) (namespaces : NamespaceTable) (excluded seen : List Triple) :
    List Emission → List String
  | [] => []
  | e :: rest =>
      if excluded.contains e.triple || seen.contains e.triple || !p.records.contains e.triple then
        p.labelsFrom namespaces excluded seen rest
      else
        e.triple.labels namespaces ++ p.labelsFrom namespaces excluded (e.triple :: seen) rest

def labels (p : Pattern) (namespaces : NamespaceTable) (excluded : List Triple) : List String :=
  p.labelsFrom namespaces excluded [] p.emissions

def unmarked (p : Pattern) : Pattern := { p with central := none }

end Pattern

end PathQuery
