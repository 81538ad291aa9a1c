import PathQuery.Pattern.Bridge

/-! The finished pattern of a selection. -/
namespace PathQuery

structure Projection where
  name : String
  depth : Int
  central : Bool
  source : Option String
  deriving DecidableEq, Repr

structure Marker where
  emission : String
  comment : String
  deriving DecidableEq, Repr

structure Pattern where
  records : Table Triple Int
  emissions : List Emission
  chains : SelectionGraph.Chains
  comments : Table String (List String)
  projections : List Projection
  central : Option Marker

structure SelectPattern extends Pattern where
  order : List String
  selected : Table String String
  firsts : Table String String

namespace Draft

def addProjection (d : Draft) (known : Table String Projection) (id : String) : Table String Projection :=
  match d.selected.find? id with
  | none => known
  | some name =>
      let central := decide (d.plan.central = some id)
      match known.find? name with
      | none => known.insert name ⟨name,d.depthOf id,central,none⟩
      | some there => known.insert name { there with central := there.central || central }

def projections (d : Draft) : List Projection := (d.plan.order.foldl d.addProjection .empty).values

def marker (d : Draft) : Option Marker := do
  let id ← d.plan.central
  let emission ← d.firsts.find? id
  some ⟨emission,centralComment (d.nodeName id)⟩

def finish (d : Draft) : SelectPattern :=
  { records := d.records, emissions := d.log.entries, chains := d.plan.chains, comments := d.comments
    projections := d.projections, central := d.marker
    order := d.plan.order, selected := d.selected, firsts := d.firsts }

def emitAll (d : Draft) : Draft := d.plan.order.foldl emitNode d

def build (d : Draft) : Draft × Except Fault SelectPattern :=
  match d.emitAll.resolveBridges with
  | (d,.error fault) => (d,.error fault)
  | (d,.ok bridged) => match d.annotate bridged with
    | .error fault => (d,.error fault)
    | .ok d => (d,.ok d.finish)

end Draft

def SelectionGraph.pattern (g : SelectionGraph) (fullPrefixes : Bool) : Except Fault SelectPattern :=
  (Draft.start g fullPrefixes).build.2

theorem patternSteps {g : SelectionGraph} {full : Bool} {p : SelectPattern} (made : g.pattern full = .ok p) :
    ∃ bridged d, (Draft.start g full).emitAll.resolveBridges.1.annotate bridged = .ok d ∧ p = d.finish := by
  unfold SelectionGraph.pattern Draft.build at made
  split at made
  · contradiction
  · next bridged resolved =>
    split at made
    · contradiction
    · next d annotated =>
      cases Except.ok.inj made
      exact ⟨bridged,d,by rw [resolved]; exact annotated,rfl⟩

end PathQuery
