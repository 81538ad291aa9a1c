import PathQuery.Proofs.Count.Scoping
import PathQuery.Proofs.Query.Replay

/-! What a count block writes: the triples of the count's own pattern under their joined names, but for those
that the outer pattern has. Each is written once, whatever comments are left out around it. -/
namespace PathQuery
open SelectionGraph (missing covered)

def Term.named (name : String → String) : Term → Term
  | .var x => .var (name x)
  | .iri value => .iri value

def Triple.named (name : String → String) (t : Triple) : Triple :=
  ⟨t.subject.named name,t.predicate.named name,t.object.named name⟩

variable {g : SelectionGraph} {full zero : Bool} {outer sub : SelectPattern} {namespaces : NamespaceTable}
  {counts : Counts} {b : CountBlock} {node : String}

theorem joiningNamed (made : g.outer.pattern full = .ok outer) (sub : SelectPattern) (node : String) (t : Triple) :
    t.rename (g.joining outer sub node) = t.named (joinedName (g.parentIn sub node) (g.parentIn outer node)) := by
  have each : ∀ term : Term, term.rename (g.joining outer sub node) =
      term.named (joinedName (g.parentIn sub node) (g.parentIn outer node)) := by
    intro term
    cases term with
    | var x => exact joiningVariable made sub node x
    | iri value => rfl
  simp only [Triple.rename,Triple.named,each]

theorem originWrites (origin : BlockOrigin g namespaces full outer b node sub) :
    ∃ left : List Triple, left.Nodup ∧ (∀ t, t ∈ left ↔ t ∈ missing outer sub (g.joining outer sub node)) ∧
      writtenTriples b.body = left.map (Triple.rename (g.joining outer sub node)) := by
  obtain ⟨members,_,made⟩ := origin.made
  have sourced := patternSourced made
  refine ⟨writtenTriples (sub.toPattern.unmarked.lines (covered outer sub (g.joining outer sub node))),
    writtenOnce _ _,writtenUnmarked sourced outer _,?_⟩
  rw [origin.body,SelectionGraph.countBody,← writtenSolid,
    keptSolid namespaces (droppedAreNotes g _ _) (bodyAnchored sourced outer _),writtenSolid,writtenRename]

structure WritesMissing (outer sub : SelectPattern) (name : String → String) (lines : List Line) : Prop where
  written : ∀ t, t ∈ writtenTriples lines ↔
    (∃ s ∈ sub.records.keys, s.named name = t) ∧ t ∉ outer.records.keys
  once : ∃ left : List Triple, left.Nodup ∧
    (∀ s, s ∈ left ↔ s ∈ sub.records.keys ∧ s.named name ∉ outer.records.keys) ∧
    writtenTriples lines = left.map (Triple.named name)

end PathQuery
