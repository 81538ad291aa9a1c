import PathQuery.Proofs.Count.Aliases
import PathQuery.Proofs.Query.Scope

/-! What the columns of a query show. A column of the pattern is a variable of a triple that is written, one of
a count is the value that just one block counts, and one column at most is marked as central. -/
namespace PathQuery

def Projection.reads (c : Projection) : String := c.origin.getD c.name

theorem readsOfTallies (depths : Table String Int) (zero : Bool) (taken : List String) (tallies : List Tally) :
    (Counts.ofTallies depths zero taken tallies).projections.map (·.reads) =
      (Counts.ofTallies depths zero taken tallies).blocks.map (·.raw) := by
  induction tallies generalizing taken with
  | nil => rfl
  | cons t rest ih =>
      have filled : ∀ name : String, name ++ "_raw" ≠ "" := by
        intro name empty
        have chars := congrArg String.toList empty
        simp at chars
      refine congrArg₂ List.cons ?_ (ih _)
      cases zero with
      | false => rfl
      | true => simp [Projection.reads,Projection.origin,filled]

variable {g : SelectionGraph} {o : QueryOptions} {outer : SelectPattern} {counts : Counts}

theorem columnWritten {full : Bool} (made : g.pattern full = .ok outer) {c : Projection}
    (member : c ∈ outer.projections) :
    c.source = none ∧ ∃ t ∈ writtenTriples (outer.toPattern.lines []), c.name ∈ t.varNames := by
  have sourced := patternSourced made
  refine ⟨(sourced.columns c member).2,?_⟩
  obtain ⟨id,selected⟩ := columnSelected made member
  obtain ⟨t,recorded,inside⟩ := patternBound made selected
  have known := Table.containsIff.mpr recorded
  refine ⟨t,(Pattern.writtenLines outer.toPattern [] t).mpr ⟨List.not_mem_nil,known,?_⟩,inside⟩
  exact (sourced.recorded t).mp known

theorem rawsOnce (done : g.parts o = .ok (outer,counts)) : (counts.blocks.map (·.raw)).Nodup := by
  obtain ⟨aliases,named⟩ := partsNamed done
  rw [named.raws]
  exact (List.nodup_append.mp named.apart).2.1

theorem countedOnce (done : g.parts o = .ok (outer,counts)) {c : Projection} (member : c ∈ counts.projections) :
    counts.blocks.countP (fun b => b.raw = c.reads) = 1 := by
  have reads : counts.projections.map (·.reads) = counts.blocks.map (·.raw) := by
    obtain ⟨tallies,same,_⟩ := talliesSource (partsDone done).2
    rw [show counts = _ from same]
    exact readsOfTallies _ _ _ _
  have there : c.reads ∈ counts.blocks.map (·.raw) := reads ▸ List.mem_map_of_mem member
  have once := List.count_eq_one_of_mem (rawsOnce done) there
  rw [List.count,List.countP_map] at once
  exact (List.countP_congr fun b _ => by simp).trans once

theorem centralOnce (done : g.parts o = .ok (outer,counts)) :
    ((outer.projections ++ counts.projections).filter (·.central)).map (·.name) =
      (g.outer.effectiveCentral.bind outer.selected.find?).toList := by
  obtain ⟨aliases,named⟩ := partsNamed done
  have none : counts.projections.filter (·.central) = [] :=
    List.filter_eq_nil_iff.mpr fun c member => by simp [named.unmarked c member]
  rw [List.filter_append,none,List.append_nil]
  exact centralColumn (partsDone done).1

end PathQuery
