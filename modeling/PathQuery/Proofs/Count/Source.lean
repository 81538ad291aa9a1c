import PathQuery.Proofs.Attempts
import PathQuery.Query.Compile

/-! Where a count block comes from: each is made from the pattern of one count node, of the nodes below
it and of its parent. -/
namespace PathQuery

def SelectionGraph.droppedComments (g : SelectionGraph) (parent : Option String) (id : String) :
    List (List Char) :=
  (parent.bind g.nameOf).elim [] fun name => SelectionGraph.stepComments name ((g.nameOf id).getD "")

structure TallySource (g : SelectionGraph) (namespaces : NamespaceTable) (full : Bool) (outer : SelectPattern)
    (closures : CountClosures) (id : String) (members : List String) (sub : SelectPattern) (t : Tally) :
    Prop where
  node : t.node = id
  inside : SelectionGraph.hangsOutside outer (closures.parents.find? id) = false
  made : g.countPattern full members (closures.parents.find? id) id = .ok sub
  counted : sub.selected.find? id = some t.counted
  parent : t.parent = SelectionGraph.parentVariable outer (closures.parents.find? id)
  comment : t.comment = ((closures.parents.find? id).bind g.nameOf).map fun name =>
    transitionComment name Arrow.plain.label ((g.nameOf id).getD "")
  body : t.body = SelectionGraph.countBody namespaces outer sub
    (SelectionGraph.parentRenaming (SelectionGraph.parentVariable sub (closures.parents.find? id)) t.parent)
    (g.droppedComments (closures.parents.find? id) id)
  labels : t.labels = sub.toPattern.labels namespaces (SelectionGraph.covered outer sub
    (SelectionGraph.parentRenaming (SelectionGraph.parentVariable sub (closures.parents.find? id)) t.parent))

theorem tallySource {g : SelectionGraph} {namespaces : NamespaceTable} {full : Bool} {outer : SelectPattern}
    {closures : CountClosures} {id : String} {members : List String} {t : Tally}
    (done : g.tally namespaces full outer closures id members = .ok (some t)) :
    ∃ sub, TallySource g namespaces full outer closures id members sub t := by
  unfold SelectionGraph.tally at done
  simp only at done
  split at done
  · cases done
  · next inside =>
    obtain ⟨sub,made,done⟩ := bindOk.mp done
    split at done
    · cases done
    · next counted selected =>
      split at done
      · cases done
      · cases done
        exact ⟨sub,rfl,by simpa using inside,made,selected,rfl,rfl,rfl,rfl⟩

theorem tallyDone {g : SelectionGraph} {full : Bool} {members : List String} {id : String}
    {closures : CountClosures}
    (made : ∃ sub, g.countPattern full members (closures.parents.find? id) id = .ok sub)
    (namespaces : NamespaceTable) (outer : SelectPattern) :
    ∃ t, g.tally namespaces full outer closures id members = .ok t := by
  obtain ⟨sub,made⟩ := made
  unfold SelectionGraph.tally
  simp only
  split
  · exact ⟨none,rfl⟩
  · rw [made]
    simp only [bind,Except.bind]
    split
    · exact ⟨none,rfl⟩
    · split
      · exact ⟨none,rfl⟩
      · exact ⟨_,rfl⟩

def Tally.isBlank (namespaces : NamespaceTable) (t : Tally) : Bool :=
  t.body.all fun line => isBlankLine (line.text namespaces)

def SelectionGraph.tallyOf (g : SelectionGraph) (namespaces : NamespaceTable) (outer sub : SelectPattern)
    (parent : Option String) (id counted : String) : Tally :=
  { node := id, parent := parentVariable outer parent, counted := counted
    comment := (parent.bind g.nameOf).map fun name =>
      transitionComment name Arrow.plain.label ((g.nameOf id).getD "")
    body := countBody namespaces outer sub
      (parentRenaming (parentVariable sub parent) (parentVariable outer parent)) (g.droppedComments parent id)
    labels := sub.toPattern.labels namespaces
      (covered outer sub (parentRenaming (parentVariable sub parent) (parentVariable outer parent))) }

def SelectionGraph.tallied (g : SelectionGraph) (namespaces : NamespaceTable) (outer : SelectPattern)
    (parent : Option String) (id : String) (sub : SelectPattern) : Option Tally :=
  (sub.selected.find? id).bind fun counted =>
    let t := g.tallyOf namespaces outer sub parent id counted
    if t.isBlank namespaces then none else some t

theorem tallyInside {g : SelectionGraph} {outer : SelectPattern} {closures : CountClosures} {id : String}
    (inside : SelectionGraph.hangsOutside outer (closures.parents.find? id) = false) (namespaces : NamespaceTable)
    (full : Bool) (members : List String) : g.tally namespaces full outer closures id members =
      (g.countPattern full members (closures.parents.find? id) id >>= fun sub =>
        .ok (g.tallied namespaces outer (closures.parents.find? id) id sub)) := by
  unfold SelectionGraph.tally SelectionGraph.tallied
  simp only [inside,Bool.false_eq_true,if_false]
  refine congrArg _ (funext fun sub => ?_)
  cases sub.selected.find? id with
  | none => rfl
  | some counted =>
      simp only [Option.bind_some]
      split
      · next blank => exact congrArg Except.ok (if_pos blank).symm
      · next filled => exact congrArg Except.ok (if_neg filled).symm

structure BlockSource (b : CountBlock) (t : Tally) : Prop where
  comment : b.comment = t.comment
  parent : b.parent = t.parent
  counted : b.counted = t.counted
  body : b.body = t.body
  raw : ∃ taken, b.raw = uniqueAlias (t.counted ++ "_count") taken ++ "_raw"

theorem blockOfTallies {depths : Table String Int} {zero : Bool} {taken : List String}
    {tallies : List Tally} {b : CountBlock}
    (member : b ∈ (Counts.ofTallies depths zero taken tallies).blocks) :
    ∃ t ∈ tallies, BlockSource b t := by
  induction tallies generalizing taken with
  | nil => nomatch member
  | cons t rest ih =>
      rcases List.mem_cons.mp member with rfl | later
      · exact ⟨t,by simp,rfl,rfl,rfl,rfl,taken,rfl⟩
      · obtain ⟨other,there,source⟩ := ih later
        exact ⟨other,List.mem_cons_of_mem _ there,source⟩

inductive ColumnSource (column : Projection) (t : Tally) : Prop where
  | raw (taken : List String) (name : column.name = uniqueAlias (t.counted ++ "_count") taken ++ "_raw")
      (source : column.source = none) : ColumnSource column t
  | coalesced (taken : List String) (name : column.name = uniqueAlias (t.counted ++ "_count") taken)
      (source : column.source = some (uniqueAlias (t.counted ++ "_count") taken ++ "_raw")) :
      ColumnSource column t

theorem columnOfTallies {depths : Table String Int} {zero : Bool} {taken : List String}
    {tallies : List Tally} {column : Projection}
    (member : column ∈ (Counts.ofTallies depths zero taken tallies).projections) :
    ∃ t ∈ tallies, ColumnSource column t := by
  induction tallies generalizing taken with
  | nil => nomatch member
  | cons t rest ih =>
      rcases List.mem_cons.mp member with rfl | later
      · refine ⟨t,by simp,?_⟩
        cases zero with
        | false => exact .raw taken rfl rfl
        | true => exact .coalesced taken rfl rfl
      · obtain ⟨other,there,source⟩ := ih later
        exact ⟨other,List.mem_cons_of_mem _ there,source⟩

theorem talliesSource {g : SelectionGraph} {outer : SelectPattern} {closures : CountClosures}
    {namespaces : NamespaceTable} {zero full : Bool} {counts : Counts}
    (counted : Counts.ofGraph g outer closures namespaces zero full = .ok counts) :
    ∃ tallies, counts = Counts.ofTallies g.depths zero (outer.projections.map (·.name)) tallies ∧
      ∀ t ∈ tallies, ∃ entry ∈ closures.members.entries, ∃ sub,
        TallySource g namespaces full outer closures entry.1 entry.2 sub t := by
  obtain ⟨found,done,same⟩ := bindOk.mp counted
  cases same
  refine ⟨_,rfl,?_⟩
  intro t there
  obtain ⟨some_,inside,same⟩ := List.mem_filterMap.mp there
  cases same
  obtain ⟨entry,listed,made⟩ := mapMOk done inside
  obtain ⟨sub,tally⟩ := tallySource made
  exact ⟨entry,listed,sub,tally⟩

theorem blockSource {g : SelectionGraph} {outer : SelectPattern} {closures : CountClosures}
    {namespaces : NamespaceTable} {zero full : Bool} {counts : Counts}
    (counted : Counts.ofGraph g outer closures namespaces zero full = .ok counts) {b : CountBlock}
    (member : b ∈ counts.blocks) :
    ∃ entry ∈ closures.members.entries, ∃ sub t,
      TallySource g namespaces full outer closures entry.1 entry.2 sub t ∧ BlockSource b t := by
  obtain ⟨tallies,rfl,sources⟩ := talliesSource counted
  obtain ⟨t,there,source⟩ := blockOfTallies member
  obtain ⟨entry,listed,sub,tally⟩ := sources t there
  exact ⟨entry,listed,sub,t,tally,source⟩

theorem partsDone {g : SelectionGraph} {o : QueryOptions} {parts : SelectPattern × Counts}
    (done : g.parts o = .ok parts) :
    g.outer.pattern (g.fullPrefixes o) = .ok parts.1 ∧
    Counts.ofGraph g parts.1 (CountClosures.ofGraph g) o.namespaces o.includeZeroCounts (g.fullPrefixes o) =
      .ok parts.2 := by
  obtain ⟨outer,made,done⟩ := bindOk.mp done
  obtain ⟨counts,counted,done⟩ := bindOk.mp done
  cases done
  exact ⟨made,counted⟩

theorem countsDone {g : SelectionGraph} {closures : CountClosures} {full : Bool}
    (made : ∀ members parent id, ∃ sub, g.countPattern full members parent id = .ok sub)
    (outer : SelectPattern) (namespaces : NamespaceTable) (zero : Bool) :
    ∃ counts, Counts.ofGraph g outer closures namespaces zero full = .ok counts := by
  obtain ⟨found,done⟩ := mapMDone fun (entry : String × List String) (_ : entry ∈ closures.members.entries) =>
    tallyDone (made entry.2 (closures.parents.find? entry.1) entry.1) namespaces outer
  unfold Counts.ofGraph
  rw [done]
  exact ⟨_,rfl⟩

end PathQuery
