import PathQuery.Proofs.Count.Joining

/-! When the variables of a count block mean what they should: those that it hands on stand in its body,
and none of them is tied down only by a triple that was left out. Neither holds of every selection. -/
namespace PathQuery
open SelectionGraph (missing covered)

def CountBlock.Mentions (b : CountBlock) (x : String) : Prop := ∃ t ∈ writtenTriples b.body, x ∈ t.varNames

instance (b : CountBlock) (x : String) : Decidable (b.Mentions x) := by
  unfold CountBlock.Mentions; infer_instance

def CountBlock.WellScoped (b : CountBlock) : Prop := b.Mentions b.counted ∧ ∀ p ∈ b.parent, b.Mentions p

instance (b : CountBlock) : Decidable b.WellScoped := by unfold CountBlock.WellScoped; infer_instance

variable {g : SelectionGraph} {full zero : Bool} {outer sub : SelectPattern} {namespaces : NamespaceTable}
  {counts : Counts} {b : CountBlock} {node : String}

def Brings (outer sub : SelectPattern) (names : Renaming) (x : String) : Prop :=
  ∃ t ∈ missing outer sub names, x ∈ t.varNames

theorem mentionsIff (made : g.outer.pattern full = .ok outer)
    (origin : BlockOrigin g namespaces full outer b node sub) (x : String) :
    b.Mentions x ↔ ∃ y, Brings outer sub (g.joining outer sub node) y ∧
      joinedName (g.parentIn sub node) b.parent y = x := by
  have renamed : ∀ t : Triple, (t.rename (g.joining outer sub node)).varNames =
      t.varNames.map (joinedName (g.parentIn sub node) b.parent) :=
    origin.parent ▸ joiningNames made sub node
  constructor
  · intro ⟨t,there,inside⟩
    obtain ⟨source,lacked,rfl⟩ := (originWritten origin t).mp there
    rw [renamed] at inside
    obtain ⟨y,first,joined⟩ := List.mem_map.mp inside
    exact ⟨y,⟨source,lacked,first⟩,joined⟩
  · intro ⟨y,⟨source,lacked,first⟩,joined⟩
    refine ⟨_,(originWritten origin _).mpr ⟨source,lacked,rfl⟩,?_⟩
    rw [renamed]
    exact List.mem_map.mpr ⟨y,first,joined⟩

def BringsBoth (outer sub : SelectPattern) (names : Renaming) (inner : Option String) (b : CountBlock) : Prop :=
  (Brings outer sub names b.counted ∧ (inner = some b.counted → b.parent = none ∨ b.parent = inner) ∨
    b.parent = some b.counted ∧ ∃ s ∈ inner, Brings outer sub names s) ∧
  ∀ p ∈ b.parent, Brings outer sub names p ∨ ∃ s ∈ inner, Brings outer sub names s

/-- A block is well scoped just if its count brings what it hands on. -/
theorem blockWellScopedIff (made : g.outer.pattern full = .ok outer)
    (counted : Counts.ofGraph g outer (CountClosures.ofGraph g) namespaces zero full = .ok counts)
    (member : b ∈ counts.blocks) :
    ∃ node sub, BlockOrigin g namespaces full outer b node sub ∧
      (b.WellScoped ↔ BringsBoth outer sub (g.joining outer sub node) (g.parentIn sub node) b) := by
  obtain ⟨node,sub,origin⟩ := blockOrigin counted member
  have mentions := mentionsIff made origin
  refine ⟨node,sub,origin,and_congr ?_ (forall_congr' fun p => forall_congr' fun given => ?_)⟩
  · rw [mentions]
    constructor
    · intro ⟨y,brought,joined⟩
      rcases joinedFrom.mp joined with ⟨rfl,kept⟩ | ⟨parent,here⟩
      · exact .inl ⟨brought,kept⟩
      · exact .inr ⟨parent,y,here,brought⟩
    · intro supplied
      rcases supplied with ⟨brought,kept⟩ | ⟨parent,s,here,brought⟩
      · exact ⟨b.counted,brought,joinedFrom.mpr (.inl ⟨rfl,kept⟩)⟩
      · exact ⟨s,brought,joinedFrom.mpr (.inr ⟨parent,here⟩)⟩
  · rw [mentions]
    constructor
    · intro ⟨y,brought,joined⟩
      rcases joinedFrom.mp joined with ⟨rfl,_⟩ | ⟨_,here⟩
      · exact .inl brought
      · exact .inr ⟨y,here,brought⟩
    · intro supplied
      rcases supplied with brought | ⟨s,here,brought⟩
      · exact ⟨p,brought,joinedParent given⟩
      · exact ⟨s,brought,joinedInner here given⟩

def fieldCounts (central counted : List String) : SelectionGraph :=
  { nodes := [⟨"b","b",some ⟨"b","",false,.field,"",none,central⟩⟩,
      ⟨"c","c",some ⟨"c","",false,.field,"",none,counted⟩⟩]
    edges := [⟨"b","c",.null,false⟩]
    central := some "b"
    count := ["c"] }

def ownFieldCounts : SelectionGraph := fieldCounts ["urn:X"]
  ["urn:X","urn:r","urn:V"]

def siblingFieldCounts : SelectionGraph := fieldCounts
  ["urn:X","urn:y","urn:Z","urn:q","urn:W"]
  ["urn:X","urn:y","urn:Z","urn:r","urn:V"]

theorem ownFieldScoped : ∃ outer counts b, ownFieldCounts.outer.pattern false = .ok outer ∧
    Counts.ofGraph ownFieldCounts outer (CountClosures.ofGraph ownFieldCounts) .standard false false =
      .ok counts ∧
    b ∈ counts.blocks ∧ b.WellScoped ∧
    ∃ node sub, BlockOrigin ownFieldCounts .standard false outer b node sub ∧
      (b.WellScoped ↔ BringsBoth outer sub (ownFieldCounts.joining outer sub node)
        (ownFieldCounts.parentIn sub node) b) := by
  have evaluated : (ownFieldCounts.parts .standard).map (fun parts =>
      decide (∃ b ∈ parts.2.blocks, b.WellScoped)) = .ok true := by decide +kernel
  obtain ⟨parts,done,there⟩ := mapOk evaluated
  obtain ⟨made,counted⟩ := partsDone done
  obtain ⟨b,member,keeps⟩ := of_decide_eq_true there
  exact ⟨parts.1,parts.2,b,made,counted,member,keeps,blockWellScopedIff made counted member⟩

theorem siblingFieldUnscoped : ∃ outer counts, siblingFieldCounts.outer.pattern false = .ok outer ∧
    Counts.ofGraph siblingFieldCounts outer (CountClosures.ofGraph siblingFieldCounts) .standard false false =
      .ok counts ∧
    ∃ b ∈ counts.blocks, ¬ b.WellScoped := by
  have unscoped : (siblingFieldCounts.parts .standard).map (fun parts =>
      decide (∃ b ∈ parts.2.blocks, ¬ b.WellScoped)) = .ok true := by decide +kernel
  obtain ⟨parts,done,there⟩ := mapOk unscoped
  obtain ⟨made,counted⟩ := partsDone done
  exact ⟨parts.1,parts.2,made,counted,of_decide_eq_true there⟩

def DropsSoundly (outer sub : SelectPattern) (names : Renaming) (b : CountBlock) : Prop :=
  ∀ s ∈ covered outer sub names, ∀ t ∈ writtenTriples b.body, ∀ x ∈ (s.rename names).varNames,
    x ∈ t.varNames → b.parent = some x

def IsTorn (outer sub : SelectPattern) (names : Renaming) (x : String) : Prop :=
  (∃ s ∈ covered outer sub names, x ∈ s.varNames) ∧ Brings outer sub names x

/-- Leaving triples out of a block is sound just if all that it tears apart is the parent's variable. -/
theorem blockDropsSoundlyIff (made : g.outer.pattern full = .ok outer)
    (counted : Counts.ofGraph g outer (CountClosures.ofGraph g) namespaces zero full = .ok counts)
    (member : b ∈ counts.blocks) :
    ∃ node sub, BlockOrigin g namespaces full outer b node sub ∧
      (DropsSoundly outer sub (g.joining outer sub node) b ↔
        ∀ x, IsTorn outer sub (g.joining outer sub node) x →
          ∃ p, b.parent = some p ∧ (g.parentIn sub node = some x ∨ x = p)) := by
  obtain ⟨node,sub,origin⟩ := blockOrigin counted member
  have renamed : ∀ t : Triple, (t.rename (g.joining outer sub node)).varNames =
      t.varNames.map (joinedName (g.parentIn sub node) b.parent) :=
    origin.parent ▸ joiningNames made sub node
  refine ⟨node,sub,origin,?_⟩
  constructor
  · intro sound x ⟨⟨s,left,first⟩,t,lacked,second⟩
    have parent := sound s left _ ((originWritten origin _).mpr ⟨t,lacked,rfl⟩) (joinedName _ b.parent x)
      (by rw [renamed]; exact List.mem_map.mpr ⟨x,first,rfl⟩)
      (by rw [renamed]; exact List.mem_map.mpr ⟨x,second,rfl⟩)
    refine ⟨_,parent,?_⟩
    by_cases here : g.parentIn sub node = some x
    · exact .inl here
    · exact .inr (joinedOther here _).symm
  · intro torn s left t there x first second
    obtain ⟨source,lacked,rfl⟩ := (originWritten origin t).mp there
    rw [renamed] at first second
    obtain ⟨y,out,rfl⟩ := List.mem_map.mp first
    obtain ⟨z,kept,same⟩ := List.mem_map.mp second
    rcases joinedMeet same with rfl | parent
    · obtain ⟨p,given,here | rfl⟩ := torn z ⟨⟨s,left,out⟩,source,lacked,kept⟩
      · rw [joinedInner here given]
        exact given
      · rw [joinedParent given]
        exact given
    · exact same ▸ parent

instance (outer sub : SelectPattern) (names : Renaming) (b : CountBlock) :
    Decidable (DropsSoundly outer sub names b) := by unfold DropsSoundly; infer_instance

def fieldDrops (g : SelectionGraph) : Except Fault (List Bool) := do
  let parts ← g.parts .standard
  let sub ← g.countPattern false ["c"] ((CountClosures.ofGraph g).parents.find? "c") "c"
  .ok (parts.2.blocks.map fun b =>
    decide (DropsSoundly parts.1 sub (g.joining parts.1 sub "c") b))

theorem ownFieldDropsSoundly : ∃ outer counts b, ownFieldCounts.outer.pattern false = .ok outer ∧
    Counts.ofGraph ownFieldCounts outer (CountClosures.ofGraph ownFieldCounts) .standard false false =
      .ok counts ∧
    b ∈ counts.blocks ∧
    ∃ node sub, BlockOrigin ownFieldCounts .standard false outer b node sub ∧
      DropsSoundly outer sub (ownFieldCounts.joining outer sub node) b ∧
      (DropsSoundly outer sub (ownFieldCounts.joining outer sub node) b ↔
        ∀ x, IsTorn outer sub (ownFieldCounts.joining outer sub node) x →
          ∃ p, b.parent = some p ∧ (ownFieldCounts.parentIn sub node = some x ∨ x = p)) := by
  have evaluated : fieldDrops ownFieldCounts = .ok [true] := by decide +kernel
  obtain ⟨parts,done,rest⟩ := bindOk.mp evaluated
  obtain ⟨sub,built,sound⟩ := bindOk.mp rest
  obtain ⟨made,counted⟩ := partsDone done
  obtain ⟨b,blocks,sound⟩ := List.map_eq_singleton_iff.mp (Except.ok.inj sound)
  have member : b ∈ parts.2.blocks := by simp [blocks]
  obtain ⟨node,other,origin,iff⟩ := blockDropsSoundlyIff made counted member
  obtain ⟨rfl,same⟩ := soleOrigin (show _ = [("c",["c"])] by decide +kernel) origin
  cases built.symm.trans same
  exact ⟨parts.1,parts.2,b,made,counted,member,_,sub,origin,of_decide_eq_true sound,iff⟩

theorem siblingFieldTorn : ∃ outer counts, siblingFieldCounts.outer.pattern false = .ok outer ∧
    Counts.ofGraph siblingFieldCounts outer (CountClosures.ofGraph siblingFieldCounts) .standard false false =
      .ok counts ∧
    ∃ b ∈ counts.blocks, ∃ node sub, BlockOrigin siblingFieldCounts .standard false outer b node sub ∧
      ¬ DropsSoundly outer sub (siblingFieldCounts.joining outer sub node) b := by
  have evaluated : fieldDrops siblingFieldCounts = .ok [false] := by decide +kernel
  obtain ⟨parts,done,rest⟩ := bindOk.mp evaluated
  obtain ⟨sub,built,torn⟩ := bindOk.mp rest
  obtain ⟨made,counted⟩ := partsDone done
  obtain ⟨b,blocks,torn⟩ := List.map_eq_singleton_iff.mp (Except.ok.inj torn)
  have member : b ∈ parts.2.blocks := by simp [blocks]
  obtain ⟨node,other,origin⟩ := blockOrigin counted member
  obtain ⟨rfl,same⟩ := soleOrigin (show _ = [("c",["c"])] by decide +kernel) origin
  cases built.symm.trans same
  exact ⟨parts.1,parts.2,made,counted,b,member,_,sub,origin,of_decide_eq_false torn⟩

end PathQuery
