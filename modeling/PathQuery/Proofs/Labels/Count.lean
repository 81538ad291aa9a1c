import PathQuery.Proofs.Labels.Quiet

/-! Counts of two selections that differ just in names. They tell the same, but for a count that has nothing
except comments: whether it is kept depends on which of its comments have one text. -/
namespace PathQuery

variable {g other : SelectionGraph}

theorem patternAlike (same : g.unnamed = other.unnamed) (full : Bool) :
    Together (fun p q => p.bare = q.bare) (g.pattern full) (other.pattern full) :=
  togetherOfMap (by rw [← patternUnnamed,same,patternUnnamed])

theorem countPatternAlike (same : g.unnamed = other.unnamed) (full : Bool) (members : List String)
    (parent : Option String) (id : String) : Together (fun p q => p.bare = q.bare)
      (g.countPattern full members parent id) (other.countPattern full members parent id) :=
  patternAlike (by rw [SelectionGraph.unnamedCentral,SelectionGraph.unnamedRestrict,same,
    ← SelectionGraph.unnamedRestrict,← SelectionGraph.unnamedCentral]) full

theorem bodySolid {sub : SelectPattern} (sourced : sub.toPattern.Sourced g) (namespaces : NamespaceTable)
    (outer : SelectPattern) (names : Renaming) {comments : List (List Char)} (notes : AreNotes comments) :
    (SelectionGraph.countBody namespaces outer sub names comments).filter Line.isSolid =
      ((sub.toPattern.bare.unmarked.lines (SelectionGraph.covered outer sub names)).filter Line.isSolid).map
        (Line.rename names) := by
  have kinds : Line.isSolid ∘ Line.rename names = Line.isSolid := funext (solidRename names)
  have bare : sub.toPattern.bare.unmarked = sub.toPattern.unmarked.bare := rfl
  rw [SelectionGraph.countBody,keptSolid namespaces notes (bodyAnchored sourced outer names),List.filter_map,
    kinds,bare,Pattern.solidLines]

theorem blankBodySilent {sub : SelectPattern} (sourced : sub.toPattern.Sourced g) {namespaces : NamespaceTable}
    {outer : SelectPattern} {names : Renaming} {comments : List (List Char)}
    (blank : ((SelectionGraph.countBody namespaces outer sub names comments).all fun line =>
      isBlankLine (line.text namespaces)) = true) :
    (SelectionGraph.countBody namespaces outer sub names comments).filter Line.isSolid = [] := by
  refine List.filter_eq_nil_iff.mpr fun line member solid => ?_
  have there := withoutCommentsSubset member
  have shown := solidShows namespaces solid fun t own =>
    bodyAnchored sourced outer names t (List.mem_filterMap.mpr ⟨line,there,own⟩)
  rw [List.all_eq_true.mp blank line member] at shown
  contradiction

namespace Tally

def bare (t : Tally) : Tally := { t with comment := none, body := t.body.filter Line.isSolid }

def isSilent (t : Tally) : Bool := t.bare.body.isEmpty

inductive Alike : Option Tally → Option Tally → Prop where
  | neither : Alike none none
  | both {t u : Tally} (same : t.bare = u.bare) : Alike (some t) (some u)
  | first {t : Tally} (silent : t.isSilent = true) : Alike (some t) none
  | second {u : Tally} (silent : u.isSilent = true) : Alike none (some u)

theorem keptAlike {namespaces : NamespaceTable} {t u : Tally} (same : t.bare = u.bare)
    (first : t.isBlank namespaces = true → t.isSilent = true)
    (second : u.isBlank namespaces = true → u.isSilent = true) :
    Alike (if t.isBlank namespaces then none else some t) (if u.isBlank namespaces then none else some u) := by
  have silent : t.isSilent = u.isSilent := by rw [isSilent,isSilent,same]
  by_cases one : t.isBlank namespaces = true
  · rw [if_pos one]
    by_cases two : u.isBlank namespaces = true
    · rw [if_pos two]
      exact .neither
    · rw [if_neg two]
      exact .second (silent ▸ first one)
  · rw [if_neg one]
    by_cases two : u.isBlank namespaces = true
    · rw [if_pos two]
      exact .first (silent ▸ second two)
    · rw [if_neg two]
      exact .both same

end Tally

section

variable {namespaces : NamespaceTable} {full : Bool} {outer sub : SelectPattern} {closures : CountClosures}
  {id : String} {members : List String}

theorem tallyOfAlike {left right : SelectionGraph} {outer' sub' : SelectPattern}
    (outers : outer.bare = outer'.bare) (subs : sub.bare = sub'.bare) (first : sub.toPattern.Sourced left)
    (second : sub'.toPattern.Sourced right) (parent : Option String) (counted : String) :
    (g.tallyOf namespaces outer sub parent id counted).bare =
      (other.tallyOf namespaces outer' sub' parent id counted).bare := by
  have named : SelectionGraph.parentVariable outer parent = SelectionGraph.parentVariable outer' parent := by
    rw [SelectionGraph.parentVariable,SelectionGraph.parentVariable,bareSelected outers]
  have inside : SelectionGraph.parentVariable sub parent = SelectionGraph.parentVariable sub' parent := by
    rw [SelectionGraph.parentVariable,SelectionGraph.parentVariable,bareSelected subs]
  have covers : ∀ names, SelectionGraph.covered outer sub names = SelectionGraph.covered outer' sub' names := by
    intro names
    rw [SelectionGraph.covered,SelectionGraph.covered,bareRecords outers,bareRecords subs]
  have labels : ∀ excluded, sub.toPattern.labels namespaces excluded = sub'.toPattern.labels namespaces excluded :=
    fun excluded => by rw [← Pattern.bareLabels,barePattern subs,Pattern.bareLabels]
  simp only [SelectionGraph.tallyOf,Tally.bare,bodySolid first namespaces outer _ (droppedAreNotes g _ _),
    bodySolid second namespaces outer' _ (droppedAreNotes other _ _),named,inside,covers,
    barePattern subs,labels]

theorem tallyAlike (same : g.unnamed = other.unnamed) {outer' : SelectPattern} (outers : outer.bare = outer'.bare)
    (namespaces : NamespaceTable) (full : Bool) (closures : CountClosures) (id : String) (members : List String) :
    Together Tally.Alike (g.tally namespaces full outer closures id members)
      (other.tally namespaces full outer' closures id members) := by
  have hangs : SelectionGraph.hangsOutside outer' (closures.parents.find? id) =
      SelectionGraph.hangsOutside outer (closures.parents.find? id) := by
    rw [SelectionGraph.hangsOutside,SelectionGraph.hangsOutside,bareSelected outers,bareOrder outers]
  cases outside : SelectionGraph.hangsOutside outer (closures.parents.find? id) with
  | true =>
      unfold SelectionGraph.tally
      simp only [hangs,outside,if_true]
      exact .done .neither
  | false =>
      have patterns := countPatternAlike same full members (closures.parents.find? id) id
      rw [tallyInside outside,tallyInside (hangs.trans outside)]
      obtain ⟨fault,failed,later⟩ | ⟨sub,sub',made,later,subs⟩ := togetherCases patterns
      · rw [failed,later]
        exact .failed fault
      · rw [made,later]
        refine .done ?_
        -- Not the same comments are left out of the two bodies, so they agree in their solid lines only.
        unfold SelectionGraph.tallied
        rw [← bareSelected subs]
        cases sub.selected.find? id with
        | none => exact .neither
        | some counted =>
            exact Tally.keptAlike (tallyOfAlike outers subs (patternSourced made) (patternSourced later) _ _)
              (fun blank => List.isEmpty_iff.mpr (blankBodySilent (patternSourced made) blank))
              fun blank => List.isEmpty_iff.mpr (blankBodySilent (patternSourced later) blank)

end

namespace Tally

theorem alikeBare {found others : List (Option Tally)} (alike : List.Forall₂ Alike found others)
    (silent : found.map (·.any isSilent) = others.map (·.any isSilent)) :
    (found.filterMap id).map bare = (others.filterMap id).map bare := by
  induction alike with
  | nil => rfl
  | cons here _ ih =>
      obtain ⟨flag,flags⟩ := List.cons.inj silent
      cases here with
      | neither => exact ih flags
      | both same => exact congrArg₂ List.cons same (ih flags)
      | first hollow => exact absurd (hollow.symm.trans flag) (by simp)
      | second hollow => exact absurd (flag.trans hollow) (by simp)

end Tally

theorem talliesBare (depths : Table String Int) (zero : Bool) (taken : List String) (tallies : List Tally) :
    (Counts.ofTallies depths zero taken tallies).bare =
      Counts.ofTallies depths zero taken (tallies.map Tally.bare) := by
  induction tallies generalizing taken with
  | nil => rfl
  | cons t rest ih =>
      rw [List.map_cons,Counts.ofTallies,Counts.ofTallies,← ih]
      rfl

def SelectionGraph.silentCounts (g : SelectionGraph) (o : QueryOptions) : Except Fault (List Bool) := do
  let outer ← g.outer.pattern (g.fullPrefixes o)
  let closures := CountClosures.ofGraph g
  let tallies ← closures.members.entries.mapM fun entry =>
    g.tally o.namespaces (g.fullPrefixes o) outer closures entry.1 entry.2
  .ok (tallies.map (·.any Tally.isSilent))

theorem partsAlike (same : g.unnamed = other.unnamed) (o : QueryOptions)
    (silent : g.silentCounts o = other.silentCounts o) :
    Together (fun a b => a.1.bare = b.1.bare ∧ a.2.bare = b.2.bare) (g.parts o) (other.parts o) := by
  have full : g.fullPrefixes o = other.fullPrefixes o := by
    rw [← g.unnamedFullPrefixes,same,other.unnamedFullPrefixes]
  have closures : CountClosures.ofGraph g = CountClosures.ofGraph other := by
    rw [← g.unnamedClosures,same,other.unnamedClosures]
  have depths : g.depths = other.depths := by rw [← g.unnamedDepths,same,other.unnamedDepths]
  have outers : Together (fun p q => p.bare = q.bare) (g.outer.pattern (g.fullPrefixes o))
      (other.outer.pattern (g.fullPrefixes o)) :=
    patternAlike (by rw [SelectionGraph.unnamedOuter,same,SelectionGraph.unnamedOuter]) _
  unfold SelectionGraph.silentCounts at silent
  unfold SelectionGraph.parts
  simp only [← full,← closures] at silent ⊢
  obtain ⟨fault,made,later⟩ | ⟨outer,outer',made,later,bare⟩ := togetherCases outers
  · rw [made,later]
    exact .failed fault
  · have tallies := togetherMapM fun (entry : String × List String)
      (_ : entry ∈ (CountClosures.ofGraph g).members.entries) =>
        tallyAlike same bare o.namespaces (g.fullPrefixes o) (CountClosures.ofGraph g) entry.1 entry.2
    rw [made,later] at silent ⊢
    simp only [Counts.ofGraph,bind,Except.bind] at silent ⊢
    obtain ⟨fault,counted,others⟩ | ⟨found,others,counted,more,alike⟩ := togetherCases tallies
    · rw [counted,others]
      exact .failed fault
    · rw [counted,more] at silent ⊢
      refine .done ⟨bare,?_⟩
      have told := Tally.alikeBare alike (Except.ok.inj silent)
      have columns : outer.projections = outer'.projections :=
        show outer.toPattern.bare.projections = outer'.toPattern.bare.projections from
          congrArg Pattern.projections (barePattern bare)
      rw [talliesBare,talliesBare,told,columns,depths]

end PathQuery
