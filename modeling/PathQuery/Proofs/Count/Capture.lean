import PathQuery.Proofs.Count.Joining

/-! When the parent's name outside is free inside a count, so that joining the two keeps the variables and
the triples of the count apart. It is not free in every selection. -/
namespace PathQuery

def SelectPattern.variables (p : SelectPattern) : List String := p.records.keys.flatMap Triple.varNames

def SelectPattern.KeepsApart (p : SelectPattern) (names : Renaming) : Prop :=
  ∀ x ∈ p.variables, ∀ y ∈ p.variables, (Term.var x).rename names = (Term.var y).rename names → x = y

instance (p : SelectPattern) (names : Renaming) : Decidable (p.KeepsApart names) := by
  unfold SelectPattern.KeepsApart; infer_instance

def NameIsFree (sub : SelectPattern) (inner outer : Option String) : Prop :=
  ∀ s ∈ inner, ∀ p ∈ outer, s = p ∨ p ∉ sub.variables

variable {g : SelectionGraph} {full : Bool} {outer sub : SelectPattern} {members : List String}

theorem SelectPattern.memVariables {p : SelectPattern} {x : String} :
    x ∈ p.variables ↔ ∃ t ∈ p.records.keys, x ∈ t.varNames := List.mem_flatMap

theorem renameKind (names : Renaming) (x value : String) :
    (Term.var x).rename names ≠ (Term.iri value).rename names := by
  unfold Term.rename
  cases found : names.find? x <;> simp [found]

theorem termsApart {sub : SelectPattern} {names : Renaming} (apart : sub.KeepsApart names) {a b : Term}
    (first : ∀ x ∈ a.name?, x ∈ sub.variables) (second : ∀ y ∈ b.name?, y ∈ sub.variables)
    (same : a.rename names = b.rename names) : a = b := by
  cases a with
  | var x =>
      cases b with
      | var y => rw [apart x (first x rfl) y (second y rfl) same]
      | iri value => exact absurd same (renameKind names x value)
  | iri value =>
      cases b with
      | var y => exact absurd same.symm (renameKind names y value)
      | iri other => exact same

theorem triplesApart {sub : SelectPattern} {names : Renaming} (apart : sub.KeepsApart names) {t u : Triple}
    (first : t ∈ sub.records.keys) (second : u ∈ sub.records.keys) (same : t.rename names = u.rename names) :
    t = u := by
  have inside : ∀ {w : Triple}, w ∈ sub.records.keys → ∀ term ∈ w.terms, ∀ x ∈ term.name?,
      x ∈ sub.variables := fun recorded term there x named =>
    SelectPattern.memVariables.mpr ⟨_,recorded,List.mem_filterMap.mpr ⟨term,there,named⟩⟩
  have each := Triple.mk.inj same
  have subject := termsApart apart (inside first _ (by simp [Triple.terms]))
    (inside second _ (by simp [Triple.terms])) each.1
  have predicate := termsApart apart (inside first _ (by simp [Triple.terms]))
    (inside second _ (by simp [Triple.terms])) each.2.1
  have object := termsApart apart (inside first _ (by simp [Triple.terms]))
    (inside second _ (by simp [Triple.terms])) each.2.2
  cases t
  cases u
  cases subject
  cases predicate
  cases object
  rfl

theorem parentOccurs {parent : Option String} {id : String} (made : g.countPattern full members parent id = .ok sub)
    {node s : String} (here : g.parentIn sub node = some s) : s ∈ sub.variables := by
  obtain ⟨parent,_,found⟩ := Option.bind_eq_some_iff.mp here
  exact SelectPattern.memVariables.mpr (patternBound made found)

/-- Joining the parent keeps the variables of a count apart just if the name outside is free, and then it
keeps the triples apart too. -/
theorem joinKeepsApartIff (made : g.outer.pattern full = .ok outer) {node : String}
    (built : g.countPattern full members ((CountClosures.ofGraph g).parents.find? node) node = .ok sub) :
    (sub.KeepsApart (g.joining outer sub node) ↔
      NameIsFree sub (g.parentIn sub node) (g.parentIn outer node)) ∧
    (sub.KeepsApart (g.joining outer sub node) →
      ∀ t ∈ sub.records.keys, ∀ u ∈ sub.records.keys,
        t.rename (g.joining outer sub node) = u.rename (g.joining outer sub node) → t = u) := by
  have renamed := joiningVariable made sub node
  refine ⟨⟨?_,?_⟩,fun apart t first u second same => triplesApart apart first second same⟩
  · intro apart s here p given
    by_cases taken : p ∈ sub.variables
    · refine .inl (apart s (parentOccurs built here) p taken ?_)
      rw [renamed,renamed,joinedInner here given,joinedParent given]
    · exact .inr taken
  · intro free x first y second same
    rw [renamed,renamed] at same
    have meet := Term.var.inj same
    rcases joinedMeet meet with alike | given
    · exact alike
    · rcases joinedFrom.mp rfl with ⟨own,_⟩ | ⟨_,here⟩ <;>
        rcases joinedFrom.mp meet.symm with ⟨other,_⟩ | ⟨_,there⟩
      · exact own.symm.trans other
      · rcases free y there _ given with alike | fresh
        · exact (alike.trans own).symm
        · exact absurd first (own ▸ fresh)
      · rcases free x here _ given with alike | fresh
        · exact alike.trans other
        · exact absurd second (other ▸ fresh)
      · exact Option.some.inj (here.symm.trans there)

def placePath : List String := ["urn:A","urn:p","urn:B"]

def placeNode (id : String) : SelectedNode := ⟨id,"s",some ⟨"s","",false,.field,"",none,placePath⟩⟩

def placeCounts (further : Bool) : SelectionGraph :=
  { nodes := [placeNode "x",placeNode "p",
      ⟨"c","c",some ⟨"c","",false,.field,"",none,placePath ++ ["urn:q","urn:C"]⟩⟩] ++
      if further then [placeNode "d"] else []
    edges := [⟨"x","p",.null,true⟩,⟨"p","c",.null,false⟩] ++
      if further then [⟨"c","d",.null,true⟩] else []
    central := some "x"
    count := ["c"] }

theorem twoPlacesApart : ∃ outer sub,
    (placeCounts false).outer.pattern false = .ok outer ∧
    (placeCounts false).countPattern false ["c"]
      ((CountClosures.ofGraph (placeCounts false)).parents.find? "c") "c" = .ok sub ∧
    sub.KeepsApart ((placeCounts false).joining outer sub "c") ∧
    ((sub.KeepsApart ((placeCounts false).joining outer sub "c") ↔
        NameIsFree sub ((placeCounts false).parentIn sub "c") ((placeCounts false).parentIn outer "c")) ∧
      (sub.KeepsApart ((placeCounts false).joining outer sub "c") →
        ∀ t ∈ sub.records.keys, ∀ u ∈ sub.records.keys,
          t.rename ((placeCounts false).joining outer sub "c") =
            u.rename ((placeCounts false).joining outer sub "c") → t = u)) := by
  have evaluated : ((placeCounts false).outer.pattern false).bind (fun outer =>
      ((placeCounts false).countPattern false ["c"]
        ((CountClosures.ofGraph (placeCounts false)).parents.find? "c") "c").map fun sub =>
      decide (sub.KeepsApart ((placeCounts false).joining outer sub "c"))) = .ok true := by decide +kernel
  obtain ⟨outer,made,rest⟩ := bindOk.mp evaluated
  obtain ⟨sub,built,apart⟩ := mapOk rest
  exact ⟨outer,sub,made,built,of_decide_eq_true apart,joinKeepsApartIff made built⟩

theorem thirdPlaceCaptured : ∃ outer counts, (placeCounts true).outer.pattern false = .ok outer ∧
    Counts.ofGraph (placeCounts true) outer (CountClosures.ofGraph (placeCounts true)) .standard false false =
      .ok counts ∧
    ∃ b ∈ counts.blocks, ∃ node sub, BlockOrigin (placeCounts true) .standard false outer b node sub ∧
      ¬ sub.KeepsApart ((placeCounts true).joining outer sub node) ∧
      ∃ t ∈ sub.records.keys, ∃ u ∈ sub.records.keys, t ≠ u ∧
        t.rename ((placeCounts true).joining outer sub node) =
          u.rename ((placeCounts true).joining outer sub node) := by
  have evaluated : ((placeCounts true).parts .standard).bind (fun parts =>
      ((placeCounts true).countPattern false ["c","d"]
        ((CountClosures.ofGraph (placeCounts true)).parents.find? "c") "c").map fun sub =>
      decide (parts.2.blocks ≠ [] ∧ ¬ sub.KeepsApart ((placeCounts true).joining parts.1 sub "c") ∧
        ∃ t ∈ sub.records.keys, ∃ u ∈ sub.records.keys, t ≠ u ∧
          t.rename ((placeCounts true).joining parts.1 sub "c") =
            u.rename ((placeCounts true).joining parts.1 sub "c"))) = .ok true := by decide +kernel
  obtain ⟨parts,done,rest⟩ := bindOk.mp evaluated
  obtain ⟨sub,built,captured⟩ := mapOk rest
  obtain ⟨made,counted⟩ := partsDone done
  obtain ⟨some_,captured⟩ := of_decide_eq_true captured
  obtain ⟨b,member⟩ := List.exists_mem_of_ne_nil _ some_
  obtain ⟨node,other,origin⟩ := blockOrigin counted member
  obtain ⟨rfl,same⟩ := soleOrigin (show _ = [("c",["c","d"])] by decide +kernel) origin
  cases built.symm.trans same
  exact ⟨parts.1,parts.2,made,counted,b,member,_,sub,origin,captured⟩

end PathQuery
