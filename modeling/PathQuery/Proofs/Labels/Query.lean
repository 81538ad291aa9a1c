import PathQuery.Proofs.Labels.Count
import PathQuery.Proofs.Labels.Unquoted

/-! The query of a selection does not depend on what the elements of the model are called, comments and blank lines aside,
as long as no name breaks a line by its escapes, the counts of nothing except comments are the same, and no string that
the code opens can go on through a comment. Names can change which query there is only through these. -/
namespace PathQuery
open Grammar Text

variable {g other : SelectionGraph}

theorem compileAlike {accepts : List Char → Bool} (skips : SkipsIdle accepts) (same : g.unnamed = other.unnamed)
    (o : QueryOptions) (first : g.Legible) (second : other.Legible) (silent : g.silentCounts o = other.silentCounts o)
    (unquoted : ∀ query, g.queryText o = .ok query → Unquoted query) :
    (g.compile (checked accepts) o).map codeOf = (other.compile (checked accepts) o).map codeOf := by
  have header : g.headerLines (g.fullPrefixes o) = other.headerLines (other.fullPrefixes o) := by
    rw [← g.unnamedHeader,← g.unnamedFullPrefixes,same,other.unnamedHeader,other.unnamedFullPrefixes]
  unfold SelectionGraph.compile
  rw [header]
  obtain ⟨fault,failed,later⟩ | ⟨parts,others,made,later,pattern,counts⟩ :=
    togetherCases (partsAlike same o silent)
  · simp only [SelectionGraph.queryText,failed,later]
  · have written : g.queryText o = .ok (parts.1.toPattern.query o (parts.2.extras o.namespaces)) := by
      simp only [SelectionGraph.queryText,made]
      rfl
    have rewritten : other.queryText o = .ok (others.1.toPattern.query o (others.2.extras o.namespaces)) := by
      simp only [SelectionGraph.queryText,later]
      rfl
    obtain ⟨read,code⟩ := partsHushed first made
    obtain ⟨reread,recode⟩ := partsHushed second later
    rw [barePattern pattern,counts,← reread] at read
    rw [barePattern pattern,counts,← recode] at code
    simp only [written,rewritten,bind,Except.bind,checkedAlike skips read (unquoted _ written)]
    cases checked accepts (others.1.toPattern.query o (others.2.extras o.namespaces)) with
    | error fault => rfl
    | ok _ => exact congrArg Except.ok (by rw [codeBreak,codeBreak,code])

/-- Two models that differ just in names read each selection alike, and have one query for it, whatever parser tells the
queries from other texts, as long as it passes over comments. -/
theorem labelsLeaveQuery {accepts : List Char → Bool} (skips : SkipsIdle accepts) {model renamed : PathModel}
    (same : model.unnamed = renamed.unnamed) (selection : Value) (o : QueryOptions) :
    (SelectionGraph.ofValue model selection).map SelectionGraph.unnamed =
        (SelectionGraph.ofValue renamed selection).map SelectionGraph.unnamed ∧
      ∀ g other, SelectionGraph.ofValue model selection = .ok g →
        SelectionGraph.ofValue renamed selection = .ok other → g.Legible → other.Legible →
          g.silentCounts o = other.silentCounts o → (∀ query, g.queryText o = .ok query → Unquoted query) →
            (g.compile (checked accepts) o).map codeOf = (other.compile (checked accepts) o).map codeOf := by
  have alike := SelectionGraph.readAlike same selection
  refine ⟨alike,fun g other first second legible clear silent unquoted => ?_⟩
  rw [first,second] at alike
  exact compileAlike skips (Except.ok.inj alike) o legible clear silent unquoted

def namedModel (path : List String) (first second third : String) : PathModel := .ofList
  [⟨"p","",false,.field,first,none,["urn:A"]⟩,⟨"k","",false,.field,second,none,path⟩,
    ⟨"d","",false,.field,third,none,["urn:A"]⟩]

def namedSelection : Value := .mapping
  [("central",.text "p"),("nodes",Value.texts ["p","k","d"]),
    ("edges",.list [.mapping [("source",.text "p"),("target",.text "k")],
      .mapping [("source",.text "k"),("target",.text "d")]]),
    ("count",Value.texts ["k"])]

def namedGraph (path : List String) (first second third : String) : SelectionGraph :=
  { nodes := [⟨"p","p",(namedModel path first second third).get? "p"⟩,
      ⟨"k","k",(namedModel path first second third).get? "k"⟩,
      ⟨"d","d",(namedModel path first second third).get? "d"⟩]
    edges := [⟨"p","k",.null,false⟩,⟨"k","d",.null,false⟩]
    central := some "p"
    count := ["k"] }

theorem namedFieldCompiles : ∃ lines,
    ((namedGraph ["urn:A","urn:q","urn:B"] "P" "caf\\u00E9" "D").compile validate .standard).map codeOf = .ok lines ∧
      ((namedGraph ["urn:A","urn:q","urn:B"] "N" "N" "N").compile validate .standard).map codeOf = .ok lines := by
  have same : (namedModel ["urn:A","urn:q","urn:B"] "P" "caf\\u00E9" "D").unnamed =
      (namedModel ["urn:A","urn:q","urn:B"] "N" "N" "N").unnamed := by decide +kernel
  have legible : (namedGraph ["urn:A","urn:q","urn:B"] "P" "caf\\u00E9" "D").Legible := by decide +kernel
  have alike := (labelsLeaveQuery isQuerySkips same namedSelection .standard).2
    (namedGraph ["urn:A","urn:q","urn:B"] "P" "caf\\u00E9" "D") (namedGraph ["urn:A","urn:q","urn:B"] "N" "N" "N")
    (by decide +kernel) (by decide +kernel) legible (by decide +kernel) (by decide +kernel)
    fun _ written => quotelessUnquoted legible (by decide +kernel) (by simp [QueryOptions.standard])
      ⟨by decide +kernel,by decide +kernel⟩ written
  have compiled : (((namedGraph ["urn:A","urn:q","urn:B"] "N" "N" "N").compile validate .standard).map fun _ => ()) =
      .ok () := by decide +kernel
  obtain ⟨query,done,_⟩ := mapOk compiled
  exact ⟨codeOf query,alike.trans (by rw [validate] at done; rw [done]; rfl),by rw [done]; rfl⟩

def loneGraph (name : String) : SelectionGraph :=
  ⟨[⟨"x","x",some ⟨"x","",false,.field,name,none,["urn:A"]⟩⟩],[],none,[]⟩

theorem namesShowThrough :
    ((namedModel ["urn:A"] "P" "K" "D").unnamed = (namedModel ["urn:A"] "N" "N" "N").unnamed ∧
      SelectionGraph.ofValue (namedModel ["urn:A"] "P" "K" "D") namedSelection =
        .ok (namedGraph ["urn:A"] "P" "K" "D") ∧
      SelectionGraph.ofValue (namedModel ["urn:A"] "N" "N" "N") namedSelection =
        .ok (namedGraph ["urn:A"] "N" "N" "N") ∧
      ((namedGraph ["urn:A"] "P" "K" "D").compile validate .standard).map codeOf =
        .ok (["SELECT DISTINCT","  ?p_root  # <<<<< central node","    ?p_root_count_raw","WHERE \x7b",
          "  ?p_root a <urn:A> .","  \x7b","    SELECT ?p_root (COUNT(DISTINCT ?p_root) AS ?p_root_count_raw)",
          "    WHERE \x7b","    \x7d","    GROUP BY ?p_root","  \x7d","\x7d"].map String.toList) ∧
      ((namedGraph ["urn:A"] "N" "N" "N").compile validate .standard).map codeOf =
        .ok (["SELECT DISTINCT","  ?p_root  # <<<<< central node","WHERE \x7b","  ?p_root a <urn:A> .","\x7d"].map
          String.toList)) ∧
    (loneGraph "a\\u000Ab").unnamed = (loneGraph "ab").unnamed ∧
      (loneGraph "a\\u000Ab").compile validate .standard = .error .invalidQuery ∧
      ((loneGraph "ab").compile validate .standard).map codeOf =
        .ok (["SELECT DISTINCT","  ?x_root  # <<<<< central node","WHERE \x7b","  ?x_root a <urn:A> .","\x7d"].map
          String.toList) := by
  decide +kernel

end PathQuery
