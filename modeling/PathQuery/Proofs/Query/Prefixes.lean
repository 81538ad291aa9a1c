import PathQuery.Proofs.Query.Written

/-! Which prefixes a query declares. They are found by a scan of their own, which agrees with the lines that are
written: a prefix is declared just if it shortens a term of some line, but for the empty prefix, which never is. -/
namespace PathQuery

def Term.Shortened (namespaces : NamespaceTable) (label : String) (term : Term) : Prop :=
  ∃ name, NamespaceTable.isLocal name = true ∧ term.text namespaces = label.toList ++ ':' :: name

namespace NamespaceTable

theorem localEndLacks {c : Char} (other : isLocalEnd c = false) (apart : c ≠ '.') (line : c ≠ '\n')
    {name : List Char} (own : isLocal name = true) : c ∉ name := by
  have plain : ∀ {s : List Char}, isPlainLocal s = true → c ∉ s := by
    intro s plain member
    simp only [isPlainLocal,Bool.and_eq_true,List.all_eq_true] at plain
    simpa [other,apart] using plain.2 c member
  rcases Bool.or_eq_true_iff.mp own with own | broken
  · exact plain own
  · obtain ⟨last,front⟩ := Bool.and_eq_true_iff.mp broken
    have last : name.getLast? = some '\n' := by simpa using last
    obtain ⟨start,rfl⟩ := List.getLast?_eq_some_iff.mp last
    rw [List.dropLast_concat] at front
    simpa [line] using plain front

theorem colonSplits {a b name other : List Char} (first : ':' ∉ name) (second : ':' ∉ other)
    (same : a ++ ':' :: name = b ++ ':' :: other) : a = b := by
  rcases List.append_eq_append_iff.mp same with ⟨gap,rfl,tail⟩ | ⟨gap,rfl,tail⟩
  · cases gap with
    | nil => simp
    | cons c gap =>
        obtain ⟨_,rfl⟩ := List.cons.inj tail
        exact absurd (by simp) first
  · cases gap with
    | nil => simp
    | cons c gap =>
        obtain ⟨_,rfl⟩ := List.cons.inj tail
        exact absurd (by simp) second

variable {namespaces : NamespaceTable} {iri : String}

theorem compactKind (namespaces : NamespaceTable) : namespaces.compact rdfType = "a" := if_pos rfl

theorem compactShort (other : iri ≠ rdfType) {label name : String}
    (found : namespaces.match? iri = some (label,name)) :
    (namespaces.compact iri).toList = label.toList ++ ':' :: name.toList := by
  simp [compact,other,found]

theorem compactFull (other : iri ≠ rdfType) (missed : namespaces.match? iri = none) :
    (namespaces.compact iri).toList = '<' :: (iri.toList ++ ['>']) := by
  simp [compact,other,missed]

end NamespaceTable

open NamespaceTable

variable {namespaces : NamespaceTable} {label : String}

theorem shortenedIri {value : String} : (Term.iri value).Shortened namespaces label ↔
    value ≠ rdfType ∧ namespaces.labelFor value = some label := by
  have lacks : ∀ {name : List Char}, isLocal name = true → ':' ∉ name ∧ '>' ∉ name := fun own =>
    ⟨localEndLacks (by decide) (by decide) (by decide) own,localEndLacks (by decide) (by decide) (by decide) own⟩
  have text : (Term.iri value).text namespaces = (namespaces.compact value).toList := rfl
  unfold Term.Shortened labelFor
  rw [text]
  by_cases kind : value = rdfType
  · refine iff_of_false ?_ fun taken => taken.1 kind
    rintro ⟨name,_,same⟩
    rw [kind,compactKind] at same
    have : ':' ∈ "a".toList := by rw [same]; simp
    simp at this
  · cases found : namespaces.match? value with
    | none =>
        refine iff_of_false ?_ (by simp)
        rintro ⟨name,own,same⟩
        rw [compactFull kind found,← List.cons_append] at same
        rcases List.eq_nil_or_concat name with rfl | ⟨front,last,rfl⟩
        · contradiction
        · rw [List.concat_eq_append,← List.cons_append,← List.append_assoc] at same
          cases (List.append_inj' same rfl).2
          exact (lacks own).2 (by simp)
    | some pair =>
        obtain ⟨_,_,_,_,own⟩ := matchSpells found
        rw [compactShort kind found]
        constructor
        · rintro ⟨name,other,same⟩
          exact ⟨kind,congrArg some (String.toList_inj.mp (colonSplits (lacks own).1 (lacks other).1 same))⟩
        · rintro ⟨_,same⟩
          cases same
          exact ⟨_,own,rfl⟩

theorem shortenedLabel {fits : String → Prop} {t : Triple} (formed : t.Formed fits) {term : Term}
    (inside : term ∈ t.terms) :
    term.label? namespaces = some label ↔ label ≠ "" ∧ term.Shortened namespaces label := by
  have variable_ : ∀ name : String, IsWord name.toList →
      ((Term.var name).label? namespaces = some label ↔ label ≠ "" ∧ (Term.var name).Shortened namespaces label) := by
    intro name word
    refine iff_of_false (by simp [Term.label?]) ?_
    rintro ⟨_,rest,_,text⟩
    have colon : ':' ∈ (Term.var name).text namespaces := by rw [text]; simp
    rcases List.mem_cons.mp colon with mark | there
    · exact absurd mark (by decide)
    · exact wordLacks word (by decide) there
  have iri_ : ∀ value : String, (Term.iri value).label? namespaces = some label ↔
      label ≠ "" ∧ (Term.iri value).Shortened namespaces label := by
    intro value
    rw [shortenedIri,Term.label?]
    by_cases kind : value = rdfType
    · simp [kind]
    · simp [kind,Option.filter_eq_some_iff,and_comm]
  cases formed with
  | kind word _ =>
      rcases (by simpa [Triple.terms,typeTriple] using inside) with rfl | rfl | rfl
      · exact variable_ _ word
      · exact iri_ _
      · exact iri_ _
  | link start _ stop =>
      rcases (by simpa [Triple.terms] using inside) with rfl | rfl | rfl
      · exact variable_ _ start
      · exact iri_ _
      · exact variable_ _ stop

theorem labelsRename (names : Renaming) (t : Triple) :
    (t.rename names).labels namespaces = t.labels namespaces := by
  have each : ∀ term : Term, (term.rename names).label? namespaces = term.label? namespaces := by
    intro term
    cases term with
    | iri value => rfl
    | var name =>
        cases found : names.find? name <;> simp [Term.rename,Term.label?,found]
  have terms : (t.rename names).terms = t.terms.map (Term.rename names) := rfl
  rw [Triple.labels,terms,List.filterMap_map,Triple.labels]
  congr 1
  exact funext each

namespace Pattern

variable (p : Pattern)

theorem labelsFromScan (excluded seen : List Triple) (emissions : List Emission) :
    label ∈ p.labelsFrom namespaces excluded seen emissions ↔
      ∃ e ∈ emissions, e.triple ∉ excluded ∧ e.triple ∉ seen ∧ p.records.contains e.triple = true ∧
        label ∈ e.triple.labels namespaces := by
  fun_induction labelsFrom p namespaces excluded seen emissions with
  | case1 => simp
  | case2 seen e rest skipped ih =>
      rw [ih]
      have passed : ¬(e.triple ∉ excluded ∧ e.triple ∉ seen ∧ p.records.contains e.triple = true) := by
        rintro ⟨apart,fresh,recorded⟩
        simp [apart,fresh,recorded] at skipped
      constructor
      · rintro ⟨other,later,found⟩
        exact ⟨other,List.mem_cons_of_mem _ later,found⟩
      · rintro ⟨other,there,apart,fresh,recorded,found⟩
        rcases List.mem_cons.mp there with rfl | later
        · exact absurd ⟨apart,fresh,recorded⟩ passed
        · exact ⟨other,later,apart,fresh,recorded,found⟩
  | case3 seen e rest counted ih =>
      obtain ⟨⟨apart,fresh⟩,recorded⟩ : (e.triple ∉ excluded ∧ e.triple ∉ seen) ∧
          p.records.contains e.triple = true := by simpa using counted
      rw [List.mem_append,ih]
      constructor
      · rintro (here | ⟨other,later,outside,new,stored,found⟩)
        · exact ⟨e,by simp,apart,fresh,recorded,here⟩
        · exact ⟨other,List.mem_cons_of_mem _ later,outside,fun old => new (List.mem_cons_of_mem _ old),stored,found⟩
      · rintro ⟨other,there,outside,new,stored,found⟩
        by_cases same : other.triple = e.triple
        · exact .inl (same ▸ found)
        · rcases List.mem_cons.mp there with rfl | later
          · exact absurd rfl same
          · exact .inr ⟨other,later,outside,by simp [same,new],stored,found⟩

theorem labelsOfLines (excluded : List Triple) : label ∈ p.labels namespaces excluded ↔
    ∃ t ∈ writtenTriples (p.lines excluded), label ∈ t.labels namespaces := by
  rw [labels,labelsFromScan]
  simp only [writtenLines]
  constructor
  · rintro ⟨e,there,apart,_,recorded,found⟩
    exact ⟨e.triple,⟨apart,recorded,e,there,rfl⟩,found⟩
  · rintro ⟨_,⟨apart,recorded,e,there,rfl⟩,found⟩
    exact ⟨e,there,apart,by simp,recorded,found⟩

end Pattern

variable {g : SelectionGraph} {outer : SelectPattern} {full zero : Bool} {closures : CountClosures}

theorem tallyLabels {id : String} {members : List String} {sub : SelectPattern} {tally : Tally}
    (source : TallySource g namespaces full outer closures id members sub tally) :
    label ∈ tally.labels ↔ ∃ t ∈ writtenTriples tally.body, label ∈ t.labels namespaces := by
  have sourced := patternSourced source.made
  rw [source.labels,source.body,Pattern.labelsOfLines]
  simp only [writtenBody namespaces outer sourced _ (droppedAreNotes g _ _)]
  constructor
  · rintro ⟨t,there,found⟩
    have lacked := (Pattern.writtenLines _ _ t).mp there
    exact ⟨_,⟨t,(writtenUnmarked sourced outer _ t).mp ((Pattern.writtenLines _ _ t).mpr lacked),rfl⟩,
      (labelsRename _ t).symm ▸ found⟩
  · rintro ⟨_,⟨t,lacked,rfl⟩,found⟩
    have there := (Pattern.writtenLines _ _ t).mp ((writtenUnmarked sourced outer _ t).mpr lacked)
    exact ⟨t,(Pattern.writtenLines _ _ t).mpr there,labelsRename _ t ▸ found⟩

theorem talliesLabels {depths : Table String Int} {taken : List String} {tallies : List Tally}
    (each : ∀ tally ∈ tallies, label ∈ tally.labels ↔
      ∃ t ∈ writtenTriples tally.body, label ∈ t.labels namespaces) :
    label ∈ (Counts.ofTallies depths zero taken tallies).labels ↔
      ∃ b ∈ (Counts.ofTallies depths zero taken tallies).blocks, ∃ t ∈ writtenTriples b.body,
        label ∈ t.labels namespaces := by
  induction tallies generalizing taken with
  | nil => simp [Counts.ofTallies]
  | cons tally rest ih =>
      have later := fun taken => @ih taken fun other there => each other (List.mem_cons_of_mem _ there)
      simp only [Counts.ofTallies,List.mem_append,each tally (by simp),later,List.mem_cons,or_and_right,exists_or,
        exists_eq_left]

theorem countsLabels {counts : Counts}
    (counted : Counts.ofGraph g outer closures namespaces zero full = .ok counts) :
    label ∈ counts.labels ↔ ∃ b ∈ counts.blocks, ∃ t ∈ writtenTriples b.body, label ∈ t.labels namespaces := by
  obtain ⟨tallies,rfl,sources⟩ := talliesSource counted
  exact talliesLabels fun tally there => by
    obtain ⟨entry,_,sub,source⟩ := sources tally there
    exact tallyLabels source

def Pattern.mainLines (p : Pattern) (o : QueryOptions) (counts : Counts) : List (List Char) :=
  [] :: "SELECT DISTINCT".toList :: (selectLines (p.projections ++ counts.projections) ++
    "WHERE \x7b".toList :: ((counts.blocks.map (CountBlock.lines o.namespaces)).foldl addBlock
      (p.bodyLines o.namespaces) ++ "\x7d".toList :: o.endLines))

variable {o : QueryOptions} {query : List Char}

theorem usedLabel {parts : SelectPattern × Counts} (done : g.parts o = .ok parts) :
    label ∈ parts.1.toPattern.labels o.namespaces [] ++ parts.2.labels ↔
      label ≠ "" ∧ ∃ t ∈ parts.1.writes parts.2, ∃ term ∈ t.terms, term.Shortened o.namespaces label := by
  have shown : ∀ t ∈ parts.1.writes parts.2, label ∈ t.labels o.namespaces ↔
      label ≠ "" ∧ ∃ term ∈ t.terms, term.Shortened o.namespaces label := by
    intro t there
    have formed := writesFormed (spelledAny g) done t there
    rw [Triple.labels,List.mem_filterMap]
    constructor
    · rintro ⟨term,inside,found⟩
      obtain ⟨filled,short⟩ := (shortenedLabel formed inside).mp found
      exact ⟨filled,term,inside,short⟩
    · rintro ⟨filled,term,inside,short⟩
      exact ⟨term,inside,(shortenedLabel formed inside).mpr ⟨filled,short⟩⟩
  have scanned : label ∈ parts.1.toPattern.labels o.namespaces [] ++ parts.2.labels ↔
      ∃ t ∈ parts.1.writes parts.2, label ∈ t.labels o.namespaces := by
    rw [List.mem_append,Pattern.labelsOfLines,countsLabels (partsDone done).2]
    simp only [SelectPattern.writes,List.mem_append,List.mem_flatMap]
    constructor
    · rintro (⟨t,there,found⟩ | ⟨b,block,t,there,found⟩)
      · exact ⟨t,.inl there,found⟩
      · exact ⟨t,.inr ⟨b,block,there⟩,found⟩
    · rintro ⟨t,there | ⟨b,block,there⟩,found⟩
      · exact .inl ⟨t,there,found⟩
      · exact .inr ⟨b,block,t,there,found⟩
  rw [scanned]
  constructor
  · rintro ⟨t,there,found⟩
    obtain ⟨filled,short⟩ := (shown t there).mp found
    exact ⟨filled,t,there,short⟩
  · rintro ⟨filled,t,there,short⟩
    exact ⟨t,there,(shown t there).mpr ⟨filled,short⟩⟩

theorem shortenedEntry {fits : String → Prop} {t : Triple} (formed : t.Formed fits) {term : Term}
    (inside : term ∈ t.terms) (filled : label ≠ "") (short : term.Shortened namespaces label) :
    ∃ e ∈ namespaces.entries, e.label = label := by
  have found := (shortenedLabel formed inside).mpr ⟨filled,short⟩
  cases term with
  | var name => contradiction
  | iri value =>
      obtain ⟨⟨_,name⟩,matched,rfl⟩ := Option.map_eq_some_iff.mp (shortenedIri.mp short).2
      obtain ⟨e,there,same,_⟩ := matchSpells matched
      exact ⟨e,there,same⟩

def SelectPattern.declared (outer : SelectPattern) (counts : Counts) (namespaces : NamespaceTable) :
    List NamespaceEntry :=
  namespaces.entries.filter fun e => (outer.toPattern.labels namespaces [] ++ counts.labels).contains e.label

theorem queryDeclares (written : g.queryText o = .ok query) :
    ∃ outer counts, g.parts o = .ok (outer,counts) ∧
      query = Text.joinLines ((outer.declared counts o.namespaces).map (fun e => (declaration e).toList) ++
        outer.toPattern.mainLines o counts) := by
  obtain ⟨⟨outer,counts⟩,done,same⟩ := bindOk.mp written
  cases same
  refine ⟨outer,counts,done,?_⟩
  rw [Pattern.query,Pattern.queryLines,declarations,List.map_map]
  simp only [Counts.extras,Pattern.mainLines,List.append_assoc,List.cons_append,List.nil_append]
  rfl

/-- The prefixes above a query are those that shorten a term of a triple that it writes, but for the empty
one. -/
theorem declaredIffShortened (written : g.queryText o = .ok query) :
    ∃ outer counts, ∃ declared : List NamespaceEntry, g.parts o = .ok (outer,counts) ∧
      query = Text.joinLines (declared.map (fun e => (declaration e).toList) ++
        outer.toPattern.mainLines o counts) ∧
      ∀ label, (∃ e ∈ declared, e.label = label) ↔
        label ≠ "" ∧ ∃ t ∈ outer.writes counts, ∃ term ∈ t.terms, term.Shortened o.namespaces label := by
  obtain ⟨outer,counts,done,same⟩ := queryDeclares written
  refine ⟨outer,counts,outer.declared counts o.namespaces,done,same,fun label => ?_⟩
  rw [← usedLabel done]
  constructor
  · rintro ⟨e,there,rfl⟩
    exact List.contains_iff_mem.mp (List.mem_filter.mp there).2
  · intro found
    obtain ⟨filled,t,there,term,inside,short⟩ := (usedLabel done).mp found
    obtain ⟨e,listed,rfl⟩ := shortenedEntry (writesFormed (spelledAny g) done t there) inside filled short
    exact ⟨e,List.mem_filter.mpr ⟨listed,List.contains_iff_mem.mpr found⟩,rfl⟩

def thingGraph (id cls : String) : SelectionGraph :=
  ⟨[⟨id,id,some ⟨id,"",false,.field,"Thing",none,[cls]⟩⟩],[],none,[]⟩

def labelled (entries : List NamespaceEntry) : QueryOptions :=
  { QueryOptions.standard with namespaces := ⟨entries⟩ }

theorem ownPrefixDeclared : ∃ query, (thingGraph "x" "http://a.org/Thing").queryText
      (labelled [⟨"ex","http://a.org/"⟩,⟨"other","http://b.org/"⟩]) = .ok query ∧
    ∃ outer counts, ∃ declared : List NamespaceEntry,
      (thingGraph "x" "http://a.org/Thing").parts (labelled [⟨"ex","http://a.org/"⟩,⟨"other","http://b.org/"⟩]) =
        .ok (outer,counts) ∧
      query = Text.joinLines (declared.map (fun e => (declaration e).toList) ++
        outer.toPattern.mainLines (labelled [⟨"ex","http://a.org/"⟩,⟨"other","http://b.org/"⟩]) counts) ∧
      ∀ label, (∃ e ∈ declared, e.label = label) ↔ label ≠ "" ∧ ∃ t ∈ outer.writes counts, ∃ term ∈ t.terms,
        term.Shortened ⟨[⟨"ex","http://a.org/"⟩,⟨"other","http://b.org/"⟩]⟩ label := by
  have evaluated : (((thingGraph "x" "http://a.org/Thing").queryText
      (labelled [⟨"ex","http://a.org/"⟩,⟨"other","http://b.org/"⟩])).map fun _ => ()) = .ok () := by decide +kernel
  obtain ⟨query,written,_⟩ := mapOk evaluated
  exact ⟨query,written,declaredIffShortened written⟩

theorem blankPrefixUndeclared :
    NamespaceTable.ofValue (.list [.list [.text " ",.text "http://a.org/"]]) = .ok ⟨[⟨"","http://a.org/"⟩]⟩ ∧
    (thingGraph "x" "http://a.org/Thing").queryText (labelled [⟨"","http://a.org/"⟩]) = .ok (Text.joinLines
      (["","SELECT DISTINCT","  ?x_root  # <<<<< central node","WHERE \x7b","","# >>>> Central node: Thing <<<<",
        "  ?x_root a :Thing .","\x7d"].map String.toList)) := by
  decide +kernel

end PathQuery
