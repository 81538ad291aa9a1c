import PathQuery.Proofs.Count.Writing
import PathQuery.Proofs.Grammar.Denotation
import PathQuery.Proofs.Query.Idle
import PathQuery.Proofs.Query.Prefixes

/-! What the lines of a query denote by the query's own declarations: each triple line denotes the triple that it
was written for, as long as each prefix that shortens an IRI of it is declared, and last declared for the IRI's
own namespace. -/
namespace PathQuery
open Grammar NamespaceTable

def NamespaceTable.Legal (namespaces : NamespaceTable) : Prop :=
  ∀ e ∈ namespaces.entries, IsPrefix e.label.toList ∧ IriText e.iri

def NamespaceTable.Settles (namespaces : NamespaceTable) (iri : String) : Prop :=
  iri = rdfType ∨ ∀ pair ∈ namespaces.match? iri,
    pair.1 ≠ "" ∧ (spelling namespaces.entries pair.1).map (· ++ pair.2) = some iri

instance (namespaces : NamespaceTable) (iri : String) : Decidable (namespaces.Settles iri) := by
  unfold NamespaceTable.Settles; infer_instance

def Term.iri? : Term → Option String
  | .iri value => some value
  | .var _ => none

def Triple.Settled (namespaces : NamespaceTable) (t : Triple) : Prop :=
  t.object ≠ .iri rdfType ∧ ∀ term ∈ t.terms, ∀ iri ∈ term.iri?, namespaces.Settles iri

instance (namespaces : NamespaceTable) (t : Triple) : Decidable (t.Settled namespaces) := by
  unfold Triple.Settled; infer_instance

variable {namespaces : NamespaceTable}

theorem compactSpelling (legal : namespaces.Legal) {iri : String} (chars : IriText iri) (other : iri ≠ rdfType) :
    Spelling (namespaces.compact iri).toList := by
  cases found : namespaces.match? iri with
  | none =>
      rw [compactFull other found]
      exact .full chars
  | some pair =>
      obtain ⟨e,member,label,rfl,own⟩ := matchSpells found
      have line : '\n' ∉ pair.2.toList := by
        intro there
        exact absurd (chars '\n' (by simp [there])) (by decide)
      rw [compactShort other found,← label]
      exact .short (legal e member).1 (localPlain own line)

def Agrees (namespaces : NamespaceTable) (declared : List NamespaceEntry) (iri : String) : Prop :=
  iri ≠ rdfType → ∀ pair ∈ namespaces.match? iri,
    spelling declared pair.1 = if pair.1 = "" then none else spelling namespaces.entries pair.1

theorem compactReads (legal : namespaces.Legal) {declared : List NamespaceEntry} {iri : String}
    (agrees : Agrees namespaces declared iri) (chars : IriText iri) (other : iri ≠ rdfType) :
    iriOf declared (namespaces.compact iri).toList = some iri ↔ namespaces.Settles iri := by
  cases found : namespaces.match? iri with
  | none =>
      rw [compactFull other found]
      exact iff_of_true ((iriOfFull declared chars).trans (congrArg some (String.ofList_toList)))
        (.inr (by simp [found]))
  | some pair =>
      obtain ⟨e,member,label,_,_⟩ := matchSpells found
      have given := agrees other pair found
      rw [compactShort other found,iriOfShort declared (label ▸ (legal e member).1),String.ofList_toList,
        String.ofList_toList,given,NamespaceTable.Settles,found]
      by_cases bare : pair.1 = ""
      · simp [bare,other]
      · simp [bare,other]

theorem compactVerbReads (legal : namespaces.Legal) {declared : List NamespaceEntry} {iri : String}
    (agrees : Agrees namespaces declared iri) (chars : IriText iri) :
    VerbSpelling (namespaces.compact iri).toList ∧
      (verbOf declared (namespaces.compact iri).toList = some (.iri iri) ↔ namespaces.Settles iri) := by
  by_cases kind : iri = rdfType
  · subst kind
    rw [compactKind]
    exact ⟨.kind,iff_of_true rfl (.inl rfl)⟩
  · have spelled := compactSpelling legal chars kind
    refine ⟨.spelled spelled,?_⟩
    rw [verbOfSpelling declared spelled,← compactReads legal agrees chars kind]
    simp

theorem compactTermReads (legal : namespaces.Legal) {declared : List NamespaceEntry} {iri : String}
    (agrees : Agrees namespaces declared iri) (chars : IriText iri) (other : iri ≠ rdfType) :
    ObjectSpelling (namespaces.compact iri).toList ∧
      (termOf declared (namespaces.compact iri).toList = some (.iri iri) ↔ namespaces.Settles iri) := by
  have spelled := compactSpelling legal chars other
  refine ⟨.spelled spelled,?_⟩
  rw [termOfSpelling declared spelled,← compactReads legal agrees chars other]
  simp

theorem tripleReads (legal : namespaces.Legal) {declared : List NamespaceEntry} {t : Triple}
    (formed : t.Formed IriText) (agrees : ∀ term ∈ t.terms, ∀ iri ∈ term.iri?, Agrees namespaces declared iri) :
    readTriple declared (t.text namespaces) = some t ↔ t.Settled namespaces := by
  cases formed with
  | @kind name iri word fit =>
      have text : (typeTriple name iri).text namespaces = '?' :: name.toList ++ ' ' ::
          (['a'] ++ ' ' :: ((namespaces.compact iri).toList ++ [' ','.'])) := by
        simp [Triple.text,typeTriple,Term.text,compactKind]
      rw [text]
      by_cases kind : iri = rdfType
      · subst kind
        rw [compactKind]
        have unread := readTripleKind declared word .kind
        exact iff_of_false (fun read => absurd (unread.symm.trans read) (by simp)) fun settled => settled.1 rfl
      · have own := agrees (.iri iri) (by simp [Triple.terms,typeTriple]) iri rfl
        obtain ⟨spelled,reads⟩ := compactTermReads legal own fit kind
        have read := readTripleOf declared word .kind spelled (.iri rdfType) (.iri iri)
        rw [String.ofList_toList,reads] at read
        refine read.trans ?_
        simp [Triple.Settled,Triple.terms,typeTriple,Term.iri?,kind,verbOf,NamespaceTable.Settles]
  | @link source iri target start fit stop =>
      have text : Triple.text namespaces ⟨.var source,.iri iri,.var target⟩ = '?' :: source.toList ++ ' ' ::
          ((namespaces.compact iri).toList ++ ' ' :: ('?' :: target.toList ++ [' ','.'])) := by
        simp [Triple.text,Term.text]
      rw [text]
      obtain ⟨spelled,reads⟩ := compactVerbReads legal (agrees (.iri iri) (by simp [Triple.terms]) iri rfl) fit
      have read := readTripleOf declared start spelled (.var stop) (.iri iri) (.var target)
      rw [String.ofList_toList,reads] at read
      refine read.trans ?_
      simp [Triple.Settled,Triple.terms,Term.iri?,termOf]

theorem tripleLine (legal : namespaces.Legal) {t : Triple} (formed : t.Formed IriText) :
    '\n' ∉ t.text namespaces := by
  have iri_ : ∀ iri, IriText iri → '\n' ∉ (namespaces.compact iri).toList := by
    intro iri chars
    by_cases kind : iri = rdfType
    · rw [kind,compactKind]
      decide
    · exact spellingLine (compactSpelling legal chars kind)
  have name_ : ∀ {name : String}, IsWord name.toList → '\n' ∉ name.toList := fun word =>
    wordLacks word (by decide)
  have kind_ : IriText rdfType := by decide +kernel
  cases formed with
  | kind word fit =>
      simp [Triple.text,typeTriple,Term.text,name_ word,iri_ _ fit,iri_ _ kind_]
  | link start fit stop =>
      simp [Triple.text,Term.text,name_ start,name_ stop,iri_ _ fit]

theorem splitBreak {line : List Char} (whole : '\n' ∉ line) (s : List Char) :
    (line ++ '\n' :: s).splitOn '\n' = line :: s.splitOn '\n' := by
  have single := List.splitOn_eq_singleton whole
  rw [List.splitOn,List.splitOnP_append_cons line s (by simp)]
  exact congrArg (· ++ _) single

theorem lineOfJoined {line : List Char} {lines : List (List Char)} (there : line ∈ lines) (whole : '\n' ∉ line) :
    line ∈ (Text.joinLines lines).splitOn '\n' := by
  induction lines with
  | nil => nomatch there
  | cons first rest ih =>
      cases rest with
      | nil =>
          rw [List.mem_singleton.mp there] at whole ⊢
          simp [Text.joinLines,List.splitOn_eq_singleton whole]
      | cons next more =>
          rw [joinCons first (by simp),List.splitOn,List.splitOnP_append_cons _ _ (by simp)]
          rcases List.mem_cons.mp there with rfl | later
          · have single := List.splitOn_eq_singleton whole
            exact List.mem_append_left _ (by rw [← List.splitOn,single]; simp)
          · exact List.mem_append_right _ (ih later)

theorem declarationText (e : NamespaceEntry) : (declaration e).toList =
    "PREFIX ".toList ++ (e.label.toList ++ (": <".toList ++ (e.iri.toList ++ ['>']))) := by
  simp [declaration]

theorem declaredAbove {entries : List NamespaceEntry}
    (legal : ∀ e ∈ entries, IsPrefix e.label.toList ∧ IriText e.iri) (rest : List (List Char)) :
    declaredIn (Text.joinLines (entries.map (fun e => (declaration e).toList) ++ [] :: rest)) = entries := by
  induction entries with
  | nil =>
      have blank : readDeclaration [] = none := rfl
      cases rest with
      | nil => rfl
      | cons line more =>
          have first := splitBreak (show '\n' ∉ ([] : List Char) by simp) (Text.joinLines (line :: more))
          rw [List.map_nil,List.nil_append,declaredIn,joinCons [] (by simp),first,prologue,blank]
  | cons e others ih =>
      obtain ⟨good,chars⟩ := legal e (by simp)
      have whole : '\n' ∉ (declaration e).toList := by
        have inside : '\n' ∉ e.iri.toList := fun there => absurd (chars '\n' there) (by decide)
        simp [declaration,prefixLine good,inside]
      have first := splitBreak whole (Text.joinLines (others.map (fun e => (declaration e).toList) ++ [] :: rest))
      have read := readDeclarationOf good chars
      have later := ih fun other member => legal other (List.mem_cons_of_mem _ member)
      rw [List.map_cons,List.cons_append,declaredIn,joinCons _ (by simp),first,prologue,declarationText,read]
      rw [declaredIn] at later
      simp [later]

theorem spellingDeclared (entries : List NamespaceEntry) (used : List String) (label : String) :
    spelling (entries.filter fun e => used.contains e.label) label =
      if used.contains label then spelling entries label else none := by
  have here : (fun e : NamespaceEntry => decide (used.contains e.label = true ∧ decide (e.label = label) = true)) =
      fun e => used.contains label && decide (e.label = label) := by
    funext e
    by_cases same : e.label = label <;> simp [same]
  rw [spelling,← List.filter_reverse,List.find?_filter,here]
  cases used.contains label with
  | true => simp [spelling]
  | false => simp

variable {g : SelectionGraph} {o : QueryOptions} {query : List Char} {outer : SelectPattern} {counts : Counts}

theorem declaredAgrees (done : g.parts o = .ok (outer,counts)) {t : Triple} (there : t ∈ outer.writes counts)
    {iri : String} (inside : .iri iri ∈ t.terms) :
    Agrees o.namespaces (outer.declared counts o.namespaces) iri := by
  intro other pair found
  have short : (Term.iri iri).Shortened o.namespaces pair.1 :=
    shortenedIri.mpr ⟨other,by rw [labelFor,Option.mem_def.mp found]; rfl⟩
  rw [SelectPattern.declared,spellingDeclared]
  by_cases bare : pair.1 = ""
  · rw [if_pos bare,if_neg]
    intro used
    exact ((usedLabel done).mp (List.contains_iff_mem.mp used)).1 bare
  · rw [if_neg bare,if_pos]
    exact List.contains_iff_mem.mpr ((usedLabel done).mpr ⟨bare,t,there,_,inside,short⟩)

def ReadsBack (namespaces : NamespaceTable) (query : List Char) (t : Triple) : Prop :=
  ∃ margin, (∀ c ∈ margin, isSpace c = true) ∧ margin ++ t.text namespaces ∈ query.splitOn '\n' ∧
    (readTriple (declaredIn query) (margin ++ t.text namespaces) = some t ↔ t.Settled namespaces)

theorem addedBlocks {line : List Char} {blocks : List (List (List Char))} {lines : List (List Char)}
    (there : line ∈ lines ∨ ∃ block ∈ blocks, line ∈ block) : line ∈ blocks.foldl addBlock lines := by
  induction blocks generalizing lines with
  | nil =>
      rcases there with there | ⟨_,none_,_⟩
      · exact there
      · nomatch none_
  | cons block rest ih =>
      have added : line ∈ lines ∨ line ∈ block → line ∈ addBlock lines block := by
        unfold addBlock
        split
        · next empty => simp [List.isEmpty_iff.mp empty]
        · rintro (there | there) <;> simp [there]
      refine ih ?_
      rcases there with there | ⟨other,listed,there⟩
      · exact .inl (added (.inl there))
      · rcases List.mem_cons.mp listed with rfl | later
        · exact .inl (added (.inr there))
        · exact .inr ⟨other,later,there⟩

theorem readsBackOf (legal : o.namespaces.Legal) (spelled : g.Spelled IriText)
    (done : g.parts o = .ok (outer,counts)) {t : Triple} (there : t ∈ outer.writes counts) {margin : List Char}
    (spaces : ∀ c ∈ margin, c = ' ') (listed : margin ++ t.text o.namespaces ∈ outer.toPattern.mainLines o counts) :
    ReadsBack o.namespaces (Text.joinLines ((outer.declared counts o.namespaces).map
      (fun e => (declaration e).toList) ++ outer.toPattern.mainLines o counts)) t := by
  have formed := writesFormed spelled done t there
  have whole : '\n' ∉ margin ++ t.text o.namespaces := by
    rw [List.mem_append]
    rintro (inside | inside)
    · exact absurd (spaces _ inside) (by decide)
    · exact tripleLine legal formed inside
  have blank : ∀ c ∈ margin, isSpace c = true := fun c inside => spaces c inside ▸ rfl
  refine ⟨margin,blank,lineOfJoined (List.mem_append_right _ listed) whole,?_⟩
  have declared : ∀ e ∈ outer.declared counts o.namespaces, IsPrefix e.label.toList ∧ IriText e.iri :=
    fun e member => legal e (List.mem_filter.mp member).1
  rw [Pattern.mainLines,declaredAbove declared,readTripleMargin _ blank]
  refine tripleReads legal formed fun term inside iri own => declaredAgrees done there ?_
  cases term with
  | var name => cases own
  | iri value =>
      cases Option.some.inj own
      exact inside

theorem indentedShown {namespaces : NamespaceTable} {fits : String → Prop} {t : Triple} (formed : t.Formed fits)
    (margin inner : List Char) :
    indented margin (inner ++ t.text namespaces) = margin ++ (inner ++ t.text namespaces) := by
  have question : '?' ∈ t.text namespaces := by
    cases formed <;> simp [Triple.text,typeTriple,Term.text]
  exact indentedVisible (List.mem_append_right _ question) (by decide) _

theorem bodyListed {depth : Int} {t : Triple} (line : .triple depth t ∈ outer.toPattern.lines []) :
    indent depth ++ t.text o.namespaces ∈ outer.toPattern.mainLines o counts := by
  have body : indent depth ++ t.text o.namespaces ∈ outer.toPattern.bodyLines o.namespaces :=
    List.mem_map.mpr ⟨_,line,rfl⟩
  have added : indent depth ++ t.text o.namespaces ∈ (counts.blocks.map
      (CountBlock.lines o.namespaces)).foldl addBlock (outer.toPattern.bodyLines o.namespaces) :=
    addedBlocks (.inl body)
  simp only [Pattern.mainLines,List.mem_cons,List.mem_append]
  exact .inr (.inr (.inr (.inr (.inl added))))

theorem blockListed {b : CountBlock} (block : b ∈ counts.blocks) {depth : Int} {t : Triple}
    {fits : String → Prop} (formed : t.Formed fits) (line : .triple depth t ∈ b.body) :
    ∃ margin, (∀ c ∈ margin, c = ' ') ∧
      margin ++ t.text o.namespaces ∈ outer.toPattern.mainLines o counts := by
  let inner := if b.optional then "    ".toList else "  ".toList
  have spaces : ∀ c ∈ inner ++ indent depth, c = ' ' := by
    intro c inside
    rcases List.mem_append.mp inside with inside | inside
    · simp only [inner] at inside
      split at inside <;> simpa using inside
    · exact (List.mem_replicate.mp inside).2
  refine ⟨inner ++ indent depth,spaces,?_⟩
  have laid : inner ++ indent depth ++ t.text o.namespaces ∈ b.lines o.namespaces := by
    have own : indented inner (indent depth ++ t.text o.namespaces) ∈
        (b.body.map (Line.text o.namespaces)).map (indented inner) :=
      List.mem_map.mpr ⟨_,List.mem_map.mpr ⟨_,line,rfl⟩,rfl⟩
    rw [indentedShown formed] at own
    unfold CountBlock.lines blockLines
    simp only [List.mem_append,List.append_assoc]
    exact .inr (.inr (.inr (.inl own)))
  have added : inner ++ indent depth ++ t.text o.namespaces ∈ (counts.blocks.map
      (CountBlock.lines o.namespaces)).foldl addBlock (outer.toPattern.bodyLines o.namespaces) :=
    addedBlocks (.inr ⟨_,List.mem_map.mpr ⟨b,block,rfl⟩,laid⟩)
  simp only [Pattern.mainLines,List.mem_cons,List.mem_append]
  exact .inr (.inr (.inr (.inr (.inl added))))

theorem writtenIn {lines : List Line} {depth : Int} {t : Triple} (line : .triple depth t ∈ lines) :
    t ∈ writtenTriples lines := List.mem_filterMap.mpr ⟨_,line,rfl⟩

/-- Each triple line of a query was written for a triple of a pattern, under the joined names if it stands in a
count, and it denotes that triple just if the triple is settled. -/
theorem linesReadBackIff (legal : o.namespaces.Legal) (spelled : g.Spelled IriText)
    (written : g.queryText o = .ok query) :
    ∃ outer counts, g.parts o = .ok (outer,counts) ∧
      (∀ depth t, .triple depth t ∈ outer.toPattern.lines [] →
        t ∈ outer.records.keys ∧ ReadsBack o.namespaces query t) ∧
      ∀ b ∈ counts.blocks, ∃ node sub, BlockOrigin g o.namespaces (g.fullPrefixes o) outer b node sub ∧
        ∀ depth t, .triple depth t ∈ b.body →
          (∃ s ∈ sub.records.keys, s.named (joinedName (g.parentIn sub node) b.parent) = t) ∧
            ReadsBack o.namespaces query t := by
  obtain ⟨outer,counts,done,rfl⟩ := queryDeclares written
  obtain ⟨made,counted⟩ := partsDone done
  refine ⟨outer,counts,done,fun depth t line => ?_,fun b block => ?_⟩
  · have inside := writtenIn line
    have there : t ∈ outer.writes counts := List.mem_append_left _ inside
    obtain ⟨_,recorded,_⟩ := (Pattern.writtenLines _ _ _).mp inside
    exact ⟨Table.containsIff.mp recorded,
      readsBackOf legal spelled done there (fun _ => List.eq_of_mem_replicate) (bodyListed line)⟩
  · obtain ⟨node,sub,origin⟩ := blockOrigin counted block
    refine ⟨node,sub,origin,fun depth t line => ?_⟩
    have inside := writtenIn line
    have there : t ∈ outer.writes counts :=
      List.mem_append_right _ (List.mem_flatMap.mpr ⟨b,block,inside⟩)
    obtain ⟨margin,spaces,listed⟩ : ∃ margin, (∀ c ∈ margin, c = ' ') ∧
        margin ++ t.text o.namespaces ∈ outer.toPattern.mainLines o counts :=
      blockListed block (writesFormed spelled done t there) line
    obtain ⟨s,lacked,same⟩ := (originWritten origin t).mp inside
    rw [joiningNamed made,← origin.parent] at same
    exact ⟨⟨s,(memMissing.mp lacked).1,same⟩,readsBackOf legal spelled done there spaces listed⟩

def twoSpaces (second : String) : QueryOptions := labelled [⟨"ex","http://a.org/"⟩,⟨second,"http://b.org/"⟩]

theorem shortenedClassRead : ∃ query,
    (thingGraph "x" "http://a.org/Thing").queryText (twoSpaces "other") = .ok query ∧
    ∃ line ∈ query.splitOn '\n',
      readTriple (declaredIn query) line = some (typeTriple "x_root" "http://a.org/Thing") := by
  have legal : (twoSpaces "other").namespaces.Legal := by
    intro e member
    have letters : ∀ {c rest}, isLetter c = true → rest.all (fun d => isNameChar d || d == '.') = true →
        rest.getLast? ≠ some '.' → IsPrefix (c :: rest) := fun letter inside last =>
      .inr ⟨_,_,rfl,letter,List.all_eq_true.mp inside,last⟩
    simp only [twoSpaces,labelled,List.mem_cons,List.not_mem_nil,or_false] at member
    rcases member with rfl | rfl
    · exact ⟨letters (by decide) (by decide) (by decide),by decide +kernel⟩
    · exact ⟨letters (by decide) (by decide) (by decide),by decide +kernel⟩
  have spelled : (thingGraph "x" "http://a.org/Thing").Spelled IriText := by
    refine ⟨fun n member token inside => ?_,fun e member => nomatch member⟩
    cases List.mem_singleton.mp member
    cases List.mem_singleton.mp inside
    decide +kernel
  have evaluated : (((thingGraph "x" "http://a.org/Thing").parts (twoSpaces "other")).map fun parts =>
      (parts.1.toPattern.lines []).contains (.triple 0 (typeTriple "x_root" "http://a.org/Thing"))) = .ok true := by
    decide +kernel
  have compiled : (((thingGraph "x" "http://a.org/Thing").queryText (twoSpaces "other")).map fun _ => ()) =
      .ok () := by decide +kernel
  obtain ⟨query,written,_⟩ := mapOk compiled
  obtain ⟨outer,counts,done,body,_⟩ := linesReadBackIff legal spelled written
  rw [done] at evaluated
  have line := List.contains_iff_mem.mp (Except.ok.inj evaluated)
  obtain ⟨_,margin,_,listed,reads⟩ := body 0 _ line
  exact ⟨query,written,_,listed,reads.mpr (by decide +kernel)⟩

theorem repeatedPrefixMisread :
    (((thingGraph "x" "http://a.org/Thing").parts (twoSpaces "ex")).map fun parts =>
      writtenTriples (parts.1.toPattern.lines [])) = .ok [typeTriple "x_root" "http://a.org/Thing"] ∧
    (((thingGraph "x" "http://a.org/Thing").queryText (twoSpaces "ex")).map fun query =>
      (query.splitOn '\n').filterMap (readTriple (declaredIn query))) =
        .ok [typeTriple "x_root" "http://b.org/Thing"] := by
  decide +kernel

end PathQuery
