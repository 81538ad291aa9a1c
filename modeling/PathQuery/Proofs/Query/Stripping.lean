import Mathlib.Data.List.TakeWhile
import PathQuery.Grammar.Goal
import PathQuery.Proofs.Query.Prefixes
import PathQuery.Proofs.Text.Lines
import PathQuery.Query.Compile
import PathQuery.Query.Reading

/-! The header taken off a text again. The reader cuts at breaks of every kind and puts line feeds back, and it
takes lines for the header as long as they are comments: the query is left as it was just if its own breaks are
line feeds and no line of the header is without a mark. -/
namespace PathQuery
open Query Text

def Marked (s : List Char) : Prop := ∀ line ∈ splitLines s, startsWith ['#'] line = true

instance (s : List Char) : Decidable (Marked s) :=
  List.decidableBAll (fun line => startsWith ['#'] line = true) (splitLines s)

theorem markedJoined {lines : List (List Char)} (filled : lines ≠ []) :
    Marked (joinLines lines ++ ['\n']) ↔ ∀ line ∈ lines, Marked (line ++ ['\n']) := by
  fun_induction joinLines lines with
  | case1 => contradiction
  | case2 line => simp
  | case3 line next lines ih =>
      rw [List.forall_mem_cons,← ih (List.cons_ne_nil _ _),List.append_assoc,List.cons_append]
      unfold Marked
      rw [splitEnded line,List.forall_mem_append]

theorem splitBelow {front : List Char} (whole : Unbroken front) (s : List Char) :
    (splitLines (front ++ s)).tail = (splitLines s).tail := by
  by_cases empty : front = []
  · subst empty
    rfl
  · rw [splitFront whole empty]
    rfl

theorem markedBelow (s : List Char) :
    Marked ('#' :: s) ↔ ∀ line ∈ (splitLines s).tail, startsWith ['#'] line = true := by
  unfold Marked
  rw [splitCons (by decide)]
  cases splitLines s with
  | nil => simp [startsWith]
  | cons line lines => simp [startsWith]

theorem markedOpening {opening : List Char} (whole : Unbroken opening) (s : List Char) :
    Marked ('#' :: (opening ++ s)) ↔ Marked ('#' :: s) := by
  rw [markedBelow,markedBelow,splitBelow whole]

theorem markedNote {note : List Char} (opens : note.head? = some '#') (whole : Unbroken note) :
    Marked (note ++ ['\n']) := by
  obtain ⟨text,rfl⟩ := List.head?_eq_some_iff.mp opens
  intro line member
  rw [splitLine whole] at member
  rw [List.mem_singleton.mp member]
  rfl

theorem markedText {note : List Char} (whole : Unbroken ('#' :: note)) :
    Marked ((String.ofList ('#' :: note)).toList ++ ['\n']) := by
  rw [String.toList_ofList]
  exact markedNote rfl whole

theorem droppedBelow {query : List Char}
    (opens : ∀ line ∈ (splitLines query).head?, startsWith ['#'] line = false) (above : List Char) :
    stripHeader (above ++ '\n' :: query) =
      joinLines ((splitLines (above ++ ['\n'])).dropWhile (startsWith ['#']) ++ splitLines query) := by
  rw [stripHeader,splitEnded,List.dropWhile_append]
  split
  · next none =>
    rw [List.isEmpty_iff.mp none,List.nil_append]
    cases split : splitLines query with
    | nil => rfl
    | cons line lines => 
        rw [split] at opens
        rw [List.dropWhile_cons_of_neg (by simp [opens line rfl])]
  · rfl

theorem strippedBelow {query : List Char} (filled : query ≠ [])
    (opens : ∀ line ∈ (splitLines query).head?, startsWith ['#'] line = false)
    (ends : ∀ c ∈ query.getLast?, isBreak c = false) (above : List Char) :
    stripHeader (above ++ '\n' :: query) = query ↔ Marked (above ++ ['\n']) ∧ PlainBreaks query := by
  rw [droppedBelow opens]
  generalize left : (splitLines (above ++ ['\n'])).dropWhile (startsWith ['#']) = unmarked
  have marked : Marked (above ++ ['\n']) ↔ unmarked = [] := by
    rw [← left,List.dropWhile_eq_nil_iff]
    rfl
  rw [marked]
  constructor
  · intro same
    have breaks : PlainBreaks query := by
      rw [← same]
      refine joinedBreaks fun line there => ?_
      rcases List.mem_append.mp there with header | own
      · exact splitUnbroken ((List.dropWhile_sublist _).mem (left ▸ header))
      · exact splitUnbroken own
    refine ⟨?_,breaks⟩
    -- Lines of the header that are left would make the text longer than the query is.
    by_contra some
    rw [joinAppend some (mt splitNone filled),joinedAgain breaks ends] at same
    have longer : (joinLines unmarked).length + (query.length + 1) = query.length := by
      simpa using congrArg List.length same
    omega
  · rintro ⟨rfl,breaks⟩
    exact joinedAgain breaks ends

namespace SelectionGraph

variable (g : SelectionGraph) (full : Bool)

theorem headerMarked : Marked (joinLines (g.headerLines full) ++ ['\n']) ↔
    ∀ id ∈ g.central, Marked ('#' :: (id.toList ++ ['\n'])) := by
  let name := ((g.central.filter (· ≠ "")).getD "(none)").toList
  have title : Marked ("# Auto-generated from currently selected graph nodes".toList ++ ['\n']) :=
    markedText (by decide)
  have size : Marked ((if g.size = 0 then "# No selected graph nodes found".toList
      else "# Selected graph nodes: ".toList ++ Nat.toDigits 10 g.size) ++ ['\n']) := by
    split
    · exact markedText (by decide)
    · exact markedNote rfl (unbrokenAppend (unbrokenText (by decide)) (wordUnbroken (digitsWord _)))
  have prefixes : Marked ((if full then
        "# Full path_array prefix constraints are included per selected node.".toList
      else "# Shared path_array prefixes are deduplicated in WHERE patterns.".toList) ++ ['\n']) := by
    split <;> exact markedText (by decide)
  have central : Marked ("# Central node: ".toList ++ name ++ ['\n']) ↔ Marked ('#' :: (name ++ ['\n'])) := by
    rw [List.append_assoc]
    exact @markedOpening " Central node: ".toList (unbrokenText (by decide)) _
  rw [markedJoined (show g.headerLines full ≠ [] from List.cons_ne_nil _ _)]
  simp only [headerLines,List.forall_mem_cons,title,size,prefixes,List.not_mem_nil,false_imp_iff,implies_true,
    true_and,and_true]
  refine central.trans ?_
  cases given : g.central with
  | none =>
      simp only [name,given]
      exact iff_of_true (by decide +kernel) (by simp)
  | some id =>
      by_cases blank : id = ""
      · subst blank
        simp only [name,given]
        exact iff_of_true (by decide +kernel) (by simp; decide +kernel)
      · simp [name,given,Option.filter,blank]

end SelectionGraph

theorem joinedEnds (front : List (List Char)) {back : List (List Char)} (filled : back ≠ [])
    (ends : ∀ line ∈ back, ∃ c, line.getLast? = some c ∧ isBreak c = false) :
    ∀ c ∈ (joinLines (front ++ back)).getLast?, isBreak c = false := by
  obtain ⟨d,last,plain⟩ := ends _ (List.getLast_mem filled)
  have shown : back.getLast filled ≠ [] := by
    intro none
    simp [none] at last
  have whole : (joinLines (front ++ back)).getLast? = some d := by
    rw [← List.dropLast_append_getLast filled,← List.append_assoc]
    generalize front ++ back.dropLast = before
    cases before with
    | nil => exact last
    | cons line rest =>
        rw [joinAppend (List.cons_ne_nil _ _) (List.cons_ne_nil _ _),joinLines,
          List.getLast?_append_of_ne_nil _ (List.cons_ne_nil _ _),List.getLast?_cons_of_ne_nil shown,last]
  rw [whole]
  rintro c ⟨⟩
  exact plain

variable {g : SelectionGraph} {o : QueryOptions} {query : List Char}

theorem endLineEnds {line : List Char} (member : line ∈ "\x7d".toList :: o.endLines) :
    ∃ c, line.getLast? = some c ∧ isBreak c = false := by
  simp only [QueryOptions.endLines,List.mem_cons,List.mem_append,List.mem_map] at member
  rcases member with rfl | ⟨name,_,rfl⟩ | ⟨n,_,rfl⟩
  · exact ⟨'\x7d',rfl,by decide⟩
  · exact ⟨')',List.getLast?_concat,by decide⟩
  · have digits := digitsWord n
    rw [List.getLast?_append_of_ne_nil _ digits.1,List.getLast?_eq_some_getLast digits.1]
    exact ⟨_,rfl,wordUnbroken digits _ (List.getLast_mem _)⟩

theorem queryEnds (written : g.queryText o = .ok query) : ∀ c ∈ query.getLast?, isBreak c = false := by
  obtain ⟨outer,counts,_,rfl⟩ := queryDeclares written
  have ends := joinedEnds
    ((outer.declared counts o.namespaces).map (fun e => (NamespaceTable.declaration e).toList) ++
      [] :: "SELECT DISTINCT".toList :: (Pattern.selectLines (outer.projections ++ counts.projections) ++
        "WHERE \x7b".toList :: (counts.blocks.map (CountBlock.lines o.namespaces)).foldl addBlock
          (outer.toPattern.bodyLines o.namespaces)))
    (List.cons_ne_nil _ _) fun line => endLineEnds (o := o)
  simpa only [Pattern.mainLines,List.append_assoc,List.cons_append] using ends

theorem queryOpens (written : g.queryText o = .ok query) : ∃ c rest, query = c :: rest ∧ c ≠ '#' := by
  obtain ⟨outer,counts,_,rfl⟩ := queryDeclares written
  cases outer.declared counts o.namespaces with
  | nil => exact ⟨'\n',_,rfl,by decide⟩
  | cons e rest =>
      have below : rest.map (fun e => (NamespaceTable.declaration e).toList) ++
          outer.toPattern.mainLines o counts ≠ [] := List.append_ne_nil_of_right_ne_nil _ (List.cons_ne_nil _ _)
      rw [List.map_cons,List.cons_append,joinCons _ below,NamespaceTable.declaration,String.append_assoc,
        String.append_assoc,String.append_assoc,String.toList_append,List.append_assoc]
      exact ⟨'P',_,rfl,by decide⟩

/-- The query that was checked is what is left of a text without its header just if the id of the central node
has only comments behind its first line, and the query no line break but line feeds. -/
theorem strippedAsCheckedIff {check : Check} {text : List Char} (compiled : g.compile check o = .ok text) :
    ∃ query, g.queryText o = .ok query ∧ check query = .ok () ∧
      (stripHeader text = query ↔
        (∀ id ∈ g.central, Marked ('#' :: (id.toList ++ ['\n']))) ∧ PlainBreaks query) := by
  obtain ⟨query,written,done⟩ := bindOk.mp compiled
  obtain ⟨_,accepted,same⟩ := bindOk.mp done
  cases same
  refine ⟨query,written,accepted,?_⟩
  obtain ⟨c,rest,rfl,other⟩ := queryOpens written
  have opens : ∀ line ∈ (splitLines (c :: rest)).head?, startsWith ['#'] line = false := by
    intro line first
    rcases splitOpening first with rfl | head
    · rfl
    · obtain ⟨text,rfl⟩ := List.head?_eq_some_iff.mp head
      simp [startsWith,List.isPrefixOf,other.symm]
  rw [strippedBelow (List.cons_ne_nil _ _) opens (queryEnds written),g.headerMarked]

theorem markedTitleStripped : ∃ text query,
    ((thingGraph "x" "urn:A").withCentral "a\n#b").compile Grammar.validate .standard = .ok text ∧
    ((thingGraph "x" "urn:A").withCentral "a\n#b").queryText .standard = .ok query ∧ stripHeader text = query := by
  have evaluated : (((thingGraph "x" "urn:A").withCentral "a\n#b").compile Grammar.validate .standard).map
      (fun _ => ()) = .ok () := by decide +kernel
  have breaks : (((thingGraph "x" "urn:A").withCentral "a\n#b").queryText .standard).map
      (fun query => decide (PlainBreaks query)) = .ok true := by decide +kernel
  obtain ⟨text,compiled,_⟩ := mapOk evaluated
  obtain ⟨query,written,_,exactly⟩ := strippedAsCheckedIff compiled
  rw [written] at breaks
  have title : ∀ id ∈ ((thingGraph "x" "urn:A").withCentral "a\n#b").central,
      Marked ('#' :: (id.toList ++ ['\n'])) := by
    rintro id ⟨⟩
    decide +kernel
  exact ⟨text,query,compiled,written,exactly.mpr ⟨title,of_decide_eq_true (Except.ok.inj breaks)⟩⟩

theorem separatedIriTorn :
    ((thingGraph "x" "urn:a\u2028b").compile Grammar.validate .standard).map stripHeader ≠
      (thingGraph "x" "urn:a\u2028b").queryText .standard ∧
    ((thingGraph "x" "urn:a\u2028b").compile Grammar.validate .standard).map stripHeader = .ok (joinLines
      (["","SELECT DISTINCT","  ?x_root  # <<<<< central node","WHERE \x7b","","# >>>> Central node: Thing <<<<",
        "  ?x_root a <urn:a","b> .","\x7d"].map String.toList)) ∧
    (thingGraph "x" "urn:a\u2028b").queryText .standard = .ok (joinLines
      (["","SELECT DISTINCT","  ?x_root  # <<<<< central node","WHERE \x7b","","# >>>> Central node: Thing <<<<",
        "  ?x_root a <urn:a\u2028b> .","\x7d"].map String.toList)) := by
  decide +kernel

end PathQuery
