import PathQuery.Proofs.Count.Source
import PathQuery.Proofs.Query.Idle

/-! The header that stands above a query. The query is checked before the header is put on, and the header
quotes the id of the central node as it is: the text that is returned is the one that was checked just if that
id stays within its comment. -/
namespace PathQuery
open Grammar Text

structure Silent (s : List Char) : Prop where
  whole : codeOf s = []
  read : ∃ text, unescape s = .ok text ∧ codeOf text = []

structure SameCode (s t : List Char) : Prop where
  whole : codeOf s = codeOf t
  read : ∃ a b, unescape s = .ok a ∧ unescape t = .ok b ∧ codeOf a = codeOf b

theorem codeComment {line : List Char} (whole : '\n' ∉ line) : codeOf ('#' :: line) = [] :=
  (codeLine (by simp [whole])).mpr (skipComment whole)

theorem codeOpening {opening : List Char} (line : '\n' ∉ opening) (s : List Char) :
    codeOf ('#' :: (opening ++ s)) = codeOf ('#' :: s) := by
  by_cases broken : '\n' ∈ s
  · obtain ⟨front,back,rfl,apart⟩ := List.eq_append_cons_of_mem broken
    have first := codeBreak ('#' :: (opening ++ front)) back
    have second := codeBreak ('#' :: front) back
    rw [codeComment (by simp [line,apart])] at first
    rw [codeComment apart] at second
    simpa using first.trans second.symm
  · rw [codeComment broken,codeComment (by simp [line,broken])]

theorem silentIdle {line : List Char} (idle : IsIdle line) : Silent line := by
  obtain ⟨text,read,skipped⟩ := idle.read
  exact ⟨(codeSkipped line).mpr idle.skipped,text,read,(codeSkipped text).mpr skipped⟩

theorem silentBreak (s t : List Char) : Silent (s ++ '\n' :: t) ↔ Silent s ∧ Silent t := by
  constructor
  · rintro ⟨whole,text,read,silent⟩
    rw [unescapeEnds cutsBreak] at read
    obtain ⟨before,first,read⟩ := bindOk.mp read
    obtain ⟨after,second,same⟩ := bindOk.mp read
    cases same
    rw [codeBreak,List.append_eq_nil_iff] at whole silent
    exact ⟨⟨whole.1,before,first,silent.1⟩,whole.2,after,second,silent.2⟩
  · rintro ⟨⟨whole,before,first,silent⟩,more,after,second,later⟩
    refine ⟨by rw [codeBreak,whole,more]; rfl,before ++ '\n' :: after,?_,by rw [codeBreak,silent,later]; rfl⟩
    rw [unescapeEnds cutsBreak,first,second]
    rfl

theorem silentOpening {opening : List Char} (line : '\n' ∉ opening) (plain : '\\' ∉ opening) (s : List Char) :
    Silent ('#' :: (opening ++ ' ' :: s)) ↔ Silent ('#' :: s) := by
  have whole := fun text => codeOpening (show '\n' ∉ opening ++ [' '] by simp [line]) text
  have shown := unescapeCons (c := '#') (by decide)
  have inside : unescape (opening ++ ' ' :: s) = (unescape s).map fun text => opening ++ ' ' :: text := by
    rw [unescapeEnds cutsSpace,unescapeOfPlain plain]
    cases unescape s <;> rfl
  simp only [List.append_assoc,List.singleton_append] at whole
  constructor
  · rintro ⟨code,text,read,silent⟩
    rw [shown,inside] at read
    obtain ⟨_,part,rfl⟩ := mapOk read
    obtain ⟨text,given,rfl⟩ := mapOk part
    rw [whole] at code silent
    exact ⟨code,'#' :: text,by rw [shown,given]; rfl,silent⟩
  · rintro ⟨code,text,read,silent⟩
    rw [shown] at read
    obtain ⟨text,given,rfl⟩ := mapOk read
    rw [← whole] at code silent
    exact ⟨code,'#' :: (opening ++ ' ' :: text),by rw [shown,inside,given]; rfl,silent⟩

variable {accepts : List Char → Bool}

theorem checkedPast (skips : SkipsIdle accepts) {head : List Char} (silent : Silent head) (s : List Char) :
    checked accepts (head ++ '\n' :: s) = checked accepts s := by
  obtain ⟨text,read,code⟩ := silent.read
  unfold checked
  rw [unescapeEnds cutsBreak,read]
  cases unescape s with
  | error fault => rfl
  | ok rest => simp only [bind,Except.bind,acceptsBelow skips code]

theorem unchangedBelow (skips : SkipsIdle accepts) {query : List Char} (accepted : checked accepts query = .ok ())
    (head : List Char) :
    checked accepts (head ++ '\n' :: query) = .ok () ∧ SameCode (head ++ '\n' :: query) query ↔ Silent head := by
  obtain ⟨below,read,_⟩ := bindOk.mp accepted
  constructor
  · rintro ⟨-,whole,a,b,first,second,code⟩
    rw [unescapeEnds cutsBreak,read] at first
    obtain ⟨text,shown,same⟩ := bindOk.mp first
    cases same
    cases read.symm.trans second
    rw [codeBreak,List.append_left_eq_self] at whole code
    exact ⟨whole,text,shown,code⟩
  · intro silent
    obtain ⟨text,shown,code⟩ := silent.read
    refine ⟨(checkedPast skips silent query).trans accepted,by rw [codeBreak,silent.whole]; rfl,
      text ++ '\n' :: below,below,?_,read,by rw [codeBreak,code]; rfl⟩
    rw [unescapeEnds cutsBreak,shown,read]
    rfl

theorem sizeIdle (n : Nat) : IsIdle ("# Selected graph nodes: ".toList ++ Nat.toDigits 10 n) := by
  have digits : ∀ c ∈ Nat.toDigits 10 n, c.isDigit = true :=
    fun c member => Nat.isDigit_of_mem_toDigits (by decide) (by decide) member
  have lacks : ∀ c : Char, c.isDigit = false → c ∉ Nat.toDigits 10 n := fun c other member =>
    Bool.noConfusion (other.symm.trans (digits c member))
  exact idleComment (oneLineSpaced (oneLinePlain (s := " Selected graph nodes:".toList) (by simp) (by simp))
    (oneLinePlain (lacks '\n' rfl) (lacks '\\' rfl)))

theorem noteIdle {note : List Char} (opens : note.head? = some '#') (line : '\n' ∉ note) (plain : '\\' ∉ note) :
    IsIdle note := by
  obtain ⟨text,rfl⟩ := List.head?_eq_some_iff.mp opens
  exact idleComment (oneLinePlain (fun member => line (List.mem_cons_of_mem _ member))
    fun member => plain (List.mem_cons_of_mem _ member))

namespace SelectionGraph

variable (g : SelectionGraph) (full : Bool)

theorem headerSilent : Silent (joinLines (g.headerLines full)) ↔ ∀ id ∈ g.central, Silent ('#' :: id.toList) := by
  let name := ((g.central.filter (· ≠ "")).getD "(none)").toList
  have title : Silent "# Auto-generated from currently selected graph nodes".toList :=
    silentIdle (noteIdle rfl (by simp) (by simp))
  have size : Silent (if g.size = 0 then "# No selected graph nodes found".toList
      else "# Selected graph nodes: ".toList ++ Nat.toDigits 10 g.size) := by
    split
    · exact silentIdle (noteIdle rfl (by simp) (by simp))
    · exact silentIdle (sizeIdle _)
  have prefixes : Silent (if full then
        "# Full path_array prefix constraints are included per selected node.".toList
      else "# Shared path_array prefixes are deduplicated in WHERE patterns.".toList) := by
    split <;> exact silentIdle (noteIdle rfl (by simp) (by simp))
  have central : Silent ("# Central node: ".toList ++ name) ↔ Silent ('#' :: name) :=
    silentOpening (show '\n' ∉ " Central node:".toList by simp) (by simp) name
  simp only [headerLines,joinLines,silentBreak,title,size,prefixes,true_and,and_true]
  refine central.trans ?_
  have standIn : Silent ('#' :: "(none)".toList) := silentIdle (noteIdle rfl (by simp) (by simp))
  cases given : g.central with
  | none =>
      simp only [name,given]
      exact iff_of_true standIn (by simp)
  | some id =>
      by_cases blank : id = ""
      · subst blank
        have bare : Silent ['#'] := silentIdle (noteIdle rfl (by simp) (by simp))
        simp only [name,given]
        exact iff_of_true standIn (by simpa using bare)
      · simp [name,given,Option.filter,blank]

end SelectionGraph

/-- What is returned is the query that was checked, below its header, just if the id of the central node has no
line of code, whatever parser tells the queries from other texts, as long as it passes over comments. -/
theorem returnedAsCheckedIff (skips : SkipsIdle accepts) {g : SelectionGraph} {o : QueryOptions} {text : List Char}
    (compiled : g.compile (checked accepts) o = .ok text) :
    ∃ query, g.queryText o = .ok query ∧ checked accepts query = .ok () ∧
      (checked accepts text = .ok () ∧ SameCode text query ↔ ∀ id ∈ g.central, Silent ('#' :: id.toList)) := by
  obtain ⟨query,written,done⟩ := bindOk.mp compiled
  obtain ⟨_,accepted,same⟩ := bindOk.mp done
  cases same
  refine ⟨query,written,accepted,?_⟩
  rw [unchangedBelow skips accepted,g.headerSilent]

def titledGraph (central : Option String) : SelectionGraph :=
  ⟨[⟨"x","x",some ⟨"x","",false,.field,"x",none,["urn:A"]⟩⟩],[],central,[]⟩

theorem plainTitleReturned : ∃ text query, (titledGraph (some "x")).compile validate .standard = .ok text ∧
    (titledGraph (some "x")).queryText .standard = .ok query ∧ validate text = .ok () ∧ SameCode text query := by
  have evaluated : (((titledGraph (some "x")).compile validate .standard).map fun _ => ()) = .ok () := by decide +kernel
  obtain ⟨text,compiled,_⟩ := mapOk evaluated
  obtain ⟨query,written,_,exactly⟩ := returnedAsCheckedIff isQuerySkips compiled
  have silent : Silent ('#' :: "x".toList) := silentIdle (noteIdle rfl (by simp) (by simp))
  obtain ⟨accepted,same⟩ := exactly.mpr (by simpa [titledGraph] using silent)
  exact ⟨text,query,compiled,written,accepted,same⟩

theorem brokenTitleReturned : ((titledGraph (some "a\nb")).compile validate .standard).map validate =
    .ok (.error .invalidQuery) := by
  decide +kernel

end PathQuery
