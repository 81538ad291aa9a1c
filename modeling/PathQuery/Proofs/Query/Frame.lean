import PathQuery.Proofs.Query.Block

/-! What stands around the body of a query, as the grammar reads it: declarations, columns, order and
limit. -/
namespace PathQuery
open Grammar

theorem fulfilsDeclarations {entries : List NamespaceEntry} (labels : ∀ e ∈ entries, IsLabel e.label.toList)
    (iris : ∀ e ∈ entries, IriText e.iri) (goals : List Goal) (s : List Char) :
    fulfils (.prologue :: goals)
      (below ((entries.map NamespaceTable.declaration).map (·.toList)) ++ s) =
      fulfils (.prologue :: goals) s := by
  induction entries with
  | nil => rfl
  | cons e rest ih =>
      have text : below (((e :: rest).map NamespaceTable.declaration).map (·.toList)) ++ s =
          '\n' :: ("PREFIX ".toList ++ (e.label.toList ++ (": <".toList ++ (e.iri.toList ++ '>' ::
            (below ((rest.map NamespaceTable.declaration).map (·.toList)) ++ s))))) := by
        simp only [List.map_cons,belowCons,NamespaceTable.declaration,String.toList_append,List.append_assoc,
          List.cons_append]
        rfl
      rw [text,fulfilsSpace rfl,fulfilsDeclaration (labels e (by simp)) (iris e (by simp))]
      exact ih (fun e member => labels e (List.mem_cons_of_mem _ member))
        fun e member => iris e (List.mem_cons_of_mem _ member)

def Projection.Plain (p : Projection) : Prop :=
  IsWord p.name.toList ∧ ∀ source ∈ p.source, IsWord source.toList

theorem originWord {p : Projection} (plain : p.Plain) {source : String} (given : p.origin = some source) :
    IsWord source.toList := by
  obtain ⟨s,there,same⟩ := Option.map_eq_some_iff.mp given
  split at same
  · exact same ▸ plain.1
  · exact same ▸ plain.2 s there

theorem countColumnPlain {g : SelectionGraph} {namespaces : NamespaceTable} {zero full : Bool}
    {outer : SelectPattern} (words : outer.selected.Words) {closures : CountClosures} {counts : Counts}
    (counted : Counts.ofGraph g outer closures namespaces zero full = .ok counts) :
    ∀ column ∈ counts.projections, column.Plain := by
  obtain ⟨tallies,rfl,sources⟩ := talliesSource counted
  intro column member
  obtain ⟨t,there,source⟩ := columnOfTallies member
  obtain ⟨_,_,_,tally⟩ := sources t there
  have value := (tallyWords words tally).1
  cases source with
  | raw taken name source =>
      exact ⟨name ▸ nameAppend (countAliasWord value taken) (by decide),by simp [source]⟩
  | coalesced taken name source =>
      refine ⟨name ▸ countAliasWord value taken,?_⟩
      intro raw given
      rw [source] at given
      cases Option.some.inj given
      exact nameAppend (countAliasWord value taken) (by decide)

theorem nodeColumnPlain {g : SelectionGraph} {p : Pattern} (sourced : p.Sourced g) :
    ∀ column ∈ p.projections, column.Plain := by
  intro column member
  obtain ⟨word,own⟩ := sourced.columns column member
  exact ⟨word,by simp [own]⟩

theorem fulfilsCentralMark (central : Bool) (goals : List Goal) {s : List Char} (done : AtLineEnd s) :
    fulfils goals ((if central then "  # <<<<< central node".toList else []) ++ s) = fulfils goals s := by
  cases central with
  | false => rfl
  | true =>
      have text : (if true then "  # <<<<< central node".toList else []) ++ s =
          ' ' :: ' ' :: ('#' :: " <<<<< central node".toList ++ s) := rfl
      rw [text,fulfilsSpace rfl,fulfilsSpace rfl,fulfilsComment (by decide) done]

theorem centralMarkStops (central : Bool) {s : List Char} (done : AtLineEnd s) :
    Stops isVarChar ((if central then "  # <<<<< central node".toList else []) ++ s) := by
  cases central with
  | false => exact stopsAtLineEnd (by decide) done
  | true => exact stopsCons (by decide) _

theorem fulfilsColumnLine {p : Projection} (plain : p.Plain) {goal : Goal} (column : IsColumnGoal goal)
    (goals : List Goal) {s : List Char} (done : AtLineEnd s) :
    fulfils (goal :: goals) ('\n' :: (p.text ++ s)) = fulfils (.moreColumns :: goals) s := by
  rw [fulfilsSpace rfl,Projection.text,List.append_assoc,List.append_assoc,fulfilsMargin (indentSpaces p.depth)]
  unfold Projection.expression
  cases given : p.origin with
  | none =>
      rw [fulfilsVarColumn column plain.1 (centralMarkStops p.central done),fulfilsCentralMark p.central _ done]
  | some source =>
      have coalesced := fulfilsCoalesceColumn (originWord plain given) plain.1 column goals
        ((if p.central then "  # <<<<< central node".toList else []) ++ s)
      simp only [List.append_assoc,List.cons_append,List.nil_append]
      exact coalesced.trans (fulfilsCentralMark p.central _ done)

theorem fulfilsColumnLines {columns : List Projection} (plain : ∀ p ∈ columns, p.Plain)
    (goals : List Goal) {s : List Char} (done : AtLineEnd s) :
    fulfils (.moreColumns :: goals) (below (columns.map Projection.text) ++ s) =
      fulfils (.moreColumns :: goals) s := by
  induction columns with
  | nil => rfl
  | cons p rest ih =>
      rw [List.map_cons,belowCons,List.cons_append,List.cons_append,List.append_assoc,
        fulfilsColumnLine (plain p (by simp)) (.inr rfl) _ (belowAtLineEnd _ done)]
      exact ih fun p member => plain p (List.mem_cons_of_mem _ member)

theorem fulfilsColumns {columns : List Projection} (plain : ∀ p ∈ columns, p.Plain) (goals : List Goal)
    (s : List Char) :
    fulfils (.columns :: .maybe (.keyword .WHERE) :: mark '\x7b' :: goals)
      (below (Pattern.selectLines columns) ++ '\n' :: ("WHERE \x7b".toList ++ s)) = fulfils goals s := by
  have lineEnd : AtLineEnd ('\n' :: ("WHERE \x7b".toList ++ s)) := fun c head => by cases head; rfl
  cases columns with
  | nil =>
      have star : fulfils (.columns :: .maybe (.keyword .WHERE) :: mark '\x7b' :: goals)
          (below (Pattern.selectLines []) ++ '\n' :: ("WHERE \x7b".toList ++ s)) =
          fulfils (.maybe (.keyword .WHERE) :: mark '\x7b' :: goals) ('\n' :: ("WHERE \x7b".toList ++ s)) :=
        fulfilsOfAdvance rfl
      have keyword : fulfils (.maybe (.keyword .WHERE) :: mark '\x7b' :: goals)
          ('\n' :: ("WHERE \x7b".toList ++ s)) = fulfils (mark '\x7b' :: goals) (" \x7b".toList ++ s) :=
        fulfilsOfAdvance rfl
      rw [star,keyword]
      exact fulfilsOfAdvance rfl
  | cons p rest =>
      have lines : Pattern.selectLines (p :: rest) = p.text :: rest.map Projection.text := rfl
      rw [lines,belowCons,List.cons_append,List.cons_append,List.append_assoc,
        fulfilsColumnLine (plain p (by simp)) (.inl rfl) _ (belowAtLineEnd _ lineEnd),
        fulfilsColumnLines (fun p member => plain p (List.mem_cons_of_mem _ member)) _ lineEnd,
        fulfilsSpace rfl,fulfilsWhere]

theorem fulfilsLimitLine (limit : Option Nat) {order : Goal} (before : order = .orderBy ∨ order = .moreOrderKeys) :
    fulfils [order,.limit] (below (limit.toList.map fun n => "LIMIT ".toList ++ Nat.toDigits 10 n)) = true := by
  cases limit with
  | none => rcases before with rfl | rfl <;> exact fulfilsNil _
  | some n =>
      have text : below ((some n).toList.map fun n => "LIMIT ".toList ++ Nat.toDigits 10 n) =
          '\n' :: ("LIMIT ".toList ++ (Nat.toDigits 10 n ++ [])) := by
        simp only [Option.toList_some,List.map_cons,List.map_nil,below,List.flatMap_cons,List.flatMap_nil,
          List.append_nil]
      have unordered : fulfils [order,.limit] ("LIMIT ".toList ++ (Nat.toDigits 10 n ++ [])) =
          fulfils [.limit] ("LIMIT ".toList ++ (Nat.toDigits 10 n ++ [])) := by
        rcases before with rfl | rfl <;> exact fulfilsLeft rfl rfl rfl (by simp) _
      have nothing : AtLineEnd [] := by
        intro c head
        contradiction
      rw [text,fulfilsSpace rfl,unordered,fulfilsLimit n [] nothing]
      exact fulfilsNil _

theorem fulfilsEnd {o : QueryOptions} (word : ∀ name ∈ o.orderVariable, IsWord name.toList) :
    fulfils [.groupBy,.orderBy,.limit] (below o.endLines) = true := by
  unfold QueryOptions.endLines
  cases given : o.orderVariable with
  | none =>
      have ungrouped : fulfils [.groupBy,.orderBy,.limit]
          (below (o.limit.toList.map fun n => "LIMIT ".toList ++ Nat.toDigits 10 n)) =
          fulfils [.orderBy,.limit] (below (o.limit.toList.map fun n => "LIMIT ".toList ++ Nat.toDigits 10 n)) := by
        cases o.limit with
        | none => rw [show below _ = [] from rfl,fulfilsNil,fulfilsNil]; rfl
        | some n =>
            rw [Option.toList_some,List.map_cons,belowCons,List.cons_append,fulfilsSpace rfl,fulfilsSpace rfl]
            exact fulfilsLeft rfl rfl rfl (by simp) _
      rw [Option.toList_none,List.map_nil,List.nil_append,ungrouped]
      exact fulfilsLimitLine o.limit (.inl rfl)
  | some name =>
      rw [Option.toList_some,List.map_cons,List.map_nil,List.singleton_append,belowCons]
      simp only [List.append_assoc,List.cons_append,List.nil_append]
      rw [fulfilsSpace rfl]
      refine Eq.trans (fulfilsOrderBy o.orderDirection (word name given) [.limit] _) ?_
      exact fulfilsLimitLine o.limit (.inr rfl)

end PathQuery
