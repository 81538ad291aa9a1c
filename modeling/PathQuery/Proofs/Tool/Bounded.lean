import PathQuery.Proofs.Journal.Accounting
import PathQuery.Proofs.Query.Header
import PathQuery.Proofs.Query.Unlimited

/-! The limit of a compile tool. It is the last line of each text that the tool returns, and nothing above it depends on
it. -/
namespace PathQuery
open Grammar Text

variable {g : SelectionGraph} {o : QueryOptions} {text : List Char}

theorem linesLimited (p : Pattern) (o : QueryOptions) (extras : Extras) (n : Nat) :
    p.queryLines { o with limit := some n } extras = p.queryLines { o with limit := none } extras ++ [limitClause n] := by
  simp [Pattern.queryLines,QueryOptions.endLines,limitClause]

theorem queryLimited (g : SelectionGraph) (o : QueryOptions) (n : Nat) :
    g.queryText { o with limit := some n } =
      (g.queryText { o with limit := none }).map (· ++ '\n' :: limitClause n) := by
  have parts : g.parts { o with limit := some n } = g.parts { o with limit := none } := rfl
  unfold SelectionGraph.queryText
  rw [parts]
  cases g.parts { o with limit := none } with
  | error fault => rfl
  | ok done =>
      have filled : done.1.toPattern.queryLines { o with limit := none } (done.2.extras o.namespaces) ≠ [] := by
        simp [Pattern.queryLines]
      refine congrArg Except.ok ?_
      rw [Pattern.query,linesLimited,joinAppend filled (List.cons_ne_nil _ _)]
      rfl

/-- Of a text that the check accepts, a limit at its end can be left out. -/
def LimitOptional (check : Check) : Prop := ∀ s n, check (s ++ '\n' :: limitClause n) = .ok () → check s = .ok ()

theorem validateLimitOptional : LimitOptional validate := fun s n accepted => ((clauseAppended s n).1.mp accepted).1

variable {check : Check}

theorem compileLimited (optional : LimitOptional check) {n : Nat}
    (compiled : g.compile check { o with limit := some n } = .ok text) :
    ∃ base, g.compile check { o with limit := none } = .ok base ∧ text = base ++ '\n' :: limitClause n := by
  obtain ⟨query,written,checked⟩ := bindOk.mp compiled
  obtain ⟨_,accepted,same⟩ := bindOk.mp checked
  rw [queryLimited] at written
  obtain ⟨base,plain,rfl⟩ := mapOk written
  -- It is the query with its limit that was checked; without one it is a query too, as nothing else reads the limit.
  have valid := optional base n accepted
  refine ⟨joinLines (g.headerLines (g.fullPrefixes o)) ++ '\n' :: base,?_,?_⟩
  · exact bindOk.mpr ⟨base,plain,bindOk.mpr ⟨(),valid,rfl⟩⟩
  · rw [List.append_assoc,List.cons_append]
    exact (Except.ok.inj same).symm

theorem clauseInjective {n m : Nat} (same : limitClause n = limitClause m) : n = m := by
  have read := congrArg (Nat.ofDigitChars 10 · 0) (List.append_cancel_left same)
  simpa only [Nat.ofDigitChars_ten_toDigits] using read

theorem clauseUnbroken (n : Nat) : Unbroken (limitClause n) :=
  unbrokenAppend (by decide) (wordUnbroken (digitsWord n))

theorem clauseSplit (base : List Char) (n : Nat) :
    splitLines (base ++ '\n' :: limitClause n) = splitLines (base ++ ['\n']) ++ [limitClause n] := by
  rw [splitEnded,splitLinesOfPlain (clauseUnbroken n) (by simp [limitClause])]

theorem closedLimitLines (base : List Char) : (∀ line ∈ splitLines (base ++ ['\n']), ¬ IsLimitLine line) ↔
    ∀ line ∈ splitLines base, ¬ IsLimitLine line := by
  rcases splitClosed base with same | more
  · rw [same]
  · rw [more,List.forall_mem_append]
    exact and_iff_left fun line member => List.mem_singleton.mp member ▸ nothingUnlimited.other

theorem optionsClamped {tool : CompileTool} (positive : 1 ≤ tool.maximum) (limit : Option Int) : ∃ n : Nat,
    tool.optionsFor limit = { tool.options with limit := some n } ∧ 1 ≤ n ∧
      ((n : Int) ≤ tool.maximum ↔ limit.isSome ∨ defaultLimit ≤ tool.maximum) := by
  have low : 0 < clampLimit limit defaultLimit tool.maximum := by
    cases limit with
    | none => exact show 0 < defaultLimit by decide
    | some n => simp only [clampLimit]; omega
  refine ⟨(clampLimit limit defaultLimit tool.maximum).toNat,?_,by omega,?_⟩
  · rw [CompileTool.optionsFor,if_pos low]
  · rw [Int.toNat_of_nonneg (Int.le_of_lt low)]
    cases limit with
    | none => simp [clampLimit]
    | some n =>
        simp only [clampLimit,Option.isSome_some,true_or,iff_true]
        omega

variable {c : ToolCall} {limit : Option Int} {request : Request}

theorem requestClamped (given : c.limit = Value.ofOption .integer limit) (asked : c.request = .ok request) :
    request.options = c.tool.optionsFor (limit.or (c.tool.options.limit.map Int.ofNat)) := by
  have own : c.tool.limitOf c.limit = .ok (limit.or (c.tool.options.limit.map Int.ofNat)) := by
    rw [given]
    cases limit <;> rfl
  have requested : ∀ {g}, c.tool.requestFor g c.limit = .ok request →
      request.options = c.tool.optionsFor (limit.or (c.tool.options.limit.map Int.ofNat)) := by
    intro g asked
    unfold CompileTool.requestFor at asked
    rw [own] at asked
    cases asked
    rfl
  unfold ToolCall.request at asked
  split at asked
  · obtain ⟨_,_,asked⟩ := bindOk.mp asked
    exact requested asked
  · exact requested asked

def CompileTool.Bounds (tool : CompileTool) (base text : List Char) : Prop :=
  ∃ n : Nat, (splitLines text).getLast? = some (limitClause n) ∧ 1 ≤ n ∧ (n : Int) ≤ tool.maximum ∧
    (∀ line ∈ (splitLines text).dropLast, ¬ IsLimitLine line) ∧ text = base ++ '\n' :: limitClause n

theorem boundsIff {tool : CompileTool} {base : List Char} {n : Nat} (positive : 1 ≤ n) :
    tool.Bounds base (base ++ '\n' :: limitClause n) ↔
      (n : Int) ≤ tool.maximum ∧ ∀ line ∈ splitLines base, ¬ IsLimitLine line := by
  simp only [CompileTool.Bounds,clauseSplit,List.getLast?_concat,List.dropLast_concat,closedLimitLines]
  constructor
  · rintro ⟨m,last,_,within,free,_⟩
    obtain rfl := clauseInjective (Option.some.inj last)
    exact ⟨within,free⟩
  · rintro ⟨within,free⟩
    exact ⟨n,rfl,positive,within,free,rfl⟩

/-- Each text of a tool ends in a limit of one or more, below what is compiled without a limit. It is bounded just if a
limit is given, or the default is within the bounds, and no other line reads as a limit; and none does if nothing that
is written out has a break. -/
theorem toolBoundedIff (optional : LimitOptional check) {text : List Char} (positive : 1 ≤ c.tool.maximum)
    (given : c.limit = Value.ofOption .integer limit) (asked : c.request = .ok request)
    (ran : request.run check = .ok text) : ∃ base, ∃ n : Nat,
      request.selection.compile check { c.tool.options with limit := none } = .ok base ∧
      text = base ++ '\n' :: limitClause n ∧ 1 ≤ n ∧
      (c.tool.Bounds base text ↔
        (limit.isSome ∨ c.tool.options.limit.isSome ∨ defaultLimit ≤ c.tool.maximum) ∧
          ∀ line ∈ splitLines base, ¬ IsLimitLine line) ∧
      (request.Lined → ∀ line ∈ splitLines base, ¬ IsLimitLine line) := by
  obtain ⟨n,clamped,low,within⟩ := optionsClamped positive (limit.or (c.tool.options.limit.map Int.ofNat))
  have options := (requestClamped given asked).trans clamped
  unfold Request.run at ran
  rw [options] at ran
  obtain ⟨base,compiled,rfl⟩ := compileLimited optional ran
  refine ⟨base,n,compiled,rfl,low,?_,fun lined => ?_⟩
  · rw [boundsIff low,within]
    simp [or_assoc]
  · have plain : request.selection.compile check { request.options with limit := none } = .ok base := by
      rw [options]
      exact compiled
    exact compiledUnlimited lined plain

def titledCall (central : Option String) (maximum : Int) (limit : Option Int) : ToolCall :=
  ⟨⟨PathModel.ofList [],.standard,maximum⟩,.inr (titledGraph central),Value.ofOption .integer limit,⟨"",0⟩,⟨"",0⟩⟩

theorem highLimitBounded : ∃ request base text, (titledCall (some "x") 50 (some 70)).request = .ok request ∧
    request.run validate = .ok text ∧ (titledCall (some "x") 50 (some 70)).tool.Bounds base text := by
  have asked : (titledCall (some "x") 50 (some 70)).request =
      .ok ⟨titledGraph (some "x"),{ QueryOptions.standard with limit := some 50 }⟩ := rfl
  have given : (titledCall (some "x") 50 (some 70)).limit = Value.ofOption .integer (some 70) := rfl
  have evaluated : (Request.run ⟨titledGraph (some "x"),{ QueryOptions.standard with limit := some 50 }⟩ validate).map
      (fun _ => ()) = .ok () := by decide +kernel
  obtain ⟨text,ran,_⟩ := mapOk evaluated
  obtain ⟨base,_,_,_,_,exactly,free⟩ := toolBoundedIff validateLimitOptional (by decide) given asked ran
  refine ⟨_,base,text,asked,ran,exactly.mpr ⟨.inl rfl,free ?_⟩⟩
  exact ⟨by decide +kernel,by decide +kernel,by decide +kernel,by decide +kernel,by decide +kernel,by decide +kernel⟩

theorem unboundedTexts :
    (∃ request text, (titledCall none 50 none).request = .ok request ∧ request.run validate = .ok text ∧
      ∀ base, ¬ (titledCall none 50 none).tool.Bounds base text) ∧
    ∃ request text, (titledCall (some "a\nLIMIT 5") highestLimit none).request = .ok request ∧
      request.run validate = .ok text ∧ ∀ base, ¬ (titledCall (some "a\nLIMIT 5") highestLimit none).tool.Bounds base text := by
  constructor
  · have last : (Request.run ⟨titledGraph none,{ QueryOptions.standard with limit := some 100 }⟩ validate).map
        (fun text => (splitLines text).getLast?) = .ok (some (limitClause 100)) := by decide +kernel
    obtain ⟨text,ran,ends⟩ := mapOk last
    refine ⟨_,text,rfl,ran,?_⟩
    rintro base ⟨n,same,_,within,_⟩
    obtain rfl := clauseInjective (Option.some.inj (ends.symm.trans same))
    exact absurd within (by decide)
  · have second : (Request.run ⟨titledGraph (some "a\nLIMIT 5"),{ QueryOptions.standard with limit := some 100 }⟩
        validate).map (fun text => decide (∃ line ∈ (splitLines text).dropLast, IsLimitLine line)) = .ok true := by decide +kernel
    obtain ⟨text,ran,more⟩ := mapOk second
    refine ⟨_,text,rfl,ran,?_⟩
    rintro base ⟨_,_,_,_,free,_⟩
    obtain ⟨line,above,limited⟩ := of_decide_eq_true more
    exact free line above limited

end PathQuery
