import PathQuery.Proofs.Grammar.Trimming
import PathQuery.Query.Reading

/-! A limit that is put in where the words of a text name none. The words tell whether the outermost query has a limit
only if no comment and no inner query has one, and if the limit is on one line. A limit can follow an offset, but neither
another limit nor values. Of the parser no more is taken for granted than how it reads what stands at the end of a query. -/
namespace PathQuery.Query
open Grammar

inductive Clause where
  | limit
  | offset
  | values
  deriving DecidableEq, Repr

def clauseOrders : List (List Clause) :=
  let modifiers : List (List Clause) := [[],[.limit],[.offset],[.limit,.offset],[.offset,.limit]]
  modifiers ++ modifiers.map (· ++ [.values])

/-- Of a text that is a select query, the clauses at the end of the outermost query, as a parser finds them: in a known
order, a limit on a line of its own behind what stands there already, and the last of them, which ends in a number or a
brace, apart from any blank behind it. -/
structure ReadsClauses (clauses : List Char → Option (List Clause)) : Prop where
  ordered : ∀ s found, clauses s = some found → found ∈ clauseOrders
  onward : ∀ s n, clauses (s ++ '\n' :: limitClause n) =
    ((clauses s).map (· ++ [.limit])).filter clauseOrders.contains
  closed : ∀ s c found, Text.isBlank c = true → clauses (s ++ [c]) = some found → found ≠ [] → clauses s = some found

def Bounded (clauses : List Char → Option (List Clause)) (s : List Char) : Prop :=
  ∃ found, clauses s = some found ∧ .limit ∈ found

theorem injectedText (s : List Char) (n : Nat) : injectLimit s n =
    if lacksLimit (Text.trimEnd s) then Text.trimEnd s ++ '\n' :: limitClause n else Text.trimEnd s := by
  simp [injectLimit,limitClause,show ¬ (n : Int) < 0 by omega]

variable {clauses : List Char → Option (List Clause)} (reads : ReadsClauses clauses)

include reads

theorem boundedTrimmed {s : List Char} (bounded : Bounded clauses s) : Bounded clauses (Text.trimEnd s) := by
  obtain ⟨found,read,limit⟩ := bounded
  obtain ⟨gap,blanks,split⟩ := trimEndSplit s
  rw [split] at read
  clear split
  induction gap using List.reverseRecOn with
  | nil => exact ⟨found,by simpa using read,limit⟩
  | append_singleton gap c ih =>
      rw [← List.append_assoc] at read
      have shorter := reads.closed _ c found (blanks c (by simp)) read (List.ne_nil_of_mem limit)
      exact ih shorter fun d member => blanks d (List.mem_append_left _ member)

theorem appendedIff (s : List Char) (n : Nat) : Bounded clauses (s ++ '\n' :: limitClause n) ↔
    ∃ found, clauses s = some found ∧ .limit ∉ found ∧ .values ∉ found := by
  have last : ∀ order ∈ clauseOrders, order.getLast? = some .limit →
      .limit ∉ order.dropLast ∧ .values ∉ order.dropLast := by decide
  have free : ∀ order ∈ clauseOrders, .limit ∉ order → .values ∉ order → order ++ [.limit] ∈ clauseOrders := by decide
  rw [Bounded,reads.onward]
  cases read : clauses s with
  | none => simp
  | some found =>
      simp only [Option.map_some,Option.filter_some,List.contains_iff_mem,Option.ite_none_right_eq_some,
        Option.some.injEq]
      constructor
      · rintro ⟨_,⟨listed,rfl⟩,-⟩
        have apart := last _ listed (by simp)
        rw [List.dropLast_concat] at apart
        exact ⟨found,rfl,apart⟩
      · rintro ⟨_,rfl,limit,values⟩
        exact ⟨_,⟨free found (reads.ordered s found read) limit values,rfl⟩,by simp⟩

/-- A query comes out bounded, and as it is if it was, just if it is still a query without the blanks at its end and its
words name a limit where its outermost part has one; and where they name none, no values stand at its end. -/
theorem limitInjectedIff (s : List Char) (n : Nat) :
    (Bounded clauses (injectLimit s n) ∧ (Bounded clauses s → injectLimit s n = Text.trimEnd s)) ↔
      ∃ found, clauses (Text.trimEnd s) = some found ∧
        (lacksLimit (Text.trimEnd s) = true ↔ .limit ∉ found) ∧
        (lacksLimit (Text.trimEnd s) = true → .values ∉ found) := by
  rw [injectedText]
  cases lacks : lacksLimit (Text.trimEnd s) with
  | true =>
      simp only [if_true,appendedIff reads,true_iff,forall_const]
      refine ⟨And.left,fun ⟨found,read,limit,values⟩ => ⟨⟨found,read,limit,values⟩,fun bounded => ?_⟩⟩
      obtain ⟨other,again,there⟩ := boundedTrimmed reads bounded
      cases read.symm.trans again
      exact absurd there limit
  | false =>
      simp only [Bool.false_eq_true,if_false,false_iff,not_not,false_implies,and_true,implies_true]
      exact Iff.rfl

omit reads

def fragmentClauses (s : List Char) : Option (List Clause) :=
  if validate s = .ok () then some (if IsLimited s then [.limit] else []) else none

theorem fragmentReads : ReadsClauses fragmentClauses where
  ordered := by
    intro s found read
    unfold fragmentClauses at read
    split at read
    · cases read
      split <;> decide
    · nomatch read
  onward := by
    intro s n
    obtain ⟨accepted,bounded⟩ := clauseAppended s n
    simp only [fragmentClauses,accepted,bounded]
    by_cases valid : validate s = .ok () <;> by_cases limited : IsLimited s <;> simp [valid,limited] <;> decide
  closed := by
    intro s c found blank read filled
    unfold fragmentClauses at read
    split at read
    · cases read
      have limited : IsLimited (s ++ [c]) := Decidable.byContradiction fun free => filled (if_neg free)
      have before := limitedCut blank limited
      rw [fragmentClauses,if_pos (limitedAccepted before),if_pos before,if_pos limited]
    · nomatch read

theorem spacedLimitInjected : Bounded fragmentClauses (injectLimit "SELECT * WHERE { ?s ?p ?o }\n\n".toList 10) := by
  have free : fragmentClauses (Text.trimEnd "SELECT * WHERE { ?s ?p ?o }\n\n".toList) = some [] := by decide +kernel
  exact ((limitInjectedIff fragmentReads _ 10).mpr ⟨[],free,by decide +kernel,by simp⟩).1

theorem limitMisread :
    (∀ s ∈ ["# LIMIT 5\nSELECT * WHERE { ?s ?p ?o }".toList,"SELECT * WHERE { { SELECT * WHERE { ?s ?p ?o } LIMIT 5 } }".toList],
      validate s = .ok () ∧ injectLimit s 10 = s ∧ ¬ IsLimited s) ∧
    ∀ s ∈ ["SELECT * WHERE { ?s ?p ?o }\nLIMIT # 5\n5".toList],
      validate s = .ok () ∧ IsLimited s ∧ validate (injectLimit s 10) = .error .invalidQuery := by
  decide +kernel

end PathQuery.Query
