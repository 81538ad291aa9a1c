import PathQuery.Grammar.Escape
import PathQuery.Grammar.Progress

/-! A fragment of the grammar of queries, written to stand in for a query parser: select queries over triples, paths,
optional scopes, inner queries and counts, with groups, an order and a limit. There are no literals, filters, unions,
offsets or values in it. What is still to come is a stack of goals, and the first choice that the text opens with decides
what becomes of the goal on top. No choice is ever taken back. -/
namespace PathQuery.Grammar

inductive Goal where
  | prologue
  | one (lexeme : Lexeme)
  | maybe (lexeme : Lexeme)
  | columns
  | moreColumns
  | expression
  | arguments
  | moreArguments
  | counted
  | naming
  | body
  | patterns
  | verb
  | path
  | pathPart
  | morePath
  | afterObject
  | afterSemicolon
  | afterPattern
  | groupBy
  | groupKey
  | moreGroupKeys
  | orderBy
  | orderKey
  | moreOrderKeys
  | limit
  deriving DecidableEq, Repr

abbrev Choice := Lexeme × List Goal

def mark (c : Char) : Goal := .one (.mark c)

def selectGoals : List Goal :=
  [.maybe (.keyword .DISTINCT),.columns,.maybe (.keyword .WHERE),mark '\x7b',.body,.groupBy,.orderBy,.limit]

def aliasGoals : List Goal := [.expression,.one (.keyword .AS),.one .var,mark ')']

def callChoices : List Choice :=
  [(.keyword .COALESCE,[mark '(',.arguments]),
    (.keyword .COUNT,[mark '(',.maybe (.keyword .DISTINCT),.counted,mark ')'])]

def expressionChoices : List Choice :=
  [(.var,[]),(.number,[]),(.mark '(',[.expression,mark ')']),(.name,[])] ++ callChoices

def columnChoices : List Choice :=
  [(.var,[.moreColumns]),(.mark '(',aliasGoals ++ [.moreColumns])]

def patternChoices : List Choice :=
  [(.mark '\x7d',[]),(.mark '\x7b',[.body,.afterPattern]),
    (.keyword .OPTIONAL,[mark '\x7b',.body,.afterPattern])]

def followedBy (more : List Goal) (choices : List Choice) : List Choice :=
  choices.map fun choice => (choice.1,choice.2 ++ more)

def objectGoals : List Goal := [.one .term,.afterObject]

def tripleChoice : Choice := (.term,.verb :: objectGoals)

def pathPartChoices : List Choice := [(.step,[]),(.mark '(',[.path,.one .pathEnd])]

def pathChoices : List Choice :=
  followedBy [.morePath] (pathPartChoices ++ [(.mark '^',[.pathPart])])

def verbChoices : List Choice := (.var,[]) :: pathChoices

def endChoices : List Choice := (.mark '.',[.patterns]) :: patternChoices

def groupChoices : List Choice :=
  followedBy [.moreGroupKeys] ([(.var,[]),(.mark '(',[.expression,.naming,mark ')'])] ++ callChoices)

def orderChoices : List Choice :=
  followedBy [.moreOrderKeys]
    ([(.var,[]),(.mark '(',[.expression,mark ')']),(.keyword .ASC,[mark '(',.expression,mark ')']),
      (.keyword .DESC,[mark '(',.expression,mark ')'])] ++ callChoices)

def Goal.choices : Goal → List Choice
  -- The first ones come first: a name may look like a keyword up to its colon.
  | prologue => [(.keyword .PREFIX,[.one .label,.one .iri,.prologue])]
  | one lexeme => [(lexeme,[])]
  | maybe lexeme => [(lexeme,[])]
  | columns => (.mark '*',[]) :: columnChoices
  | moreColumns => columnChoices
  | expression => expressionChoices
  | arguments => (.mark ')',[]) :: followedBy [.moreArguments] expressionChoices
  | moreArguments => [(.mark ')',[]),(.mark ',',[.expression,.moreArguments])]
  | counted => (.mark '*',[]) :: expressionChoices
  | naming => [(.keyword .AS,[.one .var])]
  | body => tripleChoice :: (.keyword .SELECT,selectGoals ++ [mark '\x7d']) :: patternChoices
  | patterns => tripleChoice :: patternChoices
  | verb => verbChoices
  | path => pathChoices
  | pathPart => pathPartChoices
  | morePath => [(.mark '/',[.path]),(.mark '|',[.path])]
  | afterObject => [(.mark ',',objectGoals),(.mark ';',[.afterSemicolon])] ++ endChoices
  | afterSemicolon => followedBy objectGoals verbChoices ++ (.mark ';',[.afterSemicolon]) :: endChoices
  | afterPattern => (.mark '.',[.patterns]) :: tripleChoice :: patternChoices
  | groupBy => [(.keyword .GROUP,[.one (.keyword .BY),.groupKey])]
  | groupKey => groupChoices
  | moreGroupKeys => groupChoices
  | orderBy => [(.keyword .ORDER,[.one (.keyword .BY),.orderKey])]
  | orderKey => orderChoices
  | moreOrderKeys => orderChoices
  | limit => [(.keyword .LIMIT,[.one .digits])]

def Goal.isOptional : Goal → Bool
  | prologue => true
  | maybe _ => true
  | moreColumns => true
  | morePath => true
  | naming => true
  | groupBy => true
  | moreGroupKeys => true
  | orderBy => true
  | moreOrderKeys => true
  | limit => true
  | _ => false

def Goal.take (goal : Goal) (s : List Char) : Option (List Goal × List Char) :=
  goal.choices.findSome? fun (lexeme,more) => (lexeme.read s).map (more,·)

def advance (s : List Char) : List Goal → Option (List Goal × List Char)
  | [] => none
  | goal :: goals => match goal.take s with
    | some (more,rest) => some (more ++ goals,rest)
    | none => if goal.isOptional then advance s goals else none

theorem takeShortens {goal : Goal} {s rest : List Char} {more : List Goal}
    (h : goal.take s = some (more,rest)) : rest.length < s.length := by
  obtain ⟨⟨lexeme,goals⟩,_,taken⟩ := List.exists_of_findSome?_eq_some h
  obtain ⟨left,read,same⟩ := Option.map_eq_some_iff.mp taken
  cases same
  exact lexeme.readProgresses s rest read

theorem advanceShortens {s rest : List Char} {goals next : List Goal}
    (h : advance s goals = some (next,rest)) : rest.length < s.length := by
  induction goals with
  | nil => contradiction
  | cons goal goals ih =>
      unfold advance at h
      split at h
      · next taken => cases h; exact takeShortens taken
      · split at h
        · exact ih h
        · contradiction

def fulfils (goals : List Goal) (s : List Char) : Bool :=
  if (skip s).isEmpty then goals.all Goal.isOptional
  else match _h : advance (skip s) goals with
    | some (next,rest) => fulfils next rest
    | none => false
termination_by s.length
decreasing_by exact Nat.lt_of_lt_of_le (advanceShortens _h) (skipLength s)

def queryGoals : List Goal := .prologue :: .one (.keyword .SELECT) :: selectGoals

def isQuery (s : List Char) : Bool := fulfils queryGoals s

def validate : List Char → Except Fault Unit := checked isQuery

end PathQuery.Grammar
