import PathQuery.Grammar.Character

/-! The smallest parts of a query, and where each of them ends in a text that opens with it. What may
stand next is known before it is read, so there is no way to tell the parts of a text apart on their own:
a question mark opens a variable, or belongs to the predicate that it touches. -/
namespace PathQuery.Grammar

abbrev Reader := List Char → Option (List Char)

def skipFrom (inComment : Bool) : List Char → List Char
  | [] => []
  | c :: rest =>
      if inComment then skipFrom (c != '\n') rest
      else if isSpace c then skipFrom false rest
      else if c == '#' then skipFrom true rest
      else c :: rest

def skip (s : List Char) : List Char := skipFrom false s

inductive Keyword where
  | PREFIX
  | SELECT
  | DISTINCT
  | WHERE
  | OPTIONAL
  | COALESCE
  | COUNT
  | AS
  | GROUP
  | ORDER
  | BY
  | ASC
  | DESC
  | LIMIT
  deriving DecidableEq, Repr

def Keyword.capitals : Keyword → String
  | PREFIX => "PREFIX"
  | SELECT => "SELECT"
  | DISTINCT => "DISTINCT"
  | WHERE => "WHERE"
  | OPTIONAL => "OPTIONAL"
  | COALESCE => "COALESCE"
  | COUNT => "COUNT"
  | AS => "AS"
  | GROUP => "GROUP"
  | ORDER => "ORDER"
  | BY => "BY"
  | ASC => "ASC"
  | DESC => "DESC"
  | LIMIT => "LIMIT"

def readMark (c : Char) : Reader
  | d :: rest => if d = c then some rest else none
  | [] => none

def readLetters : List Char → Reader
  | [],s => some s
  | capital :: more,c :: s => if isFormOf capital c then readLetters more s else none
  | _ :: _,[] => none

def isApart (rest : List Char) : Bool := !rest.head?.any isKeywordChar

def readKeyword (word : Keyword) : Reader := fun s =>
  (readLetters word.capitals.toList s).filter isApart

def readIri : Reader := fun s => do readMark '>' ((← readMark '<' s).dropWhile isIriChar)

def readVar : Reader
  | mark :: c :: rest =>
      if (mark == '?' || mark == '$') && isVarStart c then some (rest.dropWhile isVarChar) else none
  | _ => none

def afterRun (isInner : Char → Bool) (s : List Char) : List Char :=
  s.drop ((s.takeWhile fun c => isInner c || c == '.').reverse.dropWhile (· == '.')).length

def readLabel : Reader
  | c :: rest => readMark ':' (if isLetter c then afterRun isNameChar rest else c :: rest)
  | [] => none

def afterLocal : List Char → List Char
  | c :: rest => if isVarStart c || c == ':' then afterRun isLocalChar rest else c :: rest
  | [] => []

def readName : Reader := fun s => (readIri s).or ((readLabel s).map afterLocal)

def readTerm : Reader := fun s => (readVar s).or (readName s)

def afterRepetition : List Char → List Char
  | c :: rest => if c == '?' || c == '*' || c == '+' then rest else c :: rest
  | [] => []

def readStep : Reader := fun s => ((readName s).or (readMark 'a' s)).map afterRepetition

def readPathEnd : Reader := fun s => (readMark ')' s).map afterRepetition

def readDigits : Reader
  | c :: rest => if c.isDigit then some (rest.dropWhile Char.isDigit) else none
  | [] => none

def readFraction : Reader := fun s => do readDigits (← readMark '.' (s.dropWhile Char.isDigit))

def afterPoint (s : List Char) : List Char := (readMark '.' s).getD s

def afterSign (s : List Char) : List Char := ((readMark '+' s).or (readMark '-' s)).getD s

def readExponent : Reader := fun s => do
  readDigits (afterSign (← (readMark 'e' s).or (readMark 'E' s)))

def readDouble : Reader := fun s => do readExponent (← (readFraction s).or ((readDigits s).map afterPoint))

def readNumber : Reader := fun s =>
  ((readDouble s).or ((readFraction s).or (readDigits s))).filter isApart

inductive Lexeme where
  | keyword (word : Keyword)
  | mark (c : Char)
  | label
  | iri
  | name
  | var
  | term
  | step
  | pathEnd
  | digits
  | number
  deriving DecidableEq, Repr

def Lexeme.read : Lexeme → Reader
  | keyword word => readKeyword word
  | mark c => readMark c
  | label => readLabel
  | iri => readIri
  | name => readName
  | var => readVar
  | term => readTerm
  | step => readStep
  | pathEnd => readPathEnd
  | digits => readDigits
  | number => readNumber

end PathQuery.Grammar
