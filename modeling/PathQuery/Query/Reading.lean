import PathQuery.Text.Blank
import PathQuery.Text.Casing
import PathQuery.Text.Character
import PathQuery.Text.Letter
import PathQuery.Text.Line

/-! Facts read back from the text of a query, line by line, and changes made to the text. -/
namespace PathQuery.Query

def startsWith (start s : List Char) : Bool := start.isPrefixOf s

def occursIn (word : List Char) : List Char → Bool
  | [] => word.isEmpty
  | c :: rest => startsWith word (c :: rest) || occursIn word rest

def sameLetter (letter c : Char) : Bool :=
  -- Two further forms of the letter I count.
  c.toUpper == letter || (letter == 'I' && (c.toNat == 0x130 || c.toNat == 0x131))

def afterWord : List Char → List Char → Option (List Char)
  | [], s => some s
  | letter :: word, c :: s => if sameLetter letter c then afterWord word s else none
  | _ :: _, [] => none

def opensWithLimit (s : List Char) : Bool := match afterWord "LIMIT".toList s with
  | none => false
  | some rest =>
      let number := rest.dropWhile Text.isBlank
      let after := number.dropWhile Text.isDigit
      number.length < rest.length && after.length < number.length && !after.head?.any Text.isWordChar

def hasLimitFrom (inWord : Bool) : List Char → Bool
  | [] => false
  | c :: rest => (!inWord && opensWithLimit (c :: rest)) || hasLimitFrom (Text.isWordChar c) rest

def hasLimit (s : List Char) : Bool := hasLimitFrom false s

def isSelect (s : List Char) : Bool := occursIn "SELECT".toList (Text.upper s)

def lacksLimit (s : List Char) : Bool := isSelect s && !hasLimit s

def injectLimit (s : List Char) (limit : Int) : List Char :=
  let query := Text.trimEnd s
  if lacksLimit query then
    query ++ "\nLIMIT ".toList ++ (if limit < 0 then ['-'] else []) ++ Nat.toDigits 10 limit.natAbs
  else query

def isVariableStart (c : Char) : Bool :=
  -- Letters whose other case is ASCII count.
  c.isAlpha || c == '_' || c.toNat == 0x17F || c.toNat == 0x212A || c.toNat == 0x130 || c.toNat == 0x131

def lastVariable : List Char → Option (List Char)
  | [] => none
  | c :: rest => match lastVariable rest with
    | some name => some name
    | none =>
        if c == '?' && rest.head?.any isVariableStart then some (rest.takeWhile Text.isWordChar) else none

def isProjectionHead (line : List Char) : Bool := Text.upper (Text.trim line) == "SELECT DISTINCT".toList

def isBodyHead (line : List Char) : Bool := startsWith "WHERE".toList (Text.upper (Text.trim line))

def columnVariable (line : List Char) : Option (List Char) :=
  lastVariable ((Text.trim line).takeWhile (· != '#'))

def projectedVariables (s : List Char) : List (List Char) :=
  let columns := ((Text.splitLines s).dropWhile fun line => !isProjectionHead line).drop 1
  ((columns.takeWhile fun line => !isBodyHead line).filterMap columnVariable).eraseDups

def isTripleLine (line : List Char) : Bool :=
  startsWith ['.',' '] (Text.trimEnd line).reverse && !startsWith ['#'] (Text.trimStart line)

def tripleLineCount (s : List Char) : Nat := (Text.splitLines s).countP isTripleLine

def stripHeader (s : List Char) : List Char :=
  Text.joinLines ((Text.splitLines s).dropWhile (startsWith ['#']))

end PathQuery.Query
