import PathQuery.Decimal.Integer

/-! Command-line words: options with a long and a short name, a document, and what neither is. -/
namespace PathQuery.Command

inductive Arity where
  | help
  | flag
  | text
  | number
  deriving DecidableEq, Repr

def Arity.takesValue : Arity → Bool
  | text => true
  | number => true
  | _ => false

def Arity.accepts (value : List Char) : Arity → Bool
  | number => (Decimal.readInteger value).isSome
  | _ => true

structure OptionSpec where
  long : String
  short : Option Char
  arity : Arity
  deriving DecidableEq, Repr

inductive Reading where
  | plain
  | option (spec : OptionSpec) (value : Option (List Char))
  | cluster (letters : List Char)
  | unknown
  | ambiguous
  deriving DecidableEq, Repr

def withoutLineFeed (s : List Char) : List Char := if s.getLast? = some '\n' then s.dropLast else s

def isUnsigned (s : List Char) : Bool :=
  match s.dropWhile Text.isDigit with
  | [] => !s.isEmpty
  | '.' :: fraction => !fraction.isEmpty && fraction.all Text.isDigit
  | _ => false

def isNegativeNumber : List Char → Bool
  | '-' :: digits => isUnsigned (withoutLineFeed digits)
  | _ => false

def splitValue (word : List Char) : List Char × Option (List Char) :=
  match word.dropWhile (· != '=') with
  | [] => (word,none)
  | _ :: value => (word.takeWhile (· != '='),some value)

def longNamed (specs : List OptionSpec) (start : List Char) : List OptionSpec :=
  specs.filter fun spec => start.isPrefixOf spec.long.toList

def shortNamed (specs : List OptionSpec) (letter : Char) : Option OptionSpec :=
  specs.find? fun spec => spec.short = some letter

def readOther (word : List Char) : Reading :=
  if isNegativeNumber word || word.contains ' ' then .plain else .unknown

def readLong (specs : List OptionSpec) (word : List Char) : Reading :=
  let (name,value) := splitValue word
  match specs.find? fun spec => spec.long.toList = name with
  | some spec => .option spec value
  | none => match longNamed specs name with
    | [] => readOther word
    | [spec] => .option spec value
    | _ => .ambiguous

def readShort (specs : List OptionSpec) (word : List Char) : Reading :=
  match word with
  | letter :: _ => match shortNamed specs letter with
    | some _ => .cluster word
    | none => readOther ('-' :: word)
  | [] => .plain

def read (specs : List OptionSpec) (word : List Char) : Reading :=
  match word with
  | '-' :: '-' :: rest => readLong specs ('-' :: '-' :: rest)
  | '-' :: rest => readShort specs rest
  | _ => .plain

def dashes : List Char := ['-','-']

structure Given where
  option : OptionSpec
  value : List Char
  deriving DecidableEq, Repr

inductive Parsed where
  | help
  | wrong
  | words (given : List Given) (plain : List (List Char)) (unknown : Bool)
  deriving DecidableEq, Repr

inductive ClusterEnd where
  | plain
  | value (spec : OptionSpec) (own : Option (List Char))
  deriving DecidableEq, Repr

def readLetters (specs : List OptionSpec) : List Char → Option (List OptionSpec × ClusterEnd)
  | [] => some ([],.plain)
  | letter :: rest => match shortNamed specs letter with
    | none => none
    | some spec =>
        if spec.arity.takesValue then some ([],.value spec (if rest.isEmpty then none else some rest))
        else (readLetters specs rest).map fun (flags,last) => (spec :: flags,last)

def readCluster (specs : List OptionSpec) : List Char → Option (List OptionSpec × ClusterEnd)
  | [letter,'='] => match (shortNamed specs letter).filter fun spec => spec.arity.takesValue with
    | some spec => some ([],.value spec (some []))
    | none => none
  | letter :: '=' :: rest => readLetters specs (letter :: rest)
  | letters => readLetters specs letters

def Parsed.addGiven (given : List Given) : Parsed → Parsed
  | words more plain unknown => words (given ++ more) plain unknown
  | parsed => parsed

def Parsed.addPlain (word : List Char) : Parsed → Parsed
  | words given plain unknown => words given (word :: plain) unknown
  | parsed => parsed

def Parsed.addUnknown : Parsed → Parsed
  | words given plain _ => words given plain true
  | parsed => parsed

def withFlags (flags : List OptionSpec) (rest : Parsed) : Parsed :=
  if flags.any fun spec => spec.arity = .help then .help
  else rest.addGiven (flags.map fun spec => ⟨spec,[]⟩)

def isValue (specs : List OptionSpec) (word : List Char) : Bool :=
  word != dashes && read specs word == .plain

def withValue (spec : OptionSpec) (value : List Char) (rest : Parsed) : Parsed :=
  if spec.arity.accepts value then rest.addGiven [⟨spec,value⟩] else .wrong

def parseFrom (specs : List OptionSpec) (pending : Option OptionSpec) : List (List Char) → Parsed
  | [] => if pending.isSome then .wrong else .words [] [] false
  | word :: rest => match pending with
    | some spec =>
        if isValue specs word then withValue spec word (parseFrom specs none rest) else .wrong
    | none =>
        if word = dashes then .words [] rest rest.isEmpty
        else match read specs word with
          | .plain =>
              if rest = [dashes] then .words [] [word] false else (parseFrom specs none rest).addPlain word
          | .unknown => (parseFrom specs none rest).addUnknown
          | .ambiguous => .wrong
          | .option spec value => match spec.arity.takesValue,value with
            | true,some v => withValue spec v (parseFrom specs none rest)
            | true,none => parseFrom specs (some spec) rest
            | false,some _ => .wrong
            | false,none => withFlags [spec] (parseFrom specs none rest)
          | .cluster letters => match readCluster specs letters with
            | none => .wrong
            | some (flags,.plain) => withFlags flags (parseFrom specs none rest)
            | some (flags,.value spec (some v)) =>
                withFlags flags (withValue spec v (parseFrom specs none rest))
            | some (flags,.value spec none) =>
                if rest.head?.any (isValue specs) then withFlags flags (parseFrom specs (some spec) rest)
                else .wrong

def hasAmbiguous (specs : List OptionSpec) (words : List (List Char)) : Bool :=
  (words.takeWhile (· ≠ dashes)).any fun word => read specs word = .ambiguous

def parse (specs : List OptionSpec) (words : List (List Char)) : Parsed :=
  if hasAmbiguous specs words then .wrong else parseFrom specs none words

end PathQuery.Command
