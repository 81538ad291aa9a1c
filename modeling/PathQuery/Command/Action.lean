import PathQuery.Command.Arguments
import PathQuery.Command.Placement
import PathQuery.Outline
import PathQuery.Tool
import PathQuery.Value.Writer

/-! What a command line asks for, and the answer to it. -/
namespace PathQuery.Command

inductive Action where
  | compile (document : String) (limit : Option Int) (bare : Bool) (log : Option String)
  | vars (document : String)
  | outline (document : String) (allOptional referencesOptional : Bool)
  deriving DecidableEq, Repr

inductive Invocation where
  | usage (code : Nat)
  | run (action : Action)
  deriving DecidableEq, Repr

def helpOption : OptionSpec := ⟨"--help",some 'h',.help⟩

def limitOption : OptionSpec := ⟨"--limit",some 'l',.number⟩

def noHeaderOption : OptionSpec := ⟨"--no-header",none,.flag⟩

def logOption : OptionSpec := ⟨"--log",none,.text⟩

def allOptionalOption : OptionSpec := ⟨"--all-optional",none,.flag⟩

def referencesOptionalOption : OptionSpec := ⟨"--references-optional",none,.flag⟩

def verboseOption : OptionSpec := ⟨"--verbose",some 'v',.flag⟩

def leadingOptions : List OptionSpec := [helpOption,verboseOption]

inductive Verb where
  | compile
  | vars
  | outline
  deriving DecidableEq, Repr

def Verb.ofWord? (word : List Char) : Option Verb :=
  if word = "compile".toList then some .compile
  else if word = "vars".toList then some .vars
  else if word = "ast".toList then some .outline
  else none

def Verb.options : Verb → List OptionSpec
  | compile => [helpOption,limitOption,noHeaderOption,logOption]
  | vars => [helpOption]
  | outline => [helpOption,allOptionalOption,referencesOptionalOption]

def isGiven (given : List Given) (spec : OptionSpec) : Bool := given.any fun g => g.option = spec

def valueOf (given : List Given) (spec : OptionSpec) : Option (List Char) :=
  (given.reverse.find? fun g => g.option = spec).map (·.value)

def Verb.action (verb : Verb) (given : List Given) (document : String) : Action := match verb with
  | compile => .compile document ((valueOf given limitOption).bind Decimal.readInteger)
      (isGiven given noHeaderOption)
      (((valueOf given logOption).filter (· ≠ [])).map String.ofList)
  | vars => .vars document
  | outline => .outline document (isGiven given allOptionalOption) (isGiven given referencesOptionalOption)

def Verb.invoke (verb : Verb) (words : List (List Char)) : Invocation :=
  match parse verb.options words with
  | .help => .usage 0
  | .words given [document] false => .run (verb.action given (String.ofList document))
  | _ => .usage 2

def invokeWith (unknown : Bool) (word : List Char) (rest : List (List Char)) : Invocation :=
  match Verb.ofWord? word with
  | none => .usage 2
  | some verb => match verb.invoke rest with
    | .usage code => .usage code
    | .run action => if unknown then .usage 2 else .run action

def invokeFrom (unknown : Bool) : List (List Char) → Invocation
  | [] => .usage (if unknown then 2 else 1)
  | word :: rest =>
      if word = dashes then .usage 2
      else match read leadingOptions word with
        | .plain => invokeWith unknown word rest
        | .unknown => invokeFrom true rest
        | .ambiguous => .usage 2
        | .option spec value =>
            if value.isSome then .usage 2
            else if spec.arity = .help then .usage 0
            else invokeFrom unknown rest
        | .cluster letters => match readCluster leadingOptions letters with
          | none => .usage 2
          | some (flags,_) =>
              if flags.any fun spec => spec.arity = .help then .usage 0 else invokeFrom unknown rest

def invocation (words : List String) : Invocation :=
  let words := words.map (·.toList)
  if hasAmbiguous leadingOptions words then .usage 2 else invokeFrom false words

namespace Action

def document : Action → String
  | compile document _ _ _ => document
  | vars document => document
  | outline document _ _ => document

def log : Action → Option String
  | compile _ _ _ log => log
  | _ => none

def limit : Action → Option Int
  | compile _ limit _ _ => limit
  | _ => none

def request (a : Action) (d : SelectionDocument) : Except Fault Request :=
  CompileTool.requestFor ⟨d.model,d.options,highestLimit⟩ d.selection (Value.ofOption .integer a.limit)

def showOutline (d : SelectionDocument) (allOptional referencesOptional : Bool) : String :=
  (Outline.ofGraph d.selection ⟨d.explicit,allOptional,referencesOptional⟩).toValue.toBlock ++ "\n"

def showQuery (a : Action) (text : List Char) : String := match a with
  | compile _ _ bare _ => String.ofList ((if bare then Query.stripHeader text else text) ++ ['\n'])
  | _ => String.ofList ((Query.projectedVariables text).flatMap (· ++ ['\n']))

def output (a : Action) (d : SelectionDocument) (result : Except Fault (List Char)) : Except Fault String :=
  match a with
  | outline _ allOptional referencesOptional => .ok (showOutline d allOptional referencesOptional)
  | _ => do .ok (a.showQuery (← result))

def result (a : Action) (check : Check) (d : SelectionDocument) : Except Fault (List Char) := do
  (← a.request d).run check

def checkLog (a : Action) (placement : Placement) : Except Fault Unit :=
  match a.log.bind placement.fault? with
  | some fault => .error fault
  | none => .ok ()

def answer (a : Action) (check : Check) (entry : Option FileEntry) (placement : Placement) : Except Fault String := do
  let d ← SelectionDocument.load a.document entry
  a.checkLog placement
  a.output d (a.result check d)

end Action

structure Times where
  opened : Moment
  began : Moment
  ended : Moment
  closed : Moment

def Action.events (a : Action) (d : SelectionDocument) (runId : String) (times : Times)
    (result : Except Fault (List Char)) : List Event :=
  let journal := Journal.start runId times.opened []
  let journal := match a.request d with
    | .ok request => request.note journal times.began times.ended result
    | .error _ => journal
  (journal.close times.closed).events

def errorLine (fault : Fault) : Option String :=
  if fault.ofInput then fault.message.map fun text => "Error: " ++ text ++ "\n" else none

end PathQuery.Command
