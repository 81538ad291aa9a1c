import PathQuery.Journal
import PathQuery.Query.Compile
import PathQuery.Query.Reading
import PathQuery.Selection.Reader

/-! A compiler over one path model, whose queries always have a limit. -/
namespace PathQuery

def defaultLimit : Int := 100

def highestLimit : Int := 10000

def clampLimit (limit : Option Int) (default maximum : Int) : Int :=
  -- Without a limit, `default` stands as it is.
  match limit with
  | none => default
  | some n => max 1 (min n maximum)

def Fault.label : Fault → String
  | refused _ => "ValueError"
  | missing _ _ => "FileNotFoundError"
  | invalidQuery => "QueryValidationError"
  | unusable => "TypeError"
  | notText _ => "AttributeError"
  | infinite => "OverflowError"
  | emptyVariable => "Exception"
  | malformed => "ParserError"
  | unclosed => "ScannerError"
  | folder => "IsADirectoryError"
  | occupied => "FileExistsError"
  | notFolder => "NotADirectoryError"
  | nameTooLong => "OSError"

structure CompileTool where
  model : PathModel
  options : QueryOptions
  maximum : Int

structure Request where
  selection : SelectionGraph
  options : QueryOptions

namespace CompileTool

def limitOf (tool : CompileTool) (limit : Value) : Except Fault (Option Int) :=
  match limit with
  | .null => .ok (tool.options.limit.map Int.ofNat)
  | value => do .ok (some (← value.toInteger))

def optionsFor (tool : CompileTool) (limit : Option Int) : QueryOptions :=
  let n := clampLimit limit defaultLimit tool.maximum
  { tool.options with limit := if 0 < n then some n.toNat else none }

def requestFor (tool : CompileTool) (selection : SelectionGraph) (limit : Value) : Except Fault Request := do
  .ok ⟨selection,tool.optionsFor (← tool.limitOf limit)⟩

def request (tool : CompileTool) (selection limit : Value) : Except Fault Request := do
  tool.requestFor (← SelectionGraph.ofValue tool.model selection) limit

end CompileTool

namespace Request

def run (r : Request) (check : Check) : Except Fault (List Char) := r.selection.compile check r.options

def note (r : Request) (j : Journal) (began ended : Moment) (result : Except Fault (List Char)) : Journal :=
  let call := Value.text j.callId
  let j := j.beginCall began r.selection (some r.options)
  match result with
  | .ok text =>
      j.finish ended call (.text (String.ofList text)) text.length
        (.integer (Query.tripleLineCount text))
  | .error fault => j.fail ended call fault.label (fault.message.getD "")

end Request

end PathQuery
