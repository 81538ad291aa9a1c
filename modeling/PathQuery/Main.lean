import PathQuery.Command.Action
import PathQuery.Command.Clock
import PathQuery.Grammar.Goal
import Std.Time.DateTime.Timestamp

/-! The command line. -/
open PathQuery PathQuery.Command

def usageText : String :=
  "usage: path-query [-v] compile DOCUMENT [--limit N] [--no-header] [--log FILE]\n" ++
  "       path-query [-v] vars DOCUMENT\n" ++
  "       path-query [-v] ast DOCUMENT [--all-optional] [--references-optional]\n"

def readEntry (name : String) : IO (Option FileEntry) := do
  try
    return some (.text (← IO.FS.readFile name))
  catch
    | .noFileOrDirectory _ _ _ => return none
    | .inappropriateType _ code _ => return if code = 20 then none else some .folder
    | _ => return some .nameless

def readPlacement (name : String) : IO Placement := do
  let folders ← (Text.foldersOf name.toList).mapM fun folder => readEntry (String.ofList folder)
  return ⟨folders,← readEntry name⟩

def currentMoment : IO Moment := do
  let now ← Std.Time.Timestamp.now
  let micros := (now.toNanosecondsSinceUnixEpoch.val / 1000).toNat
  return ⟨stampOf micros,(← IO.monoNanosNow) / 1000⟩

def freshRunId : IO String := do
  let n ← IO.rand 0 4294967295
  return "run-" ++ String.ofList (Text.hex 8 n)

def appendEvents (file : String) (events : List Event) : IO Unit := do
  match (Text.foldersOf file.toList).getLast? with
  | some folder => IO.FS.createDirAll (String.ofList folder)
  | none => pure ()
  IO.FS.withFile file .append fun h =>
    events.forM fun event => h.putStrLn (Value.mapping event).toLine

def compileDocument (action : Action) (document : SelectionDocument) :
    IO (Except Fault (List Char)) := do
  let opened ← currentMoment
  let began ← currentMoment
  let result := action.result Grammar.validate document
  let ended ← match result with
    | .ok _ => currentMoment
    | .error _ => currentMoment
  match action.log with
  | some file =>
      let closed ← currentMoment
      appendEvents file (action.events document (← freshRunId) ⟨opened,began,ended,closed⟩ result)
  | none => pure ()
  return result

def report (answer : Except Fault String) : IO UInt32 := do
  match answer with
  | .ok text => IO.print text; return 0
  | .error fault => match errorLine fault with
    | some line => IO.eprint line; return 1
    | none =>
      IO.eprintln (fault.label ++ (fault.message.elim "" fun text => ": " ++ text))
      return 1

def perform (action : Action) : IO UInt32 := do
  match SelectionDocument.load action.document (← readEntry action.document) with
  | .error fault => report (.error fault)
  | .ok document => match action with
    | .outline _ _ _ => report (action.output document (.ok []))
    | _ => match action.checkLog (← readPlacement (action.log.getD "")) with
      | .error fault => report (.error fault)
      | .ok _ => report (action.output document (← compileDocument action document))

def main (args : List String) : IO UInt32 := do
  match invocation args with
  | .usage code =>
      (if code = 2 then IO.eprint usageText else IO.print usageText)
      return UInt32.ofNat code
  | .run action => perform action
