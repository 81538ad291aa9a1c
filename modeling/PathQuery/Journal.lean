import PathQuery.Options
import PathQuery.Selection.Graph

/-! The journal of a run: one event for its start, for the start and the end of every compilation, and
for its own end. -/
namespace PathQuery

structure Moment where
  stamp : String
  micros : Nat

abbrev Event := List (String × Value)

structure Journal where
  runId : String
  compiles : Nat
  errors : Nat
  running : Table String Nat
  isOpen : Bool
  events : List Event

namespace Journal

def cutText (s : String) (limit : Int) : String :=
  let chars := s.toList
  let kept := if 0 ≤ limit then limit.toNat else chars.length - (-limit).toNat
  String.ofList (chars.take kept) ++ "... (truncated, " ++ toString chars.length ++ " total chars)"

def maxItems : Nat := 10

def moreItems (n : Nat) : List Value :=
  if maxItems < n then [.text ("... (" ++ toString (n - maxItems) ++ " more items)")] else []

mutual

def shortened (limit : Int) : Value → Value
  | .text s => if limit < s.length then .text (cutText s limit) else .text s
  | .list items => .list (shortenedItems limit maxItems items ++ moreItems items.length)
  | .mapping fields => .mapping (shortenedFields limit fields)
  | value => value

def shortenedItems (limit : Int) : Nat → List Value → List Value
  | _, [] => []
  | 0, _ :: _ => []
  | room + 1, item :: rest => shortened limit item :: shortenedItems limit room rest

def shortenedFields (limit : Int) : List (String × Value) → List (String × Value)
  | [] => []
  | (name,value) :: rest => (name,shortened limit value) :: shortenedFields limit rest

end

def textLimit : Int := 500

def optionsLimit : Int := 200

def queryLimit : Int := 1000

def withMember (name : String) (value : Value) (fields : Event) : Event :=
  if (Value.fieldOf name fields).isSome then fields else fields ++ [(name,value)]

def write (j : Journal) (now : Moment) (fields : Event) : Journal :=
  -- A closed journal stays as it is.
  if j.isOpen then
    let event := withMember "run_id" (.text j.runId) (withMember "timestamp" (.text now.stamp) fields)
    { j with events := j.events ++ [event] }
  else j

def start (runId : String) (now : Moment) (before : List Event) : Journal :=
  write ⟨runId,0,0,.empty,true,before⟩ now [("event",.text "session_start")]

def callId (j : Journal) : String := "c" ++ toString j.compiles

def beginCall (j : Journal) (now : Moment) (g : SelectionGraph) (o : Option QueryOptions) : Journal :=
  let id := j.callId
  { j with compiles := j.compiles + 1, running := j.running.insert id now.micros }.write now
    [("event",.text "compile_start"),("call_id",.text id),("node_count",.integer g.size),
      ("central_id",Value.ofOption .text g.central),
      ("count_ids",shortened textLimit (Value.texts g.count)),
      ("options",Value.ofOption (fun o : QueryOptions => shortened optionsLimit o.toValue) o)]

def began? (j : Journal) : Value → Option Nat
  | .text id => j.running.find? id
  | _ => none

def duration (j : Journal) (now : Moment) (call : Value) : Value :=
  match j.began? call with
  | some began => .decimal (Decimal.Double.ofDecimal false (now.micros - began) (-3))
  | none => .null

def forget (j : Journal) (call : Value) : Journal :=
  { j with running := ⟨j.running.entries.filter fun entry => Value.text entry.1 ≠ call⟩ }

def sizeOf? : Value → Option Nat
  | .text s => some s.length
  | .list items => some items.length
  | .mapping fields => some fields.length
  | _ => none

def finish (j : Journal) (now : Moment) (call query : Value) (size : Nat) (triples : Value) : Journal :=
  ((j.forget call).write now
    [("event",.text "compile_end"),("call_id",call),("status",.text "ok"),("triple_count",triples),
      ("query_chars",.integer size),("query",shortened queryLimit query),("duration_ms",j.duration now call)])

def fail (j : Journal) (now : Moment) (call : Value) (kind message : String) : Journal :=
  ({ j.forget call with errors := j.errors + 1 }.write now
    [("event",.text "compile_error"),("call_id",call),("status",.text "error"),
      ("error_type",.text kind),("exception",shortened textLimit (.text message)),
      ("duration_ms",j.duration now call)])

def close (j : Journal) (now : Moment) : Journal :=
  { j.write now
      [("event",.text "session_end"),("compiles",.integer j.compiles),("errors",.integer j.errors)] with
    isOpen := false }

end Journal

end PathQuery
