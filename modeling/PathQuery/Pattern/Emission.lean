import PathQuery.Pattern.Term

/-! Requests for triples, in the order in which the triples are to be written. -/
namespace PathQuery

structure Emission where
  id : String
  triple : Triple
  depth : Int
  owner : Option String
  deriving DecidableEq, Repr

structure EmissionLog where
  entries : List Emission
  next : Nat
  deriving DecidableEq, Repr

namespace EmissionLog

def empty : EmissionLog := ⟨[],0⟩

def nextId (log : EmissionLog) : String := "e" ++ toString log.next

def skip (log : EmissionLog) : EmissionLog := { log with next := log.next + 1 }

def append (log : EmissionLog) (emission : Emission) : EmissionLog :=
  { log with entries := log.entries ++ [emission] }

def insertBefore (anchor : String) (emission : Emission) : List Emission → List Emission
  | [] => []
  | e :: rest => if e.id = anchor then emission :: e :: rest else e :: insertBefore anchor emission rest

def moveBefore (log : EmissionLog) (id anchor : String) : EmissionLog :=
  if id = anchor then log
  else match log.entries.find? (·.id = id),log.entries.find? (·.id = anchor) with
    | some emission,some _ =>
        { log with entries := insertBefore anchor emission (log.entries.eraseP (·.id = id)) }
    | _,_ => log

end EmissionLog

end PathQuery
