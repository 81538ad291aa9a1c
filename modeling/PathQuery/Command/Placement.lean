import PathQuery.Document

/-! Where a journal is put, and what may stand in its way. -/
namespace PathQuery.Command

structure Placement where
  folders : List (Option FileEntry)
  file : Option FileEntry
  deriving DecidableEq, Repr

def folderFault? (made : Bool) : List (Option FileEntry) → Option Fault
  -- A file stands in the way of the innermost folder, and of any once a folder is made; further out it is no folder
  -- to look into.
  | [] => none
  | none :: rest => folderFault? true rest
  | some .folder :: rest => folderFault? made rest
  | some (.text _) :: rest => some (if made || rest.isEmpty then .occupied else .notFolder)
  | some .nameless :: _ => some .nameTooLong

def fileFault? : Option FileEntry → Option Fault
  | some .folder => some .folder
  | some .nameless => some .nameTooLong
  | _ => none

def hasZero (name : List Char) : Bool := name.any fun c => c.toNat == 0

def Placement.fault? (p : Placement) (name : String) : Option Fault :=
  if (Text.foldersOf name.toList).any hasZero then some (.refused .zeroInName)
  else (folderFault? false p.folders).or
    (if hasZero name.toList then some (.refused .zeroInName) else fileFault? p.file)

end PathQuery.Command
