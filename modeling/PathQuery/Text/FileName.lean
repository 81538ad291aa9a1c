import PathQuery.Text.Parts

/-! Names of files. -/
namespace PathQuery.Text

def rootOf : List Char → List Char
  | '/' :: '/' :: '/' :: _ => ['/']
  | '/' :: '/' :: _ => ['/','/']
  | '/' :: _ => ['/']
  | _ => []

def nameParts (name : List Char) : List (List Char) := (parts (· == '/') name).filter (· ≠ ['.'])

def joined (root : List Char) (names : List (List Char)) : List Char :=
  root ++ ['/'].intercalate names

def plainName (name : List Char) : List Char :=
  match joined (rootOf name) (nameParts name) with
  | [] => ['.']
  | plain => plain

def openings {α : Type} : List α → List (List α)
  | [] => []
  | a :: rest => [a] :: (openings rest).map (a :: ·)

def foldersOf (name : List Char) : List (List Char) :=
  (openings (nameParts name).dropLast).map (joined (rootOf name))

end PathQuery.Text
