import PathQuery.Table

/-! Names given out by key: a key gets the same name whenever it asks, and no other key gets it. -/
namespace PathQuery

def unblocked (blocks : String → String → Bool) (candidate : String) (taken : List String) : List String :=
  taken.filter fun name => !blocks candidate name

def firstFree (blocks : String → String → Bool) (candidate : Nat → String) (n : Nat) (taken : List String) :
    String :=
  -- What blocked an earlier candidate is no longer looked at, so nothing may block two of them.
  if (unblocked blocks (candidate n) taken).length < taken.length then
    firstFree blocks candidate (n + 1) (unblocked blocks (candidate n) taken)
  else candidate n
termination_by taken.length

def numbered (wish joint : String) : Nat → String
  | 0 => wish
  | n + 1 => wish ++ joint ++ toString (n + 2)

structure Names (κ : Type) where
  given : Table κ String

namespace Names

variable {κ : Type} [DecidableEq κ]

def empty : Names κ := ⟨.empty⟩

instance : Inhabited (Names κ) := ⟨empty⟩

def fresh (names : Names κ) (wish suffix : String) : String :=
  firstFree (fun a b => a == b) (numbered wish ("_" ++ suffix ++ "_")) 0 names.given.values

def name (names : Names κ) (key : κ) (wish suffix : String) : String × Names κ :=
  match names.given.find? key with
  | some name => (name,names)
  | none =>
      let name := names.fresh wish suffix
      (name,⟨names.given.insert key name⟩)

end Names

end PathQuery
