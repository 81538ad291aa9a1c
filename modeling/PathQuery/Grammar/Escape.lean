import PathQuery.Fault
import PathQuery.Text.Character

/-! Code points written as escapes. They are put in before anything else is read, in comments too. -/
namespace PathQuery.Grammar

def escapeDigits : List Char → Option (List Char)
  | '\\' :: c :: rest =>
      if c == 'u' || c == 'U' then
        let digits := (rest.take 8).takeWhile fun d => (Text.hexValue d).isSome
        if digits.length = 8 then some digits
        else if 4 ≤ digits.length then some (digits.take 4)
        else none
      else none
  | _ => none

def characterAt (n : Nat) : Char :=
  -- A surrogate is no character, and no name has one except between angle brackets; any character of which that
  -- holds can stand for it.
  if n.isValidChar then Char.ofNat n else Char.ofNat 0xE000

def character (digits : List Char) : Except Fault Char :=
  match Text.hexNumber digits with
  | some n => if n ≤ 0x10FFFF then .ok (characterAt n) else refuse (.badCodePoint (String.ofList digits))
  | none => refuse (.badCodePoint (String.ofList digits))

def unescapeFrom : Nat → List Char → Except Fault (List Char)
  | _, [] => .ok []
  | skip + 1, _ :: rest => unescapeFrom skip rest
  | 0, c :: rest => match escapeDigits (c :: rest) with
    | none => do .ok (c :: (← unescapeFrom 0 rest))
    | some digits => do
        let d ← character digits
        .ok (d :: (← unescapeFrom (digits.length + 1) rest))

def unescape (s : List Char) : Except Fault (List Char) := unescapeFrom 0 s

def checked (accepts : List Char → Bool) (s : List Char) : Except Fault Unit := do
  if accepts (← unescape s) then .ok () else .error .invalidQuery

theorem unescapeOfPlain {s : List Char} (plain : '\\' ∉ s) : unescape s = .ok s := by
  induction s with
  | nil => rfl
  | cons c rest ih =>
      have hc : c ≠ '\\' := fun h => plain (h ▸ List.mem_cons_self)
      have none_ : escapeDigits (c :: rest) = none := by
        unfold escapeDigits
        split
        · next h => exact absurd (List.cons.inj h).1 hc
        · rfl
      have := ih fun h => plain (List.mem_cons_of_mem _ h)
      unfold unescape at this ⊢
      simp only [unescapeFrom,none_,this]
      rfl

end PathQuery.Grammar
