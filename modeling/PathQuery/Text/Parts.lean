/-! The parts of a text between gaps. No part is empty: gaps that meet, or stand at an end, make none. -/
namespace PathQuery.Text

def partsFrom (isGap : Char → Bool) : List Char → List Char × List (List Char)
  | [] => ([],[])
  | c :: rest =>
      let (part,more) := partsFrom isGap rest
      if isGap c then ([],if part.isEmpty then more else part :: more) else (c :: part,more)

def parts (isGap : Char → Bool) (s : List Char) : List (List Char) :=
  let (part,more) := partsFrom isGap s
  if part.isEmpty then more else part :: more

theorem partsFromSolid (isGap : Char → Bool) (s : List Char) :
    (∀ c ∈ (partsFrom isGap s).1, isGap c = false) ∧
      ∀ part ∈ (partsFrom isGap s).2, part ≠ [] ∧ ∀ c ∈ part, isGap c = false := by
  induction s with
  | nil => simp [partsFrom]
  | cons c rest ih =>
      obtain ⟨opening,others⟩ := ih
      by_cases gap : isGap c
      · simp only [partsFrom,gap,if_true]
        refine ⟨by simp,?_⟩
        split
        · exact others
        · next filled =>
          intro part member
          rcases List.mem_cons.mp member with rfl | member
          · exact ⟨by simpa using filled,opening⟩
          · exact others part member
      · simp only [partsFrom,gap]
        refine ⟨?_,others⟩
        intro d member
        rcases List.mem_cons.mp member with rfl | member
        · simpa using gap
        · exact opening d member

theorem partsSolid {isGap : Char → Bool} {s part : List Char} (member : part ∈ parts isGap s) :
    part ≠ [] ∧ ∀ c ∈ part, isGap c = false := by
  obtain ⟨opening,others⟩ := partsFromSolid isGap s
  simp only [parts] at member
  split at member
  · exact others part member
  · next filled =>
    rcases List.mem_cons.mp member with rfl | member
    · exact ⟨by simpa using filled,opening⟩
    · exact others part member

end PathQuery.Text
