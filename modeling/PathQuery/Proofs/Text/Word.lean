import PathQuery.Options
import PathQuery.Proofs.Attempts

/-! Words of letters, digits and underscores. Every name that is given to a variable is one: it is put
together from fragments of ids, fixed words and numbers. -/
namespace PathQuery

def IsWord (s : List Char) : Prop := s ≠ [] ∧ ∀ c ∈ s, QueryOptions.isVariableChar c = true

instance (s : List Char) : Decidable (IsWord s) :=
  decidable_of_iff (s ≠ [] ∧ s.all QueryOptions.isVariableChar = true) (by simp [IsWord])

theorem wordAppend {a b : List Char} (first : IsWord a) (second : IsWord b) : IsWord (a ++ b) := by
  refine ⟨by simp [first.1],?_⟩
  intro c member
  rcases List.mem_append.mp member with member | member
  · exact first.2 c member
  · exact second.2 c member

theorem nameAppend {a b : String} (first : IsWord a.toList) (second : IsWord b.toList) :
    IsWord (a ++ b).toList := by
  rw [String.toList_append]
  exact wordAppend first second

theorem wordLacks {s : List Char} (word : IsWord s) {c : Char}
    (other : QueryOptions.isVariableChar c = false) : c ∉ s := by
  intro member
  have := word.2 c member
  simp [other] at this

theorem upperCode {c : Char} : c.isUpper = true ↔ 65 ≤ c.toNat ∧ c.toNat ≤ 90 := decide_eq_true_iff

theorem lowerCode {c : Char} : c.isLower = true ↔ 97 ≤ c.toNat ∧ c.toNat ≤ 122 := by
  have spelled : c.isLower = (decide (97 ≤ c.toNat) && decide (c.toNat ≤ 122)) := rfl
  rw [spelled,Bool.and_eq_true,decide_eq_true_iff,decide_eq_true_iff]

theorem letterCode {c : Char} :
    c.isAlpha = true ↔ (65 ≤ c.toNat ∧ c.toNat ≤ 90) ∨ (97 ≤ c.toNat ∧ c.toNat ≤ 122) := by
  have spelled : c.isAlpha = (c.isUpper || c.isLower) := rfl
  rw [spelled,Bool.or_eq_true,upperCode,lowerCode]

theorem digitCode {c : Char} : c.isDigit = true ↔ 48 ≤ c.toNat ∧ c.toNat ≤ 57 := Char.isDigit_iff_toNat

theorem wordCharCode {c : Char} : QueryOptions.isVariableChar c = true ↔ 48 ≤ c.toNat ∧ c.toNat ≤ 57 ∨
    65 ≤ c.toNat ∧ c.toNat ≤ 90 ∨ 97 ≤ c.toNat ∧ c.toNat ≤ 122 ∨ c.toNat = 95 := by
  have spelled : QueryOptions.isVariableChar c = (c.isAlpha || c.isDigit || c == '_') := rfl
  have mark : c = '_' ↔ c.toNat = 95 := (Char.toNat_inj (d := '_')).symm
  rw [spelled,Bool.or_eq_true,Bool.or_eq_true,letterCode,digitCode,beq_iff_eq,mark]
  omega

theorem digitIsWordChar {c : Char} (digit : c.isDigit = true) :
    QueryOptions.isVariableChar c = true := by
  simp [QueryOptions.isVariableChar,Char.isAlphanum,digit]

theorem digitsWord (n : Nat) : IsWord (Nat.toDigits 10 n) :=
  ⟨Nat.toDigits_ne_nil,fun _ member =>
    digitIsWordChar (Nat.isDigit_of_mem_toDigits (by decide) (by decide) member)⟩

theorem numberWord (n : Nat) : IsWord (toString n).toList := by
  rw [Nat.toString_eq_repr,Nat.toList_repr]
  exact digitsWord n

theorem variableWord {s : String} {name : Option String} (read : QueryOptions.variableOf s = .ok name) :
    ∀ word ∈ name, IsWord word.toList := by
  intro word member
  unfold QueryOptions.variableOf at read
  simp only at read
  split at read
  · cases read
    nomatch member
  · next filled =>
    split at read
    · next chars =>
      cases read
      cases member
      rw [String.toList_ofList]
      exact ⟨by simpa using filled,List.all_eq_true.mp chars⟩
    · contradiction

theorem orderVariableWord {settings : QueryOptions.Settings} {o : QueryOptions}
    (made : QueryOptions.ofSettings settings = .ok o) : ∀ name ∈ o.orderVariable, IsWord name.toList := by
  obtain ⟨direction,_,made⟩ := bindOk.mp made
  split at made
  · obtain ⟨variable_,read,made⟩ := bindOk.mp made
    obtain ⟨limit,_,made⟩ := bindOk.mp made
    cases made
    exact variableWord read
  · obtain ⟨variable_,read,made⟩ := bindOk.mp made
    obtain ⟨limit,_,made⟩ := bindOk.mp made
    cases made
    cases read
    exact nofun

def Stops (test : Char → Bool) (s : List Char) : Prop := ∀ c ∈ s.head?, test c = false

theorem stopsCons {test : Char → Bool} {c : Char} (other : test c = false) (s : List Char) :
    Stops test (c :: s) := by
  intro d head
  cases head
  exact other

theorem dropWhileRun {test : Char → Bool} {run s : List Char} (inside : ∀ c ∈ run, test c = true)
    (stop : Stops test s) : (run ++ s).dropWhile test = s := by
  rw [List.dropWhile_append_of_pos inside]
  cases s with
  | nil => rfl
  | cons c rest => simp [stop c rfl]

theorem takeWhileRun {test : Char → Bool} {run s : List Char} (inside : ∀ c ∈ run, test c = true)
    (stop : Stops test s) : (run ++ s).takeWhile test = run := by
  rw [List.takeWhile_append_of_pos inside]
  cases s with
  | nil => simp
  | cons c rest => simp [stop c rfl]

end PathQuery
