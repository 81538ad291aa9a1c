import PathQuery.Pattern.Term
import PathQuery.Proofs.Text.Word

/-! The shape of fragments. They are runs of small letters and digits that single underscores join, with a letter
in front; a text of this shape is its own fragment. Texts that differ in nothing but the case of ASCII letters have
the same fragment. -/
namespace PathQuery

inductive Joined : List Char → Prop where
  | last {c : Char} (solid : isFragmentChar c = true) : Joined [c]
  | onward {c : Char} {rest : List Char} (solid : isFragmentChar c = true) (later : Joined rest) : Joined (c :: rest)
  | joint {c : Char} {rest : List Char} (solid : isFragmentChar c = true) (later : Joined rest) :
      Joined (c :: '_' :: rest)

theorem Joined.opening {s : List Char} (joined : Joined s) : ∃ c rest, s = c :: rest ∧ isFragmentChar c = true := by
  cases joined with
  | last solid => exact ⟨_,_,rfl,solid⟩
  | onward solid later => exact ⟨_,_,rfl,solid⟩
  | joint solid later => exact ⟨_,_,rfl,solid⟩

theorem Joined.chars {s : List Char} (joined : Joined s) : ∀ c ∈ s, isFragmentChar c = true ∨ c = '_' := by
  induction joined with
  | last solid => exact List.forall_mem_singleton.mpr (.inl solid)
  | onward solid later ih => exact List.forall_mem_cons.mpr ⟨.inl solid,ih⟩
  | joint solid later ih => exact List.forall_mem_cons.mpr ⟨.inl solid,List.forall_mem_cons.mpr ⟨.inr rfl,ih⟩⟩

theorem solidOther {c : Char} (solid : isFragmentChar c = true) : c ≠ '_' := by
  rintro rfl
  contradiction

theorem Joined.single {s : List Char} (joined : Joined s) : s.IsChain fun a b => a = '_' → b ≠ '_' := by
  induction joined with
  | last solid => exact .singleton _
  | @onward c rest solid later ih =>
      obtain ⟨d,more,rfl,_⟩ := later.opening
      exact .cons_cons (fun mark => absurd mark (solidOther solid)) ih
  | @joint c rest solid later ih =>
      obtain ⟨d,more,rfl,next⟩ := later.opening
      exact .cons_cons (fun mark => absurd mark (solidOther solid)) (.cons_cons (fun _ => solidOther next) ih)

theorem Joined.ends {s : List Char} (joined : Joined s) : s.getLast? ≠ some '_' := by
  induction joined with
  | last solid => simpa using solidOther solid
  | onward solid later ih =>
      obtain ⟨d,more,rfl,_⟩ := later.opening
      exact ih
  | joint solid later ih =>
      obtain ⟨d,more,rfl,_⟩ := later.opening
      exact ih

theorem Joined.ofRun {run : List Char} (filled : run ≠ []) (solid : ∀ c ∈ run, isFragmentChar c = true) :
    Joined run := by
  induction run with
  | nil => contradiction
  | cons c rest ih =>
      obtain ⟨here,later⟩ := List.forall_mem_cons.mp solid
      cases rest with
      | nil => exact .last here
      | cons d more => exact .onward here (ih (List.cons_ne_nil d more) later)

theorem Joined.afterRun {run s : List Char} (filled : run ≠ []) (solid : ∀ c ∈ run, isFragmentChar c = true)
    (later : Joined s) : Joined (run ++ '_' :: s) := by
  induction run with
  | nil => contradiction
  | cons c rest ih =>
      obtain ⟨here,others⟩ := List.forall_mem_cons.mp solid
      cases rest with
      | nil => exact .joint here later
      | cons d more => exact .onward here (ih (List.cons_ne_nil d more) others)

theorem Joined.ofParts {parts : List (List Char)} (some_ : parts ≠ [])
    (solid : ∀ run ∈ parts, run ≠ [] ∧ ∀ c ∈ run, isFragmentChar c = true) : Joined (['_'].intercalate parts) := by
  induction parts with
  | nil => contradiction
  | cons run rest ih =>
      obtain ⟨here,later⟩ := List.forall_mem_cons.mp solid
      cases rest with
      | nil => simpa [List.intercalate] using Joined.ofRun here.1 here.2
      | cons next more =>
          have joined := Joined.afterRun here.1 here.2 (ih (List.cons_ne_nil next more) later)
          simpa [List.intercalate] using joined

theorem runsJoined {s : List Char} (some_ : runs s ≠ []) : Joined (['_'].intercalate (runs s)) := by
  refine Joined.ofParts some_ fun run member => ?_
  obtain ⟨filled,solid⟩ := Text.partsSolid member
  exact ⟨filled,fun c inside => by simpa using solid c inside⟩

theorem Joined.again {s : List Char} (joined : Joined s) : ['_'].intercalate (runs s) = s := by
  suffices ∃ part more, Text.partsFrom (fun c => !isFragmentChar c) s = (part,more) ∧ part ≠ [] ∧
      ['_'].intercalate (part :: more) = s by
    obtain ⟨part,more,parted,filled,same⟩ := this
    simpa [runs,Text.parts,parted,filled] using same
  induction joined with
  | @last c solid => exact ⟨[c],[],by simp [Text.partsFrom,solid],List.cons_ne_nil c [],by simp [List.intercalate]⟩
  | @onward c rest solid later ih =>
      obtain ⟨part,more,parted,filled,same⟩ := ih
      refine ⟨c :: part,more,by simp [Text.partsFrom,solid,parted],List.cons_ne_nil c part,?_⟩
      rw [← same]
      cases more <;> simp [List.intercalate]
  | @joint c rest solid later ih =>
      obtain ⟨part,more,parted,filled,same⟩ := ih
      have mark : isFragmentChar '_' = false := by decide
      refine ⟨[c],part :: more,by simp [Text.partsFrom,solid,mark,parted,filled],List.cons_ne_nil c [],?_⟩
      rw [← same]
      simp [List.intercalate]

theorem toLowerOther {c : Char} (other : c.isUpper = false) : c.toLower = c :=
  dif_neg fun between => by
    rw [show c.isUpper = true from decide_eq_true between] at other
    contradiction

theorem toLowerAscii {c : Char} (ascii : c.toNat < 128) : c.toLower.toNat < 128 := by
  cases upper : c.isUpper with
  | false => rwa [toLowerOther upper]
  | true =>
      have between := upperCode.mp upper
      have moved : c.toLower.toNat = (c.toNat + 32) % 2 ^ 32 := by
        unfold Char.toLower
        rw [dif_pos (of_decide_eq_true upper)]
        exact UInt32.toNat_add _ _
      omega

theorem toLowerWide {c : Char} (wide : ¬c.toNat < 128) : c.toLower = c := by
  refine toLowerOther (Bool.eq_false_iff.mpr fun upper => wide ?_)
  have between := upperCode.mp upper
  omega

theorem lowerCharCase {c d : Char} (same : c.toLower = d.toLower) : Text.lowerChar c = Text.lowerChar d := by
  by_cases first : c.toNat < 128
  · by_cases second : d.toNat < 128
    · rw [Text.lowerCharOfAscii first,Text.lowerCharOfAscii second,same]
    · have ascii := toLowerAscii first
      rw [same,toLowerWide second] at ascii
      exact absurd ascii second
  · by_cases second : d.toNat < 128
    · have ascii := toLowerAscii second
      rw [← same,toLowerWide first] at ascii
      exact absurd ascii first
    · rw [toLowerWide first,toLowerWide second] at same
      rw [same]

theorem Joined.lower {s : List Char} (joined : Joined s) : Text.lower s = s := by
  have small : ∀ c ∈ s, c.toNat < 128 ∧ c.isUpper = false := by
    intro c member
    have codes : 97 ≤ c.toNat ∧ c.toNat ≤ 122 ∨ 48 ≤ c.toNat ∧ c.toNat ≤ 57 ∨ c.toNat = 95 := by
      rcases joined.chars c member with solid | rfl
      · rcases Bool.or_eq_true_iff.mp solid with letter | digit
        · exact .inl (lowerCode.mp letter)
        · exact .inr (.inl (digitCode.mp digit))
      · exact .inr (.inr rfl)
    refine ⟨by omega,Bool.eq_false_iff.mpr fun upper => ?_⟩
    have between := upperCode.mp upper
    omega
  -- None of these letters is one whose lower case depends on what stands around it.
  clear joined
  suffices ∀ before, Text.lowerFrom before s = s from this []
  induction s with
  | nil => exact fun _ => rfl
  | cons c rest ih =>
      obtain ⟨⟨ascii,other⟩,later⟩ := List.forall_mem_cons.mp small
      have noSigma : (c.toNat == 0x3A3) = false := by
        rw [beq_eq_false_iff_ne]
        omega
      intro before
      rw [Text.lowerFrom,ih later,noSigma,Text.lowerCharOfAscii ascii,toLowerOther other]
      rfl

namespace Text

variable {isGap : Char → Bool}

theorem partsFromBehind {s t : List Char} (same : partsFrom isGap s = partsFrom isGap t) (front : List Char) :
    partsFrom isGap (front ++ s) = partsFrom isGap (front ++ t) := by
  induction front with
  | nil => exact same
  | cons c rest ih => simp only [List.cons_append,partsFrom,ih]

theorem partsFromGaps {gaps : List Char} (all : ∀ c ∈ gaps, isGap c = true) : partsFrom isGap gaps = ([],[]) := by
  induction gaps with
  | nil => rfl
  | cons c rest ih =>
      obtain ⟨here,later⟩ := List.forall_mem_cons.mp all
      simp [partsFrom,here,ih later]

theorem partsBetween {front back : List Char} (before : ∀ c ∈ front, isGap c = true)
    (behind : ∀ c ∈ back, isGap c = true) (s : List Char) : parts isGap (front ++ s ++ back) = parts isGap s := by
  have none : partsFrom isGap back = partsFrom isGap [] := partsFromGaps behind
  have ended : parts isGap (s ++ back) = parts isGap s := by
    rw [parts,partsFromBehind none,List.append_nil,parts]
  rw [List.append_assoc]
  induction front with
  | nil => exact ended
  | cons c rest ih =>
      obtain ⟨here,later⟩ := List.forall_mem_cons.mp before
      rw [← ih later]
      simp [parts,partsFrom,here]

end Text

theorem runsLower (s : List Char) : runs (Text.lower s) = runs (s.flatMap Text.lowerChar) := by
  have sigma : Text.lowerChar (Char.ofNat 0x3A3) = [Char.ofNat 0x3C3] := by decide
  have gaps : isFragmentChar (Char.ofNat 0x3C2) = false ∧ isFragmentChar (Char.ofNat 0x3C3) = false := by decide
  suffices ∀ before, Text.partsFrom (fun c => !isFragmentChar c) (Text.lowerFrom before s) =
      Text.partsFrom (fun c => !isFragmentChar c) (s.flatMap Text.lowerChar) by
    rw [runs,runs,Text.parts,Text.parts,Text.lower,this []]
  induction s with
  | nil => exact fun _ => rfl
  | cons c rest ih =>
      intro before
      rw [Text.lowerFrom,List.flatMap_cons,← Text.partsFromBehind (ih (c :: before)) (Text.lowerChar c)]
      split
      · next final =>
        have code : c = Char.ofNat 0x3A3 := by
          rw [← Char.ofNat_toNat c,beq_iff_eq.mp (Bool.and_eq_true_iff.mp final).1]
        rw [code,sigma]
        simp [Text.partsFrom,gaps]
      · rfl

theorem fragmentJoined (s : List Char) :
    Joined (fragmentChars s) ∧ (fragmentChars s).head?.any Char.isLower = true := by
  unfold fragmentChars
  split
  · exact ⟨Joined.ofRun (by decide) (by decide),by decide⟩
  · next c rest whole =>
    have joined : Joined (c :: rest) := by
      rw [← whole]
      refine runsJoined fun none => ?_
      rw [none] at whole
      contradiction
    split
    · exact ⟨@Joined.afterRun ['p'] _ (by decide) (by decide) joined,rfl⟩
    · next letter =>
      obtain ⟨_,_,same,solid⟩ := joined.opening
      cases same
      rcases Bool.or_eq_true_iff.mp solid with small | digit
      · exact ⟨joined,small⟩
      · exact absurd digit letter

theorem Joined.own {s : List Char} (joined : Joined s) (opens : s.head?.any Char.isLower = true) :
    fragmentChars s = s := by
  rw [fragmentChars,joined.lower,joined.again]
  obtain ⟨c,rest,rfl,_⟩ := joined.opening
  have letter : c.isLower = true := opens
  have other : ¬c.isDigit = true := by
    rw [digitCode]
    have small := lowerCode.mp letter
    omega
  exact if_neg other

theorem fragmentCharIsWordChar {c : Char} (h : isFragmentChar c = true) :
    QueryOptions.isVariableChar c = true := by
  rcases Bool.or_eq_true_iff.mp h with small | digit
  · have lower : c.isLower = true := small
    have letter : c.isAlpha = (c.isUpper || c.isLower) := rfl
    simp [QueryOptions.isVariableChar,Char.isAlphanum,letter,lower]
  · exact digitIsWordChar digit

theorem fragmentWord (s : String) : IsWord (fragment s).toList := by
  obtain ⟨joined,_⟩ := fragmentJoined s.toList
  obtain ⟨c,rest,same,_⟩ := joined.opening
  rw [fragment,String.toList_ofList]
  refine ⟨same ▸ List.cons_ne_nil c rest,fun d member => ?_⟩
  rcases joined.chars d member with solid | rfl
  · exact fragmentCharIsWordChar solid
  · decide

structure IsFragment (s : String) : Prop where
  opens : s.toList.head?.any Char.isLower = true
  chars : ∀ c ∈ s.toList, c.isLower = true ∨ c.isDigit = true ∨ c = '_'
  single : s.toList.IsChain fun a b => a = '_' → b ≠ '_'
  ends : s.toList.getLast? ≠ some '_'

theorem fragmentShape (s : String) : IsFragment (fragment s) := by
  obtain ⟨joined,opens⟩ := fragmentJoined s.toList
  rw [← String.toList_ofList (l := fragmentChars s.toList)] at joined opens
  refine ⟨opens,fun c member => ?_,joined.single,joined.ends⟩
  rcases joined.chars c member with solid | mark
  · rcases Bool.or_eq_true_iff.mp solid with small | digit
    · exact .inl small
    · exact .inr (.inl digit)
  · exact .inr (.inr mark)

theorem fragmentAgain (s : String) : fragment (fragment s) = fragment s := by
  obtain ⟨joined,opens⟩ := fragmentJoined s.toList
  rw [fragment,fragment,String.toList_ofList,joined.own opens]

theorem fragmentCase {s t : String} (same : s.toList.map Char.toLower = t.toList.map Char.toLower) :
    fragment s = fragment t := by
  have letters : ∀ {a b : List Char}, a.map Char.toLower = b.map Char.toLower →
      a.flatMap Text.lowerChar = b.flatMap Text.lowerChar := by
    intro a
    induction a with
    | nil =>
        intro b same
        rw [List.map_eq_nil_iff.mp same.symm]
    | cons c rest ih =>
        intro b same
        obtain ⟨d,more,rfl,here,later⟩ := List.map_eq_cons_iff.mp same.symm
        rw [List.flatMap_cons,List.flatMap_cons,ih later.symm,lowerCharCase here.symm]
  rw [fragment,fragment,fragmentChars,fragmentChars,runsLower,runsLower,letters same]

end PathQuery
