import PathQuery.Query.Count

/-! The lines of a pattern: every scope that they open they close again, and they write each triple that
is asked for and not excluded. Leaving out comments changes neither. -/
namespace PathQuery

def Line.openAfter : Nat → Line → Option Nat
  | n, .opening _ => some (n + 1)
  | n + 1, .closing _ => some n
  | 0, .closing _ => none
  | n, _ => some n

def openAfter (n : Nat) (lines : List Line) : Option Nat := lines.foldlM Line.openAfter n

theorem openAfterCons (n : Nat) (line : Line) (lines : List Line) :
    openAfter n (line :: lines) = (line.openAfter n).bind (openAfter · lines) := rfl

theorem openAfterAppend (n : Nat) (first second : List Line) :
    openAfter n (first ++ second) = (openAfter n first).bind (openAfter · second) :=
  List.foldlM_append

theorem openAfterJoin {n m k : Nat} {first second : List Line} (a : openAfter n first = some m)
    (b : openAfter m second = some k) : openAfter n (first ++ second) = some k := by
  rw [openAfterAppend,a]
  exact b

theorem openAfterOpenings (n : Nat) (scopes : List Scope) :
    openAfter n (scopes.map .opening) = some (n + scopes.length) := by
  induction scopes generalizing n with
  | nil => rfl
  | cons scope rest ih =>
      rw [List.map_cons,openAfterCons]
      simp only [Line.openAfter,Option.bind_some,ih,List.length_cons]
      congr 1
      omega

theorem openAfterClosings (n : Nat) (scopes : List Scope) :
    openAfter (n + scopes.length) (closings scopes) = some n := by
  suffices ∀ shut : List Scope, openAfter (n + shut.length) (shut.map .closing) = some n by
    have := this scopes.reverse
    rwa [List.length_reverse] at this
  intro shut
  induction shut with
  | nil => rfl
  | cons scope rest ih => exact ih

theorem sharedScopesLength (opened : List Scope) (chain : List String) :
    sharedScopes opened chain ≤ opened.length := by
  fun_induction sharedScopes opened chain with
  | case1 scope opened chain ih => simpa using ih
  | case2 => exact Nat.zero_le _
  | case3 => exact Nat.zero_le _

theorem openAfterLeaving (opened : List Scope) (chain : List String) :
    openAfter opened.length (leaving opened chain) =
      some (opened.take (sharedScopes opened chain)).length := by
  have cut := sharedScopesLength opened chain
  have parts : opened.length = (opened.take (sharedScopes opened chain)).length +
      (opened.drop (sharedScopes opened chain)).length := by
    simp only [List.length_take,List.length_drop]
    omega
  rw [leaving,parts]
  exact openAfterClosings _ _

namespace Pattern

variable {p : Pattern}

theorem openAfterNotes (n : Nat) (e : Emission) : openAfter n (p.notes e) = some n := by
  unfold notes
  induction p.comments.findD e.id [] with
  | nil => rfl
  | cons text rest ih => exact ih

theorem openAfterMarking (e : Emission) (opened : List Scope) :
    openAfter opened.length (p.marking e opened) = some (p.marked e opened).length := by
  unfold marking marked
  cases p.markerAt e with
  | none => rfl
  | some comment => exact openAfterJoin (openAfterLeaving opened (p.chainOf e)) rfl

theorem openAfterLinesFrom (opened : List Scope) (done : List Triple) (emissions : List Emission) :
    openAfter opened.length (p.linesFrom opened done emissions) = some 0 := by
  induction emissions generalizing opened done with
  | nil => simpa [linesFrom] using openAfterClosings 0 opened
  | cons e rest ih =>
      unfold linesFrom
      split
      · refine openAfterJoin (openAfterJoin (openAfterNotes _ e) (openAfterMarking e opened)) ?_
        split
        · exact ih _ _
        · have opening := openAfterJoin (openAfterLeaving (p.marked e opened) (p.chainOf e))
            (openAfterOpenings _ (entering (p.marked e opened) (p.chainOf e) e.depth))
          rw [← List.length_append] at opening
          refine openAfterJoin opening ?_
          rw [openAfterCons]
          exact ih _ _
      · exact ih _ _

theorem openAfterLines (p : Pattern) (excluded : List Triple) : openAfter 0 (p.lines excluded) = some 0 :=
  openAfterLinesFrom [] excluded p.emissions

end Pattern

theorem writtenAppend (first second : List Line) :
    writtenTriples (first ++ second) = writtenTriples first ++ writtenTriples second :=
  List.filterMap_append

theorem writtenNone {lines : List Line} (none : ∀ line ∈ lines, line.triple? = none) :
    writtenTriples lines = [] := List.filterMap_eq_nil_iff.mpr none

structure Line.Skims {α : Type} (read : Line → Option α) : Prop where
  blank : read .blank = none
  note : ∀ depth text, read (.note depth text) = none
  marker : ∀ text, read (.marker text) = none
  closing : ∀ scope, read (.closing scope) = none

theorem tripleSkims : Line.Skims Line.triple? := ⟨rfl,fun _ _ => rfl,fun _ => rfl,fun _ => rfl⟩

section

variable {α : Type} {read : Line → Option α}

theorem closingsSkimmed (skims : Line.Skims read) (scopes : List Scope) :
    (closings scopes).filterMap read = [] := by
  refine List.filterMap_eq_nil_iff.mpr fun line member => ?_
  obtain ⟨scope,_,rfl⟩ := List.mem_map.mp member
  exact skims.closing scope

theorem notesSkimmed (skims : Line.Skims read) (p : Pattern) (e : Emission) :
    (p.notes e).filterMap read = [] := by
  refine List.filterMap_eq_nil_iff.mpr fun line member => ?_
  obtain ⟨text,_,member⟩ := List.mem_flatMap.mp member
  rcases List.mem_cons.mp member with rfl | member
  · exact skims.blank
  · rw [List.mem_singleton.mp member]
    exact skims.note e.depth text

theorem markingSkimmed (skims : Line.Skims read) (p : Pattern) (e : Emission) (opened : List Scope) :
    (p.marking e opened).filterMap read = [] := by
  unfold Pattern.marking
  split
  · next comment _ =>
    rw [List.filterMap_append,leaving,closingsSkimmed skims,List.nil_append,
      List.filterMap_cons_none skims.blank,List.filterMap_cons_none (skims.marker comment),List.filterMap_nil]
  · rfl

end

theorem closingsWriteNone (scopes : List Scope) : writtenTriples (closings scopes) = [] :=
  closingsSkimmed tripleSkims scopes

theorem openingsWriteNone (scopes : List Scope) : writtenTriples (scopes.map .opening) = [] := by
  refine writtenNone fun line member => ?_
  obtain ⟨scope,_,rfl⟩ := List.mem_map.mp member
  rfl

namespace Pattern

variable {p : Pattern}

theorem notesWriteNone (e : Emission) : writtenTriples (p.notes e) = [] := notesSkimmed tripleSkims p e

theorem markingWritesNone (e : Emission) (opened : List Scope) :
    writtenTriples (p.marking e opened) = [] := markingSkimmed tripleSkims p e opened

def Awaits (p : Pattern) (known : List Triple) (emissions : List Emission) (t : Triple) : Prop :=
  t ∉ known ∧ p.records.contains t = true ∧ ∃ e ∈ emissions, e.triple = t

theorem awaitsLater {known : List Triple} {e : Emission} {rest : List Emission} {t : Triple}
    (other : t ∉ known → p.records.contains t = true → e.triple ≠ t) :
    p.Awaits known rest t ↔ p.Awaits known (e :: rest) t := by
  constructor
  · intro ⟨fresh,recorded,a,member,same⟩
    exact ⟨fresh,recorded,a,List.mem_cons_of_mem _ member,same⟩
  · intro ⟨fresh,recorded,a,member,same⟩
    rcases List.mem_cons.mp member with rfl | member
    · exact absurd same (other fresh recorded)
    · exact ⟨fresh,recorded,a,member,same⟩

theorem awaitsHere {known : List Triple} {e : Emission} {rest : List Emission} {t : Triple}
    (recorded : p.records.contains e.triple = true) (new : e.triple ∉ known) :
    t = e.triple ∨ p.Awaits (e.triple :: known) rest t ↔ p.Awaits known (e :: rest) t := by
  constructor
  · intro here
    rcases here with rfl | ⟨later,recorded,a,member,same⟩
    · exact ⟨new,recorded,e,by simp,rfl⟩
    · exact ⟨fun there => later (List.mem_cons_of_mem _ there),recorded,a,List.mem_cons_of_mem _ member,same⟩
  · intro ⟨fresh,recorded,a,member,same⟩
    by_cases here : t = e.triple
    · exact .inl here
    · refine .inr ⟨by simp [here,fresh],recorded,?_⟩
      rcases List.mem_cons.mp member with rfl | member
      · exact absurd same.symm here
      · exact ⟨a,member,same⟩

theorem writtenFrom (opened : List Scope) (done : List Triple) (emissions : List Emission) (t : Triple) :
    t ∈ writtenTriples (p.linesFrom opened done emissions) ↔ p.Awaits done emissions t := by
  induction emissions generalizing opened done with
  | nil => simp [linesFrom,closingsWriteNone,Awaits]
  | cons e rest ih =>
      unfold linesFrom
      split
      · next recorded =>
        simp only [writtenAppend,notesWriteNone,markingWritesNone,List.nil_append]
        split
        · next again =>
          rw [ih]
          refine awaitsLater fun fresh _ same => ?_
          exact fresh (same ▸ List.contains_iff_mem.mp again)
        · next fresh =>
          rw [writtenAppend,writtenAppend,leaving,closingsWriteNone,openingsWriteNone,List.nil_append,
            List.nil_append]
          simp only [writtenTriples,List.filterMap_cons,Line.triple?]
          rw [List.mem_cons]
          change t = e.triple ∨ t ∈ writtenTriples _ ↔ _
          rw [ih]
          exact awaitsHere recorded fun member => fresh (List.contains_iff_mem.mpr member)
      · next absent =>
        rw [ih]
        exact awaitsLater fun _ recorded same => absent (same ▸ recorded)

theorem writtenLines (p : Pattern) (excluded : List Triple) (t : Triple) :
    t ∈ writtenTriples (p.lines excluded) ↔
      t ∉ excluded ∧ p.records.contains t = true ∧ ∃ e ∈ p.emissions, e.triple = t :=
  writtenFrom [] excluded p.emissions t

end Pattern

section

variable {α : Type} {text : α → List Char} {comments : List (List Char)}

theorem dropBlankSubset {kept : List α} {line : α} (member : line ∈ dropBlank text kept) : line ∈ kept := by
  cases kept with
  | nil => contradiction
  | cons first more =>
      simp only [dropBlank] at member
      split at member
      · exact List.mem_cons_of_mem _ member
      · exact member

theorem dropBlankKeeps {keep : α → Bool} {kept : List α}
    (visible : ∀ line ∈ kept, keep line = true → isBlankLine (text line) = false) :
    (dropBlank text kept).filter keep = kept.filter keep := by
  cases kept with
  | nil => rfl
  | cons first more =>
      simp only [dropBlank]
      split
      · next blank =>
        have hidden : keep first = false := by
          cases shown : keep first with
          | false => rfl
          | true => rw [visible first (by simp) shown] at blank; contradiction
        rw [List.filter_cons_of_neg (by simpa using hidden)]
      · rfl

theorem withoutCommentsKeeps {keep : α → Bool} {lines : List α}
    (solid : ∀ line ∈ lines, keep line = true →
      comments.contains (Text.trim (text line)) = false ∧ isBlankLine (text line) = false) :
    (withoutComments text comments lines).filter keep = lines.filter keep := by
  suffices ∀ kept : List α, (∀ line ∈ kept, keep line = true → isBlankLine (text line) = false) →
      (lines.foldl (fun kept line =>
        if comments.contains (Text.trim (text line)) then dropBlank text kept else line :: kept)
          kept).filter keep = (lines.filter keep).reverse ++ kept.filter keep by
    have whole := this [] fun _ member => nomatch member
    rw [withoutComments,List.filter_reverse,whole]
    simp
  induction lines with
  | nil => exact fun kept _ => rfl
  | cons line rest ih =>
      intro kept visible
      have later := ih fun other member => solid other (List.mem_cons_of_mem _ member)
      rw [List.foldl_cons]
      split
      · next comment =>
        have dropped : keep line = false := by
          cases shown : keep line with
          | false => rfl
          | true => rw [(solid line (by simp) shown).1] at comment; contradiction
        rw [later _ fun other member => visible other (dropBlankSubset member),dropBlankKeeps visible,
          List.filter_cons_of_neg (by simpa using dropped)]
      · rw [later]
        · by_cases shown : keep line = true
          · simp [List.filter_cons_of_pos,shown]
          · simp [List.filter_cons_of_neg,shown]
        · intro other member shown
          rcases List.mem_cons.mp member with rfl | member
          · exact (solid other (by simp) shown).2
          · exact visible other member shown

theorem withoutCommentsSubset {lines : List α} {line : α}
    (member : line ∈ withoutComments text comments lines) : line ∈ lines := by
  suffices ∀ kept : List α, line ∈ lines.foldl (fun kept line =>
      if comments.contains (Text.trim (text line)) then dropBlank text kept else line :: kept) kept →
        line ∈ lines ∨ line ∈ kept by
    rcases this [] (List.mem_reverse.mp member) with there | none
    · exact there
    · nomatch none
  clear member
  induction lines with
  | nil => exact fun kept member => .inr member
  | cons first rest ih =>
      intro kept member
      rw [List.foldl_cons] at member
      rcases ih _ member with later | before
      · exact .inl (List.mem_cons_of_mem _ later)
      · split at before
        · exact .inr (dropBlankSubset before)
        · rcases List.mem_cons.mp before with rfl | there
          · exact .inl (by simp)
          · exact .inr there

end

def Line.isSolid : Line → Bool
  | .opening _ => true
  | .closing _ => true
  | .triple _ _ => true
  | _ => false

theorem openAfterSolid (n : Nat) (lines : List Line) :
    openAfter n (lines.filter Line.isSolid) = openAfter n lines := by
  induction lines generalizing n with
  | nil => rfl
  | cons line rest ih =>
      cases line with
      | opening scope => exact ih (n + 1)
      | closing scope =>
          cases n with
          | zero => rfl
          | succ n => exact ih n
      | triple depth t => exact ih n
      | blank => exact ih n
      | note depth text => exact ih n
      | marker text => exact ih n

theorem writtenSolid (lines : List Line) : writtenTriples (lines.filter Line.isSolid) = writtenTriples lines := by
  induction lines with
  | nil => rfl
  | cons line rest ih =>
      cases line with
      | triple depth t => exact congrArg (t :: ·) ih
      | opening scope => exact ih
      | closing scope => exact ih
      | blank => exact ih
      | note depth text => exact ih
      | marker text => exact ih

theorem openAfterRename (names : Renaming) (n : Nat) (lines : List Line) :
    openAfter n (lines.map (Line.rename names)) = openAfter n lines := by
  induction lines generalizing n with
  | nil => rfl
  | cons line rest ih =>
      rw [List.map_cons,openAfterCons,openAfterCons]
      have same : (line.rename names).openAfter n = line.openAfter n := by
        cases line <;> rfl
      rw [same]
      cases line.openAfter n with
      | none => rfl
      | some m => exact ih m

theorem writtenRename (names : Renaming) (lines : List Line) :
    writtenTriples (lines.map (Line.rename names)) = (writtenTriples lines).map (Triple.rename names) := by
  induction lines with
  | nil => rfl
  | cons line rest ih =>
      cases line with
      | triple depth t => exact congrArg (t.rename names :: ·) ih
      | opening scope => exact ih
      | closing scope => exact ih
      | blank => exact ih
      | note depth text => exact ih
      | marker text => exact ih

end PathQuery
