import PathQuery.Proofs.Query.Frame
import PathQuery.Proofs.Query.Prefixes
import PathQuery.Proofs.Text.Lines

/-! Characters of a query. A character that is none of the query's own, and is in no IRI and no prefix of it, is on no
line but a comment: a line break is such a character, and so is a quote. -/
namespace PathQuery

def Spares (bad : Char → Bool) (s : List Char) : Prop := ∀ c ∈ s, bad c = false

instance (bad : Char → Bool) (s : List Char) : Decidable (Spares bad s) :=
  List.decidableBAll (fun c => bad c = false) s

def codeMarks : List Char := " #(),.:<>?\x7b\x7d*=/-".toList

def isCodeChar (c : Char) : Bool := QueryOptions.isVariableChar c || codeMarks.contains c

structure IsForeign (bad : Char → Bool) : Prop where
  word : ∀ {c}, QueryOptions.isVariableChar c = true → bad c = false
  mark : ∀ c ∈ codeMarks, bad c = false

def NamespaceTable.Spares (bad : Char → Bool) (namespaces : NamespaceTable) : Prop :=
  ∀ e ∈ namespaces.entries, PathQuery.Spares bad e.label.toList ∧ PathQuery.Spares bad e.iri.toList

instance (bad : Char → Bool) (namespaces : NamespaceTable) : Decidable (namespaces.Spares bad) :=
  inferInstanceAs (Decidable (∀ e ∈ namespaces.entries,
    PathQuery.Spares bad e.label.toList ∧ PathQuery.Spares bad e.iri.toList))

theorem breakForeign : IsForeign Text.isBreak := ⟨wordCharUnbroken,by decide⟩

variable {bad : Char → Bool}

theorem sparesAppend {a b : List Char} (first : Spares bad a) (second : Spares bad b) : Spares bad (a ++ b) :=
  List.forall_mem_append.mpr ⟨first,second⟩

theorem sparesJoined (feed : bad '\n' = false) {lines : List (List Char)} (each : ∀ line ∈ lines, Spares bad line) :
    Spares bad (Text.joinLines lines) := by
  intro c member
  rcases memJoined member with rfl | ⟨line,there,inside⟩
  · exact feed
  · exact each line there c inside

section

variable (foreign : IsForeign bad) {namespaces : NamespaceTable}

include foreign

theorem sparesCode {s : List Char} (code : s.all isCodeChar = true) : Spares bad s :=
  fun c member => (Bool.or_eq_true_iff.mp (List.all_eq_true.mp code c member)).elim foreign.word fun mark =>
    foreign.mark c (List.contains_iff_mem.mp mark)

theorem sparesWord {s : List Char} (word : IsWord s) : Spares bad s := fun c member => foreign.word (word.2 c member)

theorem sparesSpaces {margin : List Char} (spaces : ∀ c ∈ margin, c = ' ') : Spares bad margin := by
  intro c member
  rw [spaces c member]
  exact foreign.mark ' ' (by decide)

theorem sparesVariable {name : List Char} (word : IsWord name) : Spares bad ('?' :: name) :=
  sparesAppend (a := ['?']) (sparesCode foreign (by decide)) (sparesWord foreign word)

theorem sparesSpaced {a b : List Char} (first : Spares bad a) (second : Spares bad b) : Spares bad (a ++ ' ' :: b) :=
  sparesAppend first (sparesAppend (a := [' ']) (sparesCode foreign (by decide)) second)

theorem sparesCompact (spares : namespaces.Spares bad) {iri : String} (chars : Spares bad iri.toList) :
    Spares bad (namespaces.compact iri).toList := by
  by_cases kind : iri = rdfType
  · rw [kind,NamespaceTable.compactKind]
    exact sparesCode foreign (by decide)
  · cases found : namespaces.match? iri with
    | none =>
        rw [NamespaceTable.compactFull kind found]
        exact sparesAppend (a := ['<']) (sparesCode foreign (by decide))
          (sparesAppend chars (sparesCode foreign (by decide)))
    | some pair =>
        obtain ⟨e,member,label,rfl,_⟩ := NamespaceTable.matchSpells found
        rw [NamespaceTable.compactShort kind found,← label]
        refine sparesAppend (spares e member).1
          (sparesAppend (a := [':']) (sparesCode foreign (by decide)) fun c there => ?_)
        exact chars c (by rw [String.toList_append]; exact List.mem_append_right _ there)

theorem sparesKind : Spares bad rdfType.toList := sparesCode foreign (by decide +kernel)

theorem sparesTriple (spares : namespaces.Spares bad) {t : Triple}
    (formed : t.Formed fun iri => Spares bad iri.toList) : Spares bad (t.text namespaces) := by
  have stop : Spares bad [' ','.'] := sparesCode foreign (by decide)
  have spaced : ∀ {a b c : List Char}, Spares bad a → Spares bad b → Spares bad c →
      Spares bad (a ++ ' ' :: b ++ ' ' :: c ++ [' ','.']) := fun first second third =>
    sparesAppend (sparesSpaced foreign (sparesSpaced foreign first second) third) stop
  cases formed with
  | kind word fit =>
      exact spaced (sparesVariable foreign word) (sparesCompact foreign spares (sparesKind foreign))
        (sparesCompact foreign spares fit)
  | link start fit stop =>
      exact spaced (sparesVariable foreign start) (sparesCompact foreign spares fit) (sparesVariable foreign stop)

theorem sparesSelect {b : CountBlock} (parent : ∀ p ∈ b.parent, IsWord p.toList) (counted : IsWord b.counted.toList)
    (raw : IsWord b.raw.toList) : Spares bad b.select := by
  have code : ∀ {s : List Char}, s.all isCodeChar = true → Spares bad s := sparesCode foreign
  have key : Spares bad (b.parent.elim [] fun p => '?' :: p.toList ++ [' ']) := by
    cases given : b.parent with
    | none => exact List.forall_mem_nil _
    | some p => exact sparesAppend (sparesVariable foreign (parent p given)) (code (by decide))
  unfold CountBlock.select
  refine sparesAppend (sparesAppend (sparesAppend (sparesAppend (sparesAppend (sparesAppend ?_ key) ?_)
    (sparesWord foreign counted)) ?_) (sparesWord foreign raw)) ?_ <;> exact code (by decide)

theorem sparesColumn {c : Projection} (plain : c.Plain) : Spares bad c.text := by
  have code : ∀ {s : List Char}, s.all isCodeChar = true → Spares bad s := sparesCode foreign
  have margin : Spares bad (indent c.depth) := sparesSpaces foreign fun _ => List.eq_of_mem_replicate
  have shown : Spares bad c.expression := by
    unfold Projection.expression
    split
    · next source given =>
      refine sparesAppend (sparesAppend (sparesAppend (sparesAppend ?_ (sparesWord foreign (originWord plain given))) ?_)
        (sparesWord foreign plain.1)) ?_ <;> exact code (by decide)
    · exact sparesVariable foreign plain.1
  refine sparesAppend (sparesAppend margin shown) ?_
  split <;> exact code (by decide)

theorem sparesColumns {columns : List Projection} (plain : ∀ c ∈ columns, c.Plain) :
    ∀ line ∈ Pattern.selectLines columns, Spares bad line := by
  intro line member
  unfold Pattern.selectLines at member
  split at member
  · rw [List.mem_singleton.mp member]
    exact sparesCode foreign (by decide)
  · obtain ⟨c,there,rfl⟩ := List.mem_map.mp member
    exact sparesColumn foreign (plain c there)

theorem sparesDeclaration {e : NamespaceEntry} (label : Spares bad e.label.toList) (iri : Spares bad e.iri.toList) :
    Spares bad (NamespaceTable.declaration e).toList := by
  rw [NamespaceTable.declaration]
  simp only [String.toList_append]
  refine sparesAppend (sparesAppend (sparesAppend (sparesAppend ?_ label) ?_) iri) ?_ <;>
    exact sparesCode foreign (by decide)

theorem sparesEnd {o : QueryOptions} (word : ∀ name ∈ o.orderVariable, IsWord name.toList) :
    ∀ line ∈ o.endLines, Spares bad line := by
  intro line member
  simp only [QueryOptions.endLines,List.mem_append,List.mem_map,Option.mem_toList] at member
  rcases member with ⟨name,given,rfl⟩ | ⟨n,_,rfl⟩
  · refine sparesAppend (sparesAppend (sparesAppend (sparesAppend ?_ ?_) ?_) (sparesWord foreign (word name given))) ?_
    · exact sparesCode foreign (by decide)
    · exact sparesCode foreign (by cases o.orderDirection <;> decide)
    · exact sparesCode foreign (by decide)
    · exact sparesCode foreign (by decide)
  · exact sparesAppend (sparesCode foreign (by decide)) (sparesWord foreign (digitsWord n))

theorem sparesSolid (spares : namespaces.Spares bad) {line : Line} (solid : line.isSolid = true)
    (formed : ∀ t ∈ line.triple?, t.Formed fun iri => Spares bad iri.toList) : Spares bad (line.text namespaces) := by
  have margin : ∀ depth, Spares bad (indent depth) := fun _ =>
    sparesSpaces foreign fun _ => List.eq_of_mem_replicate
  cases line with
  | opening scope => exact sparesAppend (margin _) (sparesCode foreign (by decide))
  | closing scope => exact sparesAppend (margin _) (sparesCode foreign (by decide))
  | triple depth t => exact sparesAppend (margin _) (sparesTriple foreign spares (formed t rfl))
  | blank => contradiction
  | note depth text => contradiction
  | marker text => contradiction

theorem sparesGroup {b : CountBlock} (parent : ∀ p ∈ b.parent, IsWord p.toList) :
    ∀ line ∈ b.groupBy, Spares bad line := by
  intro line member
  obtain ⟨p,given,rfl⟩ := Option.map_eq_some_iff.mp member
  exact sparesAppend (sparesCode foreign (by decide)) (sparesWord foreign (parent p given))

theorem sparesBlock {b : CountBlock} (bare : b.comment = none) (select : Spares bad b.select)
    (group : ∀ line ∈ b.groupBy, Spares bad line) (body : ∀ line ∈ b.body, Spares bad (line.text namespaces)) :
    ∀ line ∈ b.lines namespaces, Spares bad line := by
  have code : ∀ {s : List Char}, s.all isCodeChar = true → Spares bad s := sparesCode foreign
  have inner : Spares bad (if b.optional then "    ".toList else "  ".toList) := by split <;> exact code (by decide)
  have gap : Spares bad (if b.optional then [] else "  ".toList) := by split <;> exact code (by decide)
  have scope : ∀ ending : List Char, Spares bad ending →
      ∀ line ∈ (if b.optional then ["  ".toList ++ ending] else []), Spares bad line := by
    intro ending plain line member
    split at member
    · exact List.mem_singleton.mp member ▸ sparesAppend (code (by decide)) plain
    · exact absurd member List.not_mem_nil
  have laid : ∀ line ∈ b.body,
      Spares bad (indented (if b.optional then "    ".toList else "  ".toList) (line.text namespaces)) := by
    intro line member
    unfold indented
    split
    · exact List.forall_mem_nil _
    · exact sparesAppend inner (body line member)
  unfold CountBlock.lines blockLines
  simp only [bare,Option.map_none,Option.filter_none,Option.toList_none,List.map_nil,List.nil_append,
    List.forall_mem_append,List.forall_mem_cons,List.forall_mem_map,Option.mem_toList]
  refine ⟨⟨⟨⟨⟨⟨scope _ (code (by decide)),?_,?_,?_,List.forall_mem_nil _⟩,laid⟩,?_,List.forall_mem_nil _⟩,?_⟩,?_,
    List.forall_mem_nil _⟩,scope _ (code (by decide))⟩
  · exact sparesAppend inner (code (by decide))
  · exact sparesAppend (sparesAppend inner gap) select
  · exact sparesAppend inner (code (by decide))
  · exact sparesAppend inner (code (by decide))
  · intro line member
    have kept := (Option.filter_eq_some_iff.mp member).1
    exact sparesAppend (sparesAppend inner (code (by decide))) (group line kept)
  · exact sparesAppend inner (code (by decide))

end

end PathQuery
