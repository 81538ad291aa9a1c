import PathQuery.Command.Action
import PathQuery.Proofs.Attempts

/-! Documents that are read, or turned down with a message. A number or a flag in the place of a sequence and an
infinite limit are all that lead to anything else. -/
namespace PathQuery

structure Grave (P : Fault → Prop) : Prop where
  refused : ∀ cause, ¬ P (.refused cause)
  unusable : P .unusable
  infinite : P .infinite

def Strays {α : Type} (P : Fault → Prop) (attempt : Except Fault α) : Prop :=
  ∃ fault, attempt = .error fault ∧ P fault

variable {α β γ δ : Type} {P : Fault → Prop}

theorem neverStraysOk (a : α) : ¬ Strays P (.ok a) := fun ⟨_,same,_⟩ => nomatch same

theorem neverStraysRefused (grave : Grave P) (cause : Refusal) : ¬ Strays P (refuse cause : Except Fault α) := by
  rintro ⟨_,⟨⟩,other⟩
  exact grave.refused cause other

theorem straysBind {first : Except Fault α} {next : α → Except Fault β} :
    Strays P (first >>= next) ↔ Strays P first ∨ ∃ a, first = .ok a ∧ Strays P (next a) := by
  constructor
  · rintro ⟨fault,failed,other⟩
    rcases bindFailed.mp failed with here | ⟨a,done,later⟩
    · exact .inl ⟨fault,here,other⟩
    · exact .inr ⟨a,done,fault,later,other⟩
  · rintro (⟨fault,here,other⟩ | ⟨a,done,fault,later,other⟩)
    · exact ⟨fault,bindFailed.mpr (.inl here),other⟩
    · exact ⟨fault,bindFailed.mpr (.inr ⟨a,done,later⟩),other⟩

theorem straysNext {first : Except Fault α} {next : α → Except Fault β} (safe : ¬ Strays P first) :
    Strays P (first >>= next) ↔ ∃ a, first = .ok a ∧ Strays P (next a) := straysBind.trans (or_iff_right safe)

theorem straysMap {first : Except Fault α} {after : α → β} :
    Strays P (first >>= fun a => .ok (after a)) ↔ Strays P first := by
  rw [straysBind]
  exact or_iff_left fun ⟨a,_,strays⟩ => neverStraysOk _ strays

theorem straysThird {first : Except Fault α} {second : Except Fault β} {third : Except Fault γ}
    {made : α → β → γ → δ} (one : ¬ Strays P first) (two : ¬ Strays P second) :
    Strays P (first >>= fun a => second >>= fun b => third >>= fun c => .ok (made a b c)) ↔
      (∃ a, first = .ok a) ∧ (∃ b, second = .ok b) ∧ Strays P third := by
  rw [straysNext one]
  constructor
  · rintro ⟨a,read,strays⟩
    obtain ⟨b,later,strays⟩ := (straysNext two).mp strays
    exact ⟨⟨a,read⟩,⟨b,later⟩,straysMap.mp strays⟩
  · rintro ⟨⟨a,read⟩,⟨b,later⟩,strays⟩
    exact ⟨a,read,(straysNext two).mpr ⟨b,later,straysMap.mpr strays⟩⟩

theorem straysMapM {step : α → Except Fault β} {items : List α} : Strays P (items.mapM step) ↔
    ∃ before a after, items = before ++ a :: after ∧ (∀ b ∈ before, ∃ done, step b = .ok done) ∧
      Strays P (step a) := by
  constructor
  · rintro ⟨fault,failed,other⟩
    obtain ⟨before,a,after,same,each,here⟩ := mapMFailed.mp failed
    exact ⟨before,a,after,same,each,fault,here,other⟩
  · rintro ⟨before,a,after,same,each,fault,here,other⟩
    exact ⟨fault,mapMFailed.mpr ⟨before,a,after,same,each,here⟩,other⟩

theorem straysFoldlM {step : β → α → Except Fault β} {start : β} {items : List α} :
    Strays P (items.foldlM step start) ↔ ∃ before a after b, items = before ++ a :: after ∧
      before.foldlM step start = .ok b ∧ Strays P (step b a) := by
  constructor
  · rintro ⟨fault,failed,other⟩
    obtain ⟨before,a,after,b,same,done,here⟩ := foldlMFailed.mp failed
    exact ⟨before,a,after,b,same,done,fault,here,other⟩
  · rintro ⟨before,a,after,b,same,done,fault,here,other⟩
    exact ⟨fault,foldlMFailed.mpr ⟨before,a,after,b,same,done,here⟩,other⟩

def Value.isLoose : Value → Bool
  | .flag _ => true
  | .integer _ => true
  | .decimal _ => true
  | _ => false

theorem straysItems (grave : Grave P) {value : Value} :
    Strays P value.toItems ↔ value = .null ∨ value.isLoose = true := by
  have unusable : Strays P (.error .unusable : Except Fault (List Value)) := ⟨.unusable,rfl,grave.unusable⟩
  cases value with
  | null => exact iff_of_true unusable (.inl rfl)
  | flag b => exact iff_of_true unusable (.inr rfl)
  | integer n => exact iff_of_true unusable (.inr rfl)
  | decimal x => exact iff_of_true unusable (.inr rfl)
  | text s => exact iff_of_false (neverStraysOk _) (by simp [Value.isLoose])
  | list items => exact iff_of_false (neverStraysOk _) (by simp [Value.isLoose])
  | mapping fields => exact iff_of_false (neverStraysOk _) (by simp [Value.isLoose])

theorem neverStraysFlag (grave : Grave P) (name : String) (value : Value) : ¬ Strays P (value.toFlag name) := by
  fun_cases Value.toFlag name value <;> first | exact neverStraysOk _ | exact neverStraysRefused grave _

theorem neverStraysClassification (grave : Grave P) (value : Value) : ¬ Strays P (Classification.ofValue value) := by
  unfold Classification.ofValue
  simp only
  split
  · exact neverStraysOk _
  · exact neverStraysRefused grave _

theorem straysPath (grave : Grave P) {value : Value} : Strays P (cleanPath value) ↔ value.isLoose = true := by
  fun_cases cleanPath value with
  | case1 => exact iff_of_false (neverStraysOk _) (by simp [Value.isLoose])
  | case2 => exact iff_of_false (neverStraysOk _) (by simp [Value.isLoose])
  | case3 value filled _ => exact straysMap.trans ((straysItems grave).trans (or_iff_right filled))

inductive PathElement.Breaks (key : Option String) : Value → Prop where
  | path {fields : List (String × Value)} (named : idOf fields key ≠ "")
      (multiple : ∃ b, (Value.member fields "multiple").toFlag "multiple" = .ok b)
      (classified : ∃ c, Classification.ofValue (Value.member fields "classification") = .ok c)
      (loose : (eitherMember fields "path" "path_array").isLoose = true) : Breaks key (.mapping fields)

theorem impliedRead (fields : List (String × Value)) :
    ∃ c, Classification.ofValue (PathElement.impliedClassification fields) = .ok c := by
  fun_cases PathElement.impliedClassification fields with
  | case1 => exact ⟨.root,by decide +kernel⟩
  | case2 => exact ⟨.group,by decide +kernel⟩
  | case3 => exact ⟨.reference,by decide +kernel⟩
  | case4 => exact ⟨.field,by decide +kernel⟩

theorem givenRead (fields : List (String × Value)) {given : Value} :
    (∃ c, Classification.ofValue (if given = .null then PathElement.impliedClassification fields else given) = .ok c) ↔
      ∃ c, Classification.ofValue given = .ok c := by
  split
  · next absent =>
    subst absent
    exact iff_of_true (impliedRead fields) ⟨.field,by decide +kernel⟩
  · rfl

theorem straysElement (grave : Grave P) {key : Option String} {value : Value} :
    Strays P (PathElement.ofValue key value) ↔ PathElement.Breaks key value := by
  cases value with
  | mapping fields =>
      unfold PathElement.ofValue
      simp only
      split
      · next unnamed =>
        refine iff_of_false (fun strays => ?_) fun ⟨named,_,_,_⟩ => named unnamed
        obtain ⟨_,never,_⟩ := (straysNext (neverStraysRefused grave _)).mp strays
        contradiction
      · next named =>
        split
        · next absent =>
          rw [straysThird (neverStraysOk _) (neverStraysClassification grave _),givenRead,straysPath grave]
          constructor
          · rintro ⟨_,classified,loose⟩
            exact .path named (absent ▸ ⟨false,rfl⟩) classified loose
          · rintro ⟨_,_,classified,loose⟩
            exact ⟨⟨_,rfl⟩,classified,loose⟩
        · rw [straysThird (neverStraysFlag grave _ _) (neverStraysClassification grave _),givenRead,straysPath grave]
          constructor
          · rintro ⟨multiple,classified,loose⟩
            exact .path named multiple classified loose
          · rintro ⟨_,multiple,classified,loose⟩
            exact ⟨multiple,classified,loose⟩
  | _ => exact iff_of_false (neverStraysRefused grave _) (nofun)

namespace PathModel

def entriesOf : Value → List (Option String × Value)
  | .mapping fields => fields.map fun (key,value) => (some key,if value = .null then .mapping [] else value)
  | .list items => items.map (none,·)
  | _ => []

inductive Breaks (value : Value) : Prop where
  | element {before after : List (Option String × Value)} {key : Option String} {entry : Value}
      (parts : entriesOf value = before ++ (key,entry) :: after)
      (read : ∀ other ∈ before, ∃ e, PathElement.ofValue other.1 other.2 = .ok e)
      (breaks : PathElement.Breaks key entry)

end PathModel

theorem straysEntries (grave : Grave P) {value : Value} :
    Strays P ((PathModel.entriesOf value).mapM fun entry => PathElement.ofValue entry.1 entry.2) ↔
      PathModel.Breaks value := by
  rw [straysMapM]
  constructor
  · rintro ⟨before,entry,after,parts,read,strays⟩
    exact .element parts read ((straysElement grave).mp strays)
  · rintro ⟨parts,read,breaks⟩
    exact ⟨_,_,_,parts,read,(straysElement grave).mpr breaks⟩

theorem straysModel (grave : Grave P) {value : Value} :
    Strays P (PathModel.ofValue value) ↔ PathModel.Breaks value := by
  rw [← straysEntries grave]
  cases value with
  | mapping fields => exact straysMap.trans (by rw [PathModel.entriesOf,List.mapM_map]; rfl)
  | list items => exact straysMap.trans (by rw [PathModel.entriesOf,List.mapM_map]; rfl)
  | _ => exact iff_of_false (neverStraysRefused grave _) (neverStraysOk _)

theorem neverStraysSection (grave : Grave P) (fields : List (String × Value)) (name : String) :
    ¬ Strays P (SelectionGraph.listSection fields name) := by
  unfold SelectionGraph.listSection
  split
  · exact neverStraysOk _
  · exact neverStraysOk _
  · exact neverStraysRefused grave _

theorem neverStraysEdge (grave : Grave P) (model : PathModel) (nodes : List SelectedNode) (value : Value) :
    ¬ Strays P (SelectionGraph.readEdge model nodes value) := by
  unfold SelectionGraph.readEdge
  split
  · simp only
    split
    · split
      · exact fun strays => neverStraysOk _ (straysMap.mp strays)
      · exact fun strays => neverStraysFlag grave _ _ (straysMap.mp strays)
    · exact neverStraysOk _
  · exact neverStraysRefused grave _

theorem neverStraysSelection (grave : Grave P) (model : PathModel) (value : Value) :
    ¬ Strays P (SelectionGraph.ofValue model value) := by
  cases value with
  | mapping fields =>
      intro strays
      obtain ⟨nodes,_,strays⟩ := (straysNext (neverStraysSection grave _ _)).mp strays
      obtain ⟨links,_,strays⟩ := (straysNext (neverStraysSection grave _ _)).mp strays
      have edges : ¬ Strays P (links.mapM (SelectionGraph.readEdge model
          (SelectionGraph.readNodes model [] nodes))) := by
        rw [straysMapM]
        rintro ⟨_,edge,_,_,_,strays⟩
        exact neverStraysEdge grave _ _ edge strays
      obtain ⟨_,_,strays⟩ := (straysNext edges).mp strays
      exact neverStraysSection grave _ _ (straysMap.mp strays)
  | _ => exact neverStraysRefused grave _

namespace NamespaceTable

inductive Breaks (value : Value) : Prop where
  | table (loose : value = .null ∨ value.isLoose = true)
  | pair {items before after : List Value} {pair : Value} (sequence : value.toItems = .ok items)
      (parts : items = before ++ pair :: after) (read : ∀ other ∈ before, ∃ e, entryOf other = .ok e)
      (loose : pair = .null ∨ pair.isLoose = true)

end NamespaceTable

theorem straysPair (grave : Grave P) {value : Value} :
    Strays P (NamespaceTable.pairOf value) ↔ value = .null ∨ value.isLoose = true := by
  unfold NamespaceTable.pairOf
  split
  · exact iff_of_false (neverStraysOk _) (by simp [Value.isLoose])
  · rw [straysBind,straysItems grave]
    refine or_iff_left fun ⟨items,_,strays⟩ => ?_
    split at strays
    · exact neverStraysOk _ strays
    · exact neverStraysRefused grave _ strays
    · exact neverStraysRefused grave _ strays

theorem straysEntry (grave : Grave P) {value : Value} :
    Strays P (NamespaceTable.entryOf value) ↔ value = .null ∨ value.isLoose = true := by
  unfold NamespaceTable.entryOf
  rw [straysBind,straysPair grave]
  refine or_iff_left fun ⟨(label,iri),_,strays⟩ => ?_
  simp only at strays
  split at strays
  · exact neverStraysOk _ strays
  · exact neverStraysRefused grave _ strays

theorem straysNamespaces (grave : Grave P) {value : Value} :
    Strays P (NamespaceTable.ofValue value) ↔ NamespaceTable.Breaks value := by
  unfold NamespaceTable.ofValue
  rw [straysBind,straysItems grave]
  constructor
  · rintro (loose | ⟨items,sequence,strays⟩)
    · exact .table loose
    · obtain ⟨before,pair,after,parts,read,strays⟩ := straysMapM.mp (straysMap.mp strays)
      exact .pair sequence parts read ((straysEntry grave).mp strays)
  · rintro (loose | ⟨sequence,parts,read,loose⟩)
    · exact .inl loose
    · exact .inr ⟨_,sequence,straysMap.mpr (straysMapM.mpr ⟨_,_,_,parts,read,(straysEntry grave).mpr loose⟩)⟩

namespace QueryOptions

def settingsOf (fields : List (String × Value)) : Except Fault Settings :=
  fields.foldlM (fun s field => s.set field.1 field.2) Settings.unset

inductive Breaks (fields : List (String × Value)) : Prop where
  | namespaces {before after : List (String × Value)} {s : Settings} {name : String} {value : Value}
      (parts : fields = before ++ (name,value) :: after) (read : settingsOf before = .ok s)
      (named : settingNamed name = some .namespaces) (held : value.holds = true)
      (breaks : NamespaceTable.Breaks value)
  | limit {s : Settings} {negative : Bool} (read : settingsOf fields = .ok s)
      (direction : ∃ d, directionOf s.orderDirection = .ok d)
      (order : ∀ given ∈ s.orderVariable, ∃ name, variableOf given = .ok name)
      (infinite : s.limit = .decimal (.infinite negative))

end QueryOptions

theorem straysSet (grave : Grave P) {s : QueryOptions.Settings} {name : String} {value : Value} :
    Strays P (s.set name value) ↔
      QueryOptions.settingNamed name = some .namespaces ∧ value.holds = true ∧ NamespaceTable.Breaks value := by
  by_cases named : QueryOptions.settingNamed name = some .namespaces
  · unfold QueryOptions.Settings.set
    rw [named]
    simp only
    split
    · next held => simp [straysMap,straysNamespaces grave,held]
    · next empty => exact iff_of_false (neverStraysOk _) (by simp [empty])
  · have flag : ∀ {after : Bool → QueryOptions.Settings},
        ¬ Strays P (value.toFlag name >>= fun b => .ok (after b)) :=
      fun strays => neverStraysFlag grave name value (straysMap.mp strays)
    refine iff_of_false ?_ fun both => named both.1
    unfold QueryOptions.Settings.set
    split <;> first | exact neverStraysOk _ | exact flag | contradiction

theorem neverStraysDirection (grave : Grave P) (word : Option String) : ¬ Strays P (QueryOptions.directionOf word) := by
  fun_cases QueryOptions.directionOf word <;> first | exact neverStraysOk _ | exact neverStraysRefused grave _

theorem neverStraysVariable (grave : Grave P) (name : String) : ¬ Strays P (QueryOptions.variableOf name) := by
  fun_cases QueryOptions.variableOf name <;> first | exact neverStraysOk _ | exact neverStraysRefused grave _

theorem infiniteInteger {value : Value} :
    value.toInteger = .error .infinite ↔ ∃ negative, value = .decimal (.infinite negative) := by
  fun_cases Value.toInteger value with
  | case3 x n whole =>
      refine iff_of_false nofun ?_
      rintro ⟨_,⟨⟩⟩
      contradiction
  | case4 x endless =>
      cases x with
      | finite negative m e => contradiction
      | infinite negative => exact iff_of_true rfl ⟨negative,rfl⟩
  | _ => simp_all [refuse]

theorem straysLimit (grave : Grave P) {value : Value} :
    Strays P (QueryOptions.limitOf value) ↔ ∃ negative, value = .decimal (.infinite negative) := by
  rw [← infiniteInteger]
  fun_cases QueryOptions.limitOf value with
  | case1 b => exact iff_of_false (neverStraysOk _) nofun
  | case2 value _ n read => exact iff_of_false (neverStraysOk _) (by simp [read])
  | case3 value _ infinite => exact iff_of_true ⟨_,rfl,grave.infinite⟩ infinite
  | case4 value _ fault other read => exact iff_of_false (neverStraysOk _) (by simpa [read] using other)

theorem straysSettings (grave : Grave P) {s : QueryOptions.Settings} : Strays P (QueryOptions.ofSettings s) ↔
    (∃ d, QueryOptions.directionOf s.orderDirection = .ok d) ∧
      (∀ given ∈ s.orderVariable, ∃ name, QueryOptions.variableOf given = .ok name) ∧
        ∃ negative, s.limit = .decimal (.infinite negative) := by
  have direction := neverStraysDirection grave s.orderDirection
  rw [← straysLimit grave]
  unfold QueryOptions.ofSettings
  cases s.orderVariable with
  | none => exact (straysThird direction (neverStraysOk _)).trans (by simp)
  | some given => exact (straysThird direction (neverStraysVariable grave given)).trans (by simp)

theorem straysFields (grave : Grave P) {fields : List (String × Value)} :
    Strays P (QueryOptions.ofFields fields) ↔ QueryOptions.Breaks fields := by
  unfold QueryOptions.ofFields
  rw [straysBind,straysFoldlM]
  constructor
  · rintro (⟨before,⟨name,value⟩,after,s,parts,read,strays⟩ | ⟨s,read,strays⟩)
    · obtain ⟨named,held,breaks⟩ := (straysSet grave).mp strays
      exact .namespaces parts read named held breaks
    · obtain ⟨direction,order,_,infinite⟩ := (straysSettings grave).mp strays
      exact .limit read direction order infinite
  · rintro (⟨parts,read,named,held,breaks⟩ | ⟨read,direction,order,infinite⟩)
    · exact .inl ⟨_,_,_,_,parts,read,(straysSet grave).mpr ⟨named,held,breaks⟩⟩
    · exact .inr ⟨_,read,(straysSettings grave).mpr ⟨direction,order,_,infinite⟩⟩

namespace SelectionDocument

def optionFields (fields : List (String × Value)) : Option (List (String × Value)) :=
  match sectionOf fields "options" with
  | .mapping options =>
      let namespaces := Value.member fields "namespaces"
      some (if namespaces.holds then Table.put "namespaces" namespaces options else options)
  | _ => none

inductive Breaks : Value → Prop where
  | paths {fields : List (String × Value)} (breaks : PathModel.Breaks (sectionOf fields "paths")) :
      Breaks (.mapping fields)
  | options {fields options : List (String × Value)} {model : PathModel} {selection : SelectionGraph}
      (modelled : PathModel.ofValue (sectionOf fields "paths") = .ok model)
      (selected : SelectionGraph.ofValue model (sectionOf fields "selection") = .ok selection)
      (given : optionFields fields = some options) (breaks : QueryOptions.Breaks options) :
      Breaks (.mapping fields)
  | explicit {fields : List (String × Value)} {model : PathModel} {selection : SelectionGraph} {o : QueryOptions}
      (modelled : PathModel.ofValue (sectionOf fields "paths") = .ok model)
      (selected : SelectionGraph.ofValue model (sectionOf fields "selection") = .ok selection)
      (shaped : optionsOf fields = .ok o)
      (loose : (explicitMember (sectionOf fields "selection")).isLoose = true) : Breaks (.mapping fields)

end SelectionDocument

theorem straysOptions (grave : Grave P) {fields : List (String × Value)} :
    Strays P (SelectionDocument.optionsOf fields) ↔
      ∃ options, SelectionDocument.optionFields fields = some options ∧ QueryOptions.Breaks options := by
  unfold SelectionDocument.optionsOf SelectionDocument.optionFields
  cases SelectionDocument.sectionOf fields "options" with
  | mapping options => simp [straysFields grave]
  | _ => exact iff_of_false (neverStraysRefused grave _) (by simp)

theorem straysExplicit (grave : Grave P) {selection : SelectionGraph} {value : Value} :
    Strays P (SelectionDocument.explicitOf selection value) ↔ value.isLoose = true := by
  fun_cases SelectionDocument.explicitOf selection value with
  | case1 => exact iff_of_false (neverStraysOk _) (by simp [Value.isLoose])
  | case2 value filled => exact straysMap.trans ((straysItems grave).trans (or_iff_right filled))

theorem straysDocument (grave : Grave P) {value : Value} :
    Strays P (SelectionDocument.ofValue value) ↔ SelectionDocument.Breaks value := by
  cases value with
  | mapping fields =>
      unfold SelectionDocument.ofValue
      rw [straysBind,straysModel grave]
      constructor
      · rintro (breaks | ⟨model,modelled,strays⟩)
        · exact .paths breaks
        · obtain ⟨selection,selected,strays⟩ := (straysNext (neverStraysSelection grave _ _)).mp strays
          rcases straysBind.mp strays with strays | ⟨o,shaped,strays⟩
          · obtain ⟨options,given,breaks⟩ := (straysOptions grave).mp strays
            exact .options modelled selected given breaks
          · exact .explicit modelled selected shaped ((straysExplicit grave).mp (straysMap.mp strays))
      · rintro (breaks | ⟨modelled,selected,given,breaks⟩ | ⟨modelled,selected,shaped,loose⟩)
        · exact .inl breaks
        · refine .inr ⟨_,modelled,(straysNext (neverStraysSelection grave _ _)).mpr ⟨_,selected,?_⟩⟩
          exact straysBind.mpr (.inl ((straysOptions grave).mpr ⟨_,given,breaks⟩))
        · refine .inr ⟨_,modelled,(straysNext (neverStraysSelection grave _ _)).mpr ⟨_,selected,?_⟩⟩
          exact straysBind.mpr (.inr ⟨_,shaped,straysMap.mpr ((straysExplicit grave).mpr loose)⟩)
  | _ => exact iff_of_false (neverStraysRefused grave _) (nofun)

theorem graveOther : Grave fun fault => ∀ cause, fault ≠ .refused cause where
  refused cause other := other cause rfl
  unusable _ := Fault.noConfusion
  infinite _ := Fault.noConfusion

theorem graveSilent : Grave fun fault => Command.errorLine fault = none where
  refused _ := nofun
  unusable := rfl
  infinite := rfl

/-- A document is read or refused just if it does not break, and one that breaks is all that a command ends at
without an error line. -/
theorem documentReportedIff (value : Value) :
    (((∃ d, SelectionDocument.ofValue value = .ok d) ∨
        ∃ cause, SelectionDocument.ofValue value = .error (.refused cause)) ↔ ¬ SelectionDocument.Breaks value) ∧
      ((∃ fault, SelectionDocument.ofValue value = .error fault ∧ Command.errorLine fault = none) ↔
        SelectionDocument.Breaks value) := by
  refine ⟨?_,straysDocument graveSilent⟩
  rw [← straysDocument graveOther]
  constructor
  · rintro (⟨d,read⟩ | ⟨cause,refused⟩) ⟨fault,failed,other⟩
    · rw [read] at failed
      contradiction
    · exact other cause (Except.error.inj (failed.symm.trans refused))
  · intro stays
    cases result : SelectionDocument.ofValue value with
    | ok d => exact .inl ⟨d,rfl⟩
    | error fault =>
        by_contra neither
        refine stays ⟨fault,result,?_⟩
        rintro cause rfl
        exact neither (.inr ⟨cause,rfl⟩)

theorem loosePathUnreported :
    SelectionDocument.ofValue (.mapping [("paths",.mapping [("x",.mapping [("path",.integer 5)])])]) =
      .error .unusable ∧
    SelectionDocument.ofValue (.mapping [("options",.mapping [("limit",.decimal (.infinite false))])]) =
      .error .infinite ∧
    Command.errorLine .unusable = none ∧ Command.errorLine .infinite = none := by
  decide +kernel

end PathQuery
