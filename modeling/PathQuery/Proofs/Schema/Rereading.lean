import Mathlib.Data.List.TakeWhile
import PathQuery.Proofs.Attempts
import PathQuery.Proofs.Text.Lines
import PathQuery.Schema.Model

/-! Path models that are written and read again. What reading trims, cleans and settles stays as it is, so that a
model comes back whole: the same ids in the same order, each with the same element. -/
namespace PathQuery

theorem Text.trimEndKeeps {s : List Char} {c : Char} (member : c ∈ s) (visible : Text.isBlank c = false) :
    c ∈ Text.trimEnd s := by
  induction s with
  | nil => nomatch member
  | cons d rest ih =>
      rw [Text.trimEnd]
      rcases List.mem_cons.mp member with rfl | later
      · split
        · simp [visible]
        · exact List.mem_cons_self
      · have kept := ih later
        split
        · next none => rw [none] at kept; nomatch kept
        · next some_ => exact List.mem_cons_of_mem _ kept

theorem Text.trimKeeps {s : List Char} {c : Char} (member : c ∈ s) (visible : Text.isBlank c = false) :
    c ∈ Text.trim s := by
  refine Text.trimEndKeeps ?_ visible
  rw [← List.takeWhile_append_dropWhile (p := Text.isBlank) (l := s)] at member
  rcases List.mem_append.mp member with margin | rest
  · rw [List.mem_takeWhile_imp margin] at visible
    contradiction
  · exact rest

theorem Text.blankTrimmed {s : String} (blank : Text.allBlank (Text.strip s).toList = true) :
    Text.allBlank s.toList = true := by
  refine List.all_eq_true.mpr fun c member => ?_
  cases visible : Text.isBlank c with
  | true => rfl
  | false =>
      have kept : c ∈ (Text.strip s).toList := by
        rw [Text.strip,String.toList_ofList]
        exact Text.trimKeeps member visible
      exact absurd (List.all_eq_true.mp blank c kept) (by simp [visible])

theorem cleanTokensAgain (items : List Value) :
    cleanTokens ((cleanTokens items).map .text) = cleanTokens items := by
  unfold cleanTokens
  rw [List.filterMap_map,List.filterMap_filterMap]
  refine List.filterMap_congr fun item _ => ?_
  cases item with
  | text s =>
      simp only
      split
      · rfl
      · next visible =>
        have solid := mt Text.blankTrimmed visible
        simp [solid,stripAgain]
  | _ => rfl

theorem Classification.ofValueLabel (c : Classification) : Classification.ofValue (.text c.label) = .ok c := by
  cases c <;> decide

namespace PathElement

structure Trimmed (e : PathElement) : Prop where
  named : e.id ≠ ""
  id : Text.strip e.id = e.id
  typeIri : Text.strip e.typeIri = e.typeIri
  name : Text.strip e.name = e.name
  parent : ∀ id ∈ e.parent, Text.strip id = id
  path : cleanTokens (e.path.map .text) = e.path

theorem heldLabelTrimmed (fields : List (String × Value)) (name : String) :
    Text.strip (heldLabel fields name) = heldLabel fields name := by
  unfold heldLabel
  simp only
  split
  · exact stripAgain _
  · rfl

theorem parentTrimmed (value : Value) :
    ∀ id ∈ (match value with | .null => none | value => some value.label : Option String), Text.strip id = id := by
  intro id given
  split at given
  · contradiction
  · cases given
    exact stripAgain _

theorem cleanPathTrimmed {value : Value} {path : List String} (cleaned : cleanPath value = .ok path) :
    cleanTokens (path.map .text) = path := by
  unfold cleanPath at cleaned
  split at cleaned
  · cases cleaned
    rfl
  · cases cleaned
    rfl
  · obtain ⟨items,_,same⟩ := bindOk.mp cleaned
    cases same
    exact cleanTokensAgain items

theorem elementTrimmed {key : Option String} {value : Value} {e : PathElement}
    (read : PathElement.ofValue key value = .ok e) : e.Trimmed := by
  unfold PathElement.ofValue at read
  split at read
  · next fields =>
    simp only at read
    split at read
    · contradiction
    · next named =>
      split at read <;>
        (obtain ⟨multiple,_,read⟩ := bindOk.mp read
         obtain ⟨classification,_,read⟩ := bindOk.mp read
         obtain ⟨path,cleaned,read⟩ := bindOk.mp read
         cases read
         exact ⟨named,stripAgain _,heldLabelTrimmed fields "type",heldLabelTrimmed fields "name",
           parentTrimmed _,cleanPathTrimmed cleaned⟩)
  · contradiction

theorem elementOf {key : Option String} {fields : List (String × Value)} {e : PathElement} (named : e.id ≠ "")
    (id : idOf fields key = e.id) (typeIri : heldLabel fields "type" = e.typeIri)
    (multiple : Value.member fields "multiple" = .flag e.multiple)
    (classification : Value.member fields "classification" = .text e.classification.label)
    (name : heldLabel fields "name" = e.name)
    (parent : eitherMember fields "parent" "group_id" = Value.ofOption .text e.parent)
    (trimmed : ∀ id ∈ e.parent, Text.strip id = id)
    (path : cleanPath (eitherMember fields "path" "path_array") = .ok e.path) :
    PathElement.ofValue key (.mapping fields) = .ok e := by
  simp only [PathElement.ofValue,id,typeIri,multiple,classification,name,parent,path]
  rw [if_neg named,if_neg (by simp),if_neg (by simp)]
  simp only [Value.toFlagOfFlag,Classification.ofValueLabel,bind,Except.bind]
  obtain ⟨_,_,_,_,_,above,_⟩ := e
  cases above with
  | none => rfl
  | some group =>
      have same : (Value.text group).label = group := trimmed group rfl
      simp only [Value.ofOption,same]

theorem trimmedElementReread {e : PathElement} (trimmed : e.Trimmed) (key : Option String) :
    PathElement.ofValue key e.toValue = .ok e := by
  obtain ⟨named,id,typeIri,name,parent,path⟩ := trimmed
  have held : ∀ s : String, Text.strip s = s →
      (if (Value.text s).holds then (Value.text s).label else "") = s := by
    intro s trimmed
    by_cases empty : s = "" <;> simp [Value.holds,empty,Value.label,Value.bareText,trimmed]
  refine elementOf named ?_ (held _ typeIri) rfl rfl (held _ name) rfl parent ?_
  · change Text.strip (if (Value.text e.id).holds then e.id else key.getD "") = e.id
    rw [if_pos (by simpa [Value.holds] using named),id]
  · exact congrArg Except.ok path

end PathElement

namespace PathModel

structure Trimmed (m : PathModel) : Prop where
  distinct : m.ids.Nodup
  filed : ∀ entry ∈ m.elements.entries, entry.1 = entry.2.id
  elements : ∀ entry ∈ m.elements.entries, entry.2.Trimmed

theorem listTrimmed {elements : List PathElement} (trimmed : ∀ e ∈ elements, e.Trimmed) :
    (ofList elements).Trimmed := by
  have made : ∀ entry ∈ (ofList elements).elements.entries, ∃ e ∈ elements, (e.id,e) = entry := fun entry member =>
    List.mem_map.mp (Table.memOfList member)
  refine ⟨Table.ofListNodup _,fun entry member => ?_,fun entry member => ?_⟩
  · obtain ⟨e,_,rfl⟩ := made entry member
    rfl
  · obtain ⟨e,listed,rfl⟩ := made entry member
    exact trimmed e listed

theorem eachTrimmed {α : Type} {read : α → Except Fault PathElement} {items : List α} {elements : List PathElement}
    (trimmed : ∀ item e, read item = .ok e → e.Trimmed) (done : items.mapM read = .ok elements) :
    (ofList elements).Trimmed := by
  refine listTrimmed fun e member => ?_
  obtain ⟨item,_,made⟩ := mapMOk done member
  exact trimmed item e made

theorem modelTrimmed {value : Value} {m : PathModel} (read : PathModel.ofValue value = .ok m) : m.Trimmed := by
  unfold PathModel.ofValue at read
  split at read
  · obtain ⟨elements,done,same⟩ := bindOk.mp read
    cases same
    exact eachTrimmed (fun _ _ => PathElement.elementTrimmed) done
  · obtain ⟨elements,done,same⟩ := bindOk.mp read
    cases same
    exact eachTrimmed (fun _ _ => PathElement.elementTrimmed) done
  · contradiction

/-- A model that was read comes back from what is written of it. -/
theorem modelReread {value : Value} {m : PathModel} (read : PathModel.ofValue value = .ok m) :
    PathModel.ofValue m.toValue = .ok m := by
  obtain ⟨distinct,filed,trimmed⟩ := modelTrimmed read
  let readEntry := fun entry : String × Value =>
    PathElement.ofValue (some entry.1) (if entry.2 = .null then .mapping [] else entry.2)
  have elements : (m.elements.entries.map fun entry => (entry.1,entry.2.toValue)).mapM readEntry =
      .ok m.toList :=
    mapMGiven fun entry member => PathElement.trimmedElementReread (trimmed entry member) (some entry.1)
  have entries : m.toList.map (fun e => (e.id,e)) = m.elements.entries := by
    have same : ∀ entry ∈ m.elements.entries, (entry.2.id,entry.2) = id entry := fun entry member => by
      rw [← filed entry member]
      rfl
    rw [toList,Table.values,List.map_map]
    exact (List.map_congr_left same).trans (List.map_id _)
  calc PathModel.ofValue m.toValue
      = (m.elements.entries.map fun entry => (entry.1,entry.2.toValue)).mapM readEntry >>=
          fun elements => .ok (ofList elements) := rfl
    _ = .ok (ofList m.toList) := by rw [elements]; rfl
    _ = .ok m := by rw [ofList,entries,Table.ofListEntries distinct]

end PathModel

def exportedElements : Value := .mapping
  [("a",.mapping [("group_id",.integer 0),("name",.text " Person "),("is_group",.integer 1)]),
    ("b",.mapping
      [("id",.text " r "),("fieldtype",.text "entity_reference"),("cardinality",.integer (-1)),
        ("group_id",.text " a "),("path_array",.list [.text " urn:A ",.null,.text " ",.text "^urn:p"])]),
    ("c",.mapping [("id",.text "a"),("classification",.text " REF "),("multiple",.text "Yes"),("parent",.null)])]

theorem exportedElementsReread : ∃ m, PathModel.ofValue exportedElements = .ok m ∧
    m.ids = ["a","r"] ∧ PathModel.ofValue m.toValue = .ok m := by
  have evaluated : (PathModel.ofValue exportedElements).map PathModel.ids = .ok ["a","r"] := by decide +kernel
  obtain ⟨m,read,ids⟩ := mapOk evaluated
  exact ⟨m,read,ids,PathModel.modelReread read⟩

end PathQuery
