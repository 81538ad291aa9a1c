import PathQuery.Proofs.Attempts
import PathQuery.Proofs.Text.Word
import PathQuery.Selection.Reader

/-! The names of the nodes of a selection that was read: each has a visible character, and so each
stands on one line. -/
namespace PathQuery

def Visible (s : String) : Prop := ∃ c ∈ s.toList, Text.isBlank c = false

theorem trimEndVisible {s : List Char} (some_ : Text.trimEnd s ≠ []) :
    ∃ c ∈ Text.trimEnd s, Text.isBlank c = false :=
  ⟨_,List.getLast_mem some_,Text.trimEndLast s _ (List.getLast?_eq_some_getLast some_)⟩

theorem stripVisible {s : String} (filled : Text.strip s ≠ "") : Visible (Text.strip s) := by
  have some_ : Text.trim s.toList ≠ [] := by
    intro none
    exact filled (by simp [Text.strip,none])
  obtain ⟨c,there,visible⟩ := trimEndVisible some_
  refine ⟨c,?_,visible⟩
  rw [Text.strip,String.toList_ofList]
  exact there

theorem labelVisible {value : Value} (filled : value.label ≠ "") : Visible value.label := stripVisible filled

theorem partsFromVisible {isGap : Char → Bool} {s : List Char} (some_ : ∃ c ∈ s, isGap c = false) :
    (Text.partsFrom isGap s).1 ≠ [] ∨ (Text.partsFrom isGap s).2 ≠ [] := by
  induction s with
  | nil => simp at some_
  | cons c rest ih =>
      by_cases gap : isGap c = true
      · have later : ∃ d ∈ rest, isGap d = false := by
          obtain ⟨d,member,solid⟩ := some_
          rcases List.mem_cons.mp member with rfl | member
          · simp [gap] at solid
          · exact ⟨d,member,solid⟩
        refine .inr ?_
        simp only [Text.partsFrom,gap,if_true]
        rcases ih later with part | more
        · rw [if_neg (by simpa using part)]
          simp
        · split
          · exact more
          · simp
      · exact .inl (by simp [Text.partsFrom,gap])

theorem partsVisible {isGap : Char → Bool} {s : List Char} (some_ : ∃ c ∈ s, isGap c = false) :
    Text.parts isGap s ≠ [] := by
  unfold Text.parts
  simp only
  rcases partsFromVisible some_ with part | more
  · rw [if_neg (by simpa using part)]
    simp
  · split
    · exact more
    · simp

theorem memIntercalate {gap : List Char} {parts : List (List Char)} {c : Char}
    (member : c ∈ gap.intercalate parts) : c ∈ gap ∨ ∃ part ∈ parts, c ∈ part := by
  induction parts with
  | nil => simp [List.intercalate] at member
  | cons part rest ih =>
      cases rest with
      | nil => exact .inr ⟨part,by simp,by simpa [List.intercalate] using member⟩
      | cons next more =>
          simp only [List.intercalate,List.intersperse_cons_cons,List.flatten_cons,List.mem_append] at member ih
          rcases member with here | between | later
          · exact .inr ⟨part,by simp,here⟩
          · exact .inl between
          · rcases ih later with h | ⟨other,there,inside⟩
            · exact .inl h
            · exact .inr ⟨other,List.mem_cons_of_mem _ there,inside⟩

theorem joinedWords {s : List Char} (visible : ∃ c ∈ s, Text.isBlank c = false) :
    [' '].intercalate (Text.words s) ≠ [] := by
  unfold Text.words
  cases found : Text.parts Text.isBlank s with
  | nil => exact absurd found (partsVisible visible)
  | cons part more =>
      obtain ⟨filled,_⟩ := Text.partsSolid (show part ∈ Text.parts Text.isBlank s by simp [found])
      cases more <;> simp [List.intercalate,filled]

theorem joinedWordsSpaced (s : List Char) :
    ∀ c ∈ [' '].intercalate (Text.words s), c = ' ' ∨ Text.isBlank c = false := by
  intro c member
  rcases memIntercalate member with gap | ⟨part,there,inside⟩
  · exact .inl (List.mem_singleton.mp gap)
  · exact .inr ((Text.partsSolid there).2 c inside)

theorem nameSpaced {n : SelectedNode} (visible : Visible n.rawName) :
    ∀ c ∈ n.name.toList, c = ' ' ∨ Text.isBlank c = false := by
  have filled := joinedWords visible
  unfold SelectedNode.name
  simp only
  rw [if_neg (by simpa using filled),String.toList_ofList]
  exact joinedWordsSpaced _

theorem elementName {key : Option String} {value : Value} {e : PathElement}
    (read : PathElement.ofValue key value = .ok e) (named : e.name ≠ "") : Visible e.name := by
  unfold PathElement.ofValue at read
  split at read
  · next fields =>
    simp only at read
    split at read
    · contradiction
    · have given : e.name = PathElement.heldLabel fields "name" := by
        split at read <;>
          (obtain ⟨multiple,_,read⟩ := bindOk.mp read
           obtain ⟨classification,_,read⟩ := bindOk.mp read
           obtain ⟨path,_,read⟩ := bindOk.mp read
           cases read
           rfl)
      rw [given] at named ⊢
      simp only [PathElement.heldLabel] at named ⊢
      split at named
      · next holds =>
        rw [if_pos holds]
        exact stripVisible named
      · exact absurd rfl named
  · contradiction

theorem modelNames {paths : Value} {model : PathModel} (read : PathModel.ofValue paths = .ok model) :
    ∀ e ∈ model.elements.values, e.name ≠ "" → Visible e.name := by
  have each : ∀ {elements : List PathElement}, (∀ e ∈ elements, e.name ≠ "" → Visible e.name) →
      ∀ e ∈ (PathModel.ofList elements).elements.values, e.name ≠ "" → Visible e.name := by
    intro elements names e member
    obtain ⟨entry,there,rfl⟩ := Table.valuesOfList member
    obtain ⟨other,listed,rfl⟩ := List.mem_map.mp there
    exact names other listed
  unfold PathModel.ofValue at read
  split at read
  · obtain ⟨elements,done,same⟩ := bindOk.mp read
    cases same
    refine each fun e member => ?_
    obtain ⟨field,_,made⟩ := mapMOk done member
    exact elementName made
  · obtain ⟨elements,done,same⟩ := bindOk.mp read
    cases same
    refine each fun e member => ?_
    obtain ⟨item,_,made⟩ := mapMOk done member
    exact elementName made
  · contradiction

theorem nodeIdsLabels (value : Value) : ∃ own given : Value,
    (SelectionGraph.nodeIdsOf value).1 = own.label ∧ (SelectionGraph.nodeIdsOf value).2 = given.label := by
  unfold SelectionGraph.nodeIdsOf
  split
  · simp only
    split
    · exact ⟨_,_,rfl,rfl⟩
    · exact ⟨_,_,rfl,rfl⟩
  · exact ⟨value,value,rfl,rfl⟩

theorem rawNameVisible {n : SelectedNode} (element : ∀ e ∈ n.element, e.name ≠ "" → Visible e.name)
    (source : n.source ≠ "" → Visible n.source) (id : Visible n.id) : Visible n.rawName := by
  unfold SelectedNode.rawName
  simp only
  split
  · next named =>
    cases found : n.element with
    | none => simp [found] at named
    | some e =>
        rw [found] at named
        exact element e found named
  · split
    · next filled => exact source filled
    · exact id

theorem readNodesNames {model : PathModel}
    (names : ∀ e ∈ model.elements.values, e.name ≠ "" → Visible e.name) (seen : List String)
    (values : List Value) : ∀ n ∈ SelectionGraph.readNodes model seen values, Visible n.rawName := by
  induction values generalizing seen with
  | nil => exact fun _ member => nomatch member
  | cons value rest ih =>
      intro n member
      unfold SelectionGraph.readNodes at member
      obtain ⟨own,given,id,source⟩ := nodeIdsLabels value
      split at member
      next nodeId nodeSource ids =>
        rw [ids] at id source
        simp only at id source
        split at member
        · exact ih seen n member
        · next fresh =>
          rcases List.mem_cons.mp member with rfl | member
          · have kept : nodeId ≠ "" := by
              intro empty
              simp [empty] at fresh
            refine rawNameVisible (fun e found => names e (Table.findValue found)) (fun filled => ?_) ?_
            · rw [source] at filled ⊢
              exact labelVisible filled
            · rw [id] at kept ⊢
              exact labelVisible kept
          · exact ih _ n member

theorem selectionNamesSpaced {paths selection : Value} {model : PathModel} {g : SelectionGraph}
    (modelled : PathModel.ofValue paths = .ok model) (read : SelectionGraph.ofValue model selection = .ok g) :
    ∀ n ∈ g.nodes, ∀ c ∈ n.name.toList, c = ' ' ∨ Text.isBlank c = false := by
  unfold SelectionGraph.ofValue at read
  split at read
  · obtain ⟨nodes,_,read⟩ := bindOk.mp read
    obtain ⟨listed,_,read⟩ := bindOk.mp read
    obtain ⟨edges,_,read⟩ := bindOk.mp read
    obtain ⟨count,_,read⟩ := bindOk.mp read
    cases read
    exact fun n member => nameSpaced (readNodesNames (modelNames modelled) [] nodes n member)
  · contradiction

theorem selectionNames {paths selection : Value} {model : PathModel} {g : SelectionGraph}
    (modelled : PathModel.ofValue paths = .ok model) (read : SelectionGraph.ofValue model selection = .ok g) :
    ∀ n ∈ g.nodes, '\n' ∉ n.name.toList := by
  intro n member there
  rcases selectionNamesSpaced modelled read n member _ there with space | visible
  · exact absurd space (by decide)
  · exact absurd visible (by decide)

end PathQuery
