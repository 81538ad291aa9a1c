import PathQuery.Proofs.Selection.Names
import PathQuery.Proofs.Text.Lines

/-! Selections that are written and read again. All of a selection comes back but an empty id, which stands for no
id at all. -/
namespace PathQuery

theorem labelAgain (value : Value) : (Value.text value.label).label = value.label := stripAgain value.bare

namespace SelectedNode

def toValue (n : SelectedNode) : Value := .mapping [("id",.text n.id),("path",.text n.source)]

def again (model : PathModel) (n : SelectedNode) : SelectedNode :=
  if n.source = "" then ⟨n.id,n.id,model.get? n.id⟩ else n

theorem idAgain (model : PathModel) (n : SelectedNode) : (n.again model).id = n.id := by
  unfold again
  split <;> rfl

theorem againSame {model : PathModel} {n : SelectedNode} (named : n.id ≠ "") :
    n.again model = n ↔ n.source ≠ "" := by
  unfold again
  split
  · next empty =>
    refine iff_of_false (fun same => named ?_) (not_not.mpr empty)
    have source : n.id = n.source := congrArg SelectedNode.source same
    rw [source,empty]
  · next filled => exact iff_of_true rfl filled

theorem sourceAgain {model : PathModel} {n : SelectedNode} (named : n.id ≠ "") : (n.again model).source ≠ "" := by
  unfold again
  split
  · exact named
  · next filled => exact filled

end SelectedNode

namespace SelectionGraph

theorem nodeIdsWritten {n : SelectedNode} (id : Text.strip n.id = n.id) (source : Text.strip n.source = n.source) :
    nodeIdsOf n.toValue = (n.id,if n.source = "" then n.id else n.source) := by
  have own : (Value.text n.id).label = n.id := id
  have given : (Value.text n.source).label = n.source := source
  have read : nodeIdsOf n.toValue =
      ((Value.text n.id).label,
        if (Value.text n.source).holds then (Value.text n.source).label else (Value.text n.id).label) := rfl
  rw [read,own,given]
  by_cases empty : n.source = "" <;> simp [Value.holds,empty]

theorem readNodesCons (model : PathModel) (seen : List String) (value : Value) (rest : List Value) :
    readNodes model seen (value :: rest) =
      if (nodeIdsOf value).1 = "" || seen.contains (nodeIdsOf value).1 then readNodes model seen rest
      else ⟨(nodeIdsOf value).1,(nodeIdsOf value).2,model.get? (nodeIdsOf value).2⟩ ::
        readNodes model ((nodeIdsOf value).1 :: seen) rest := rfl

theorem nodesAgain (model : PathModel) (seen : List String) (values : List Value) :
    readNodes model seen ((readNodes model seen values).map SelectedNode.toValue) =
      (readNodes model seen values).map (SelectedNode.again model) := by
  induction values generalizing seen with
  | nil => rfl
  | cons value rest ih =>
      rw [readNodesCons]
      split
      · exact ih seen
      · next fresh =>
        obtain ⟨own,given,id,source⟩ := nodeIdsLabels value
        have written := @nodeIdsWritten ⟨(nodeIdsOf value).1,(nodeIdsOf value).2,model.get? (nodeIdsOf value).2⟩
          (by simp only [id]; exact labelAgain own) (by simp only [source]; exact labelAgain given)
        rw [List.map_cons,List.map_cons,readNodesCons,written,if_neg fresh,ih]
        congr 1
        simp only [SelectedNode.again]
        split <;> rfl

theorem readNodesFilled (model : PathModel) (seen : List String) (values : List Value) :
    ∀ n ∈ readNodes model seen values, n.id ≠ "" := by
  induction values generalizing seen with
  | nil => exact List.forall_mem_nil _
  | cons value rest ih =>
      rw [readNodesCons]
      split
      · exact ih seen
      · next fresh =>
        have named : (nodeIdsOf value).1 ≠ "" := fun empty => fresh (by simp [empty])
        exact List.forall_mem_cons.mpr ⟨named,ih _⟩

structure Settled (nodes : List SelectedNode) (e : SelectedEdge) : Prop where
  source : Text.strip e.source = e.source
  target : Text.strip e.target = e.target
  bridge : e.bridge = .null ∨ e.bridge.holds = true
  starts : ∃ n, nodes.find? (·.id = e.source) = some n
  stops : ∃ n, nodes.find? (·.id = e.target) = some n

theorem bridgeHeld (model : PathModel) (fields : List (String × Value)) :
    bridgeOf model fields = .null ∨ (bridgeOf model fields).holds = true := by
  fun_cases bridgeOf model fields with
  | case1 given held => exact .inr held
  | case2 => exact .inl rfl
  | case3 _ _ _ _ iri _ filled => exact .inr (bne_iff_ne.mpr filled)
  | case4 => exact .inl rfl
  | case5 => exact .inl rfl

theorem edgeSettled {model : PathModel} {nodes : List SelectedNode} {value : Value} {e : SelectedEdge}
    (read : readEdge model nodes value = .ok (some e)) : Settled nodes e := by
  unfold readEdge at read
  split at read
  · next fields =>
    simp only at read
    split at read
    · next first second starts stops =>
      split at read <;>
        (obtain ⟨boundary,_,made⟩ := bindOk.mp read
         cases made
         exact ⟨stripAgain _,stripAgain _,bridgeHeld model fields,⟨_,starts⟩,⟨_,stops⟩⟩)
    · cases read
  · contradiction

theorem findAgain (model : PathModel) (id : String) (nodes : List SelectedNode) :
    (nodes.map (SelectedNode.again model)).find? (·.id = id) = (nodes.find? (·.id = id)).map (.again model) := by
  rw [List.find?_map]
  simp only [Function.comp_def,SelectedNode.idAgain]

theorem settledAgain {nodes : List SelectedNode} {e : SelectedEdge} (settled : Settled nodes e) (model : PathModel) :
    Settled (nodes.map (.again model)) e := by
  obtain ⟨source,target,bridge,⟨first,starts⟩,⟨second,stops⟩⟩ := settled
  exact ⟨source,target,bridge,⟨_,by rw [findAgain,starts]; rfl⟩,⟨_,by rw [findAgain,stops]; rfl⟩⟩

theorem readEdgeOf {model : PathModel} {nodes : List SelectedNode} {fields : List (String × Value)} {e : SelectedEdge}
    (source : ((Value.fieldOf "source" fields).getD (.text "")).label = e.source)
    (target : ((Value.fieldOf "target" fields).getD (.text "")).label = e.target)
    (bridge : bridgeOf model fields = e.bridge) (boundary : Value.member fields "boundary" = .flag e.boundary)
    (starts : ∃ n, nodes.find? (·.id = e.source) = some n) (stops : ∃ n, nodes.find? (·.id = e.target) = some n) :
    readEdge model nodes (.mapping fields) = .ok (some e) := by
  obtain ⟨first,starts⟩ := starts
  obtain ⟨second,stops⟩ := stops
  simp only [readEdge,source,target,starts,stops,bridge,boundary]
  rfl

theorem edgeAgain (model : PathModel) {nodes : List SelectedNode} {e : SelectedEdge} (settled : Settled nodes e) :
    readEdge model nodes (edgeValue e) = .ok (some e) := by
  refine readEdgeOf settled.source settled.target ?_ rfl settled.starts settled.stops
  change (if e.bridge.holds then e.bridge else .null) = e.bridge
  rcases settled.bridge with absent | held
  · rw [absent]
    rfl
  · exact if_pos held

theorem edgesAgain (model : PathModel) {nodes : List SelectedNode} {edges : List SelectedEdge}
    (settled : ∀ e ∈ edges, Settled nodes e) :
    (edges.map edgeValue).mapM (readEdge model nodes) = .ok (edges.map some) :=
  mapMGiven fun e member => edgeAgain model (settled e member)

def again (model : PathModel) (g : SelectionGraph) : SelectionGraph :=
  { g with
    nodes := g.nodes.map (.again model)
    central := g.central.filter (· ≠ "") }

structure Trimmed (model : PathModel) (g : SelectionGraph) : Prop where
  nodes : readNodes model [] (g.nodes.map SelectedNode.toValue) = g.nodes.map (.again model)
  named : ∀ n ∈ g.nodes, n.id ≠ ""
  edges : ∀ e ∈ g.edges, Settled g.nodes e
  central : ∀ id ∈ g.central, Text.strip id = id
  count : ∀ id ∈ g.count, Text.strip id = id

theorem readTrimmed {model : PathModel} {value : Value} {g : SelectionGraph}
    (read : SelectionGraph.ofValue model value = .ok g) : g.Trimmed model := by
  unfold SelectionGraph.ofValue at read
  split at read
  · next fields =>
    obtain ⟨nodes,_,read⟩ := bindOk.mp read
    obtain ⟨listed,_,read⟩ := bindOk.mp read
    obtain ⟨edges,each,read⟩ := bindOk.mp read
    obtain ⟨count,_,read⟩ := bindOk.mp read
    cases read
    refine ⟨nodesAgain model [] nodes,readNodesFilled model [] nodes,?_,?_,?_⟩
    · intro e member
      obtain ⟨_,there,same⟩ := List.mem_filterMap.mp member
      obtain ⟨value,_,made⟩ := mapMOk each there
      exact edgeSettled (made.trans (congrArg _ same))
    · intro id given
      split at given
      · cases given
        exact stripAgain _
      · contradiction
    · intro id member
      obtain ⟨value,_,rfl⟩ := List.mem_map.mp member
      exact stripAgain _
  · contradiction

theorem centralAgain {central : Option String} (trimmed : ∀ id ∈ central, Text.strip id = id) :
    (if (Value.ofOption .text central).holds then some (Value.ofOption .text central).label else none) =
      central.filter (· ≠ "") := by
  cases central with
  | none => rfl
  | some id =>
      have same : (Value.text id).label = id := trimmed id rfl
      by_cases empty : id = "" <;> simp [Value.ofOption,Value.holds,Option.filter,same,empty]

theorem trimmedReread {model : PathModel} {g : SelectionGraph} (trimmed : g.Trimmed model) :
    SelectionGraph.ofValue model g.toValue = .ok (g.again model) := by
  have edges := edgesAgain model fun e member => settledAgain (trimmed.edges e member) model
  have count : (g.count.map Value.text).map Value.label = g.count := by
    rw [List.map_map]
    exact (List.map_congr_left trimmed.count).trans g.count.map_id
  have read : SelectionGraph.ofValue model g.toValue = (do
      let edges ← (g.edges.map edgeValue).mapM
        (readEdge model (readNodes model [] (g.nodes.map SelectedNode.toValue)))
      .ok
        { nodes := readNodes model [] (g.nodes.map SelectedNode.toValue)
          edges := edges.filterMap id
          central := if (Value.ofOption .text g.central).holds then some (Value.ofOption .text g.central).label
            else none
          count := (g.count.map Value.text).map Value.label }) := rfl
  rw [read,trimmed.nodes,edges,count,centralAgain trimmed.central]
  simp [again,List.filterMap_map,bind,Except.bind]

theorem againWhole {model : PathModel} {g : SelectionGraph} (named : ∀ n ∈ g.nodes, n.id ≠ "") :
    g.again model = g ↔ g.central ≠ some "" ∧ ∀ n ∈ g.nodes, n.source ≠ "" := by
  have nodes : g.nodes.map (SelectedNode.again model) = g.nodes ↔ ∀ n ∈ g.nodes, n.source ≠ "" := by
    have each : g.nodes.map (SelectedNode.again model) = g.nodes.map id ↔ ∀ n ∈ g.nodes, n.again model = id n :=
      List.map_inj_left
    rw [List.map_id] at each
    exact each.trans (forall₂_congr fun n member => SelectedNode.againSame (named n member))
  have central : g.central.filter (· ≠ "") = g.central ↔ g.central ≠ some "" := by
    cases g.central with
    | none => exact iff_of_true rfl nofun
    | some id => by_cases empty : id = "" <;> simp [Option.filter,empty]
  rw [← nodes,← central]
  constructor
  · intro same
    exact ⟨congrArg SelectionGraph.central same,congrArg SelectionGraph.nodes same⟩
  · rintro ⟨central,nodes⟩
    rw [again,central,nodes]

/-- A selection that was read comes back from what is written of it just if neither the central node nor an element
goes by an empty id. What comes back otherwise comes back from then on. -/
theorem rereadIff {model : PathModel} {value : Value} {g : SelectionGraph}
    (read : SelectionGraph.ofValue model value = .ok g) :
    (SelectionGraph.ofValue model g.toValue = .ok g ↔ g.central ≠ some "" ∧ ∀ n ∈ g.nodes, n.source ≠ "") ∧
      SelectionGraph.ofValue model g.toValue = .ok (g.again model) ∧
      SelectionGraph.ofValue model (g.again model).toValue = .ok (g.again model) := by
  have trimmed := readTrimmed read
  have reread := trimmedReread trimmed
  refine ⟨?_,reread,?_⟩
  · rw [reread,← againWhole trimmed.named]
    exact ⟨Except.ok.inj,congrArg Except.ok⟩
  · have settled := readTrimmed reread
    rw [trimmedReread settled,(againWhole settled.named).mpr ⟨?_,?_⟩]
    · intro empty
      simp [again,Option.filter_eq_some_iff] at empty
    · intro n member
      obtain ⟨m,there,rfl⟩ := List.mem_map.mp member
      exact SelectedNode.sourceAgain (trimmed.named m there)

end SelectionGraph

def soleElement : PathElement := ⟨"x","",false,.reference,"",none,["urn:A","urn:p","urn:B"]⟩

def linkedSelection : Value := .mapping
  [("central",.text " x "),("nodes",.list [.text "x",.mapping [("id",.text "y"),("path",.text "x")]]),
    ("edges",.list [.mapping [("source",.text "x"),("target",.text "y"),("via_reference",.text "x")]])]

theorem linkedSelectionReread : ∃ g, SelectionGraph.ofValue (.ofList [soleElement]) linkedSelection = .ok g ∧
    SelectionGraph.ofValue (.ofList [soleElement]) g.toValue = .ok g := by
  have evaluated : (SelectionGraph.ofValue (.ofList [soleElement]) linkedSelection).map
      (fun g => decide (g.central ≠ some "" ∧ ∀ n ∈ g.nodes, n.source ≠ "")) = .ok true := by decide +kernel
  obtain ⟨g,read,named⟩ := mapOk evaluated
  exact ⟨g,read,(SelectionGraph.rereadIff read).1.mpr (of_decide_eq_true named)⟩

theorem blankPathLost :
    SelectionGraph.ofValue (.ofList [soleElement])
      (.mapping [("nodes",.list [.mapping [("id",.text "x"),("path",.text " ")]])]) =
        .ok ⟨[⟨"x","",none⟩],[],none,[]⟩ ∧
    SelectionGraph.ofValue (.ofList [soleElement]) (SelectionGraph.toValue ⟨[⟨"x","",none⟩],[],none,[]⟩) =
      .ok ⟨[⟨"x","x",some soleElement⟩],[],none,[]⟩ ∧
    SelectionGraph.ofValue (.ofList [soleElement]) (.mapping [("central",.text " ")]) = .ok ⟨[],[],some "",[]⟩ ∧
    SelectionGraph.ofValue (.ofList [soleElement]) (SelectionGraph.toValue ⟨[],[],some "",[]⟩) =
      .ok ⟨[],[],none,[]⟩ := by
  decide +kernel

end PathQuery
