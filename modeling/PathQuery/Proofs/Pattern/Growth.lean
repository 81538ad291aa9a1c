import PathQuery.Proofs.Pattern.Layout
import PathQuery.Proofs.Pattern.Naming
import PathQuery.Proofs.Traversal.Links

/-! What stays true of a draft while it grows, and so holds of every finished pattern: its triples come
from the paths and bridges of the selection, each has a record, its names are words, and its comments
speak of selected nodes. -/
namespace PathQuery

namespace SelectionGraph

inductive Asks (g : SelectionGraph) : Triple → Prop where
  | path {n : SelectedNode} {t : Triple} (node : n ∈ g.nodes) (walk : WalkTriple (evens n.path) n.path t) :
      Asks g t
  | bridge {e : SelectedEdge} {source target : String} (edge : e ∈ g.edges)
      (bridged : e.bridgePredicate ≠ "") (start : IsWord source.toList) (stop : IsWord target.toList) :
      Asks g (linkTriple source e.bridgePredicate target)

def Remarks (g : SelectionGraph) (text : String) : Prop :=
  ∃ arrow : Arrow, ∃ m ∈ g.nodes, ∃ n ∈ g.nodes, text = transitionComment m.name arrow.label n.name

end SelectionGraph

structure Grown (g : SelectionGraph) (d : Draft) : Prop where
  graph : d.graph = g
  plan : d.plan = g.plan
  wishes : d.wishes.Words
  names : d.names.given.Words
  selected : d.selected.Words
  asked : ∀ e ∈ d.log.entries, g.Asks e.triple
  recorded : ∀ t, d.records.contains t = true ↔ ∃ e ∈ d.log.entries, e.triple = t
  once : d.records.keys.Nodup
  bound : ∀ name ∈ d.selected.values, ∃ t, d.records.contains t = true ∧ name ∈ t.varNames
  remarks : ∀ texts ∈ d.comments.values, ∀ text ∈ texts, g.Remarks text

variable {g : SelectionGraph} {d : Draft}

theorem grownStart (g : SelectionGraph) (full : Bool) : Grown g (Draft.start g full) where
  graph := rfl
  plan := rfl
  wishes := wishesWords g _
  names := Table.wordsEmpty
  selected := Table.wordsEmpty
  asked := fun _ member => nomatch member
  recorded := fun t => by simp [Draft.start,EmissionLog.empty,Table.containsIff,Table.keys,Table.empty]
  once := List.nodup_nil
  bound := fun _ member => nomatch member
  remarks := fun _ member => nomatch member

theorem grownRequest (grown : Grown g d) {t : Triple} (asks : g.Asks t) (depth : Int)
    (owner : Option String) : Grown g (d.request t depth owner).2 where
  graph := grown.graph
  plan := grown.plan
  wishes := grown.wishes
  names := grown.names
  selected := grown.selected
  asked := by
    intro e member
    rcases List.mem_append.mp member with old | new
    · exact grown.asked e old
    · rw [List.mem_singleton.mp new]
      exact asks
  recorded := by
    intro other
    simp only [Draft.request,Table.containsInsert,EmissionLog.append,EmissionLog.skip,Bool.or_eq_true,
      decide_eq_true_eq,grown.recorded other,List.mem_append,List.mem_singleton]
    constructor
    · rintro (same | ⟨e,member,same⟩)
      · exact ⟨_,.inr rfl,same⟩
      · exact ⟨e,.inl member,same⟩
    · rintro ⟨e,member | rfl,same⟩
      · exact .inr ⟨e,member,same⟩
      · exact .inl same
  once := Table.keysInsertNodup grown.once _ _
  bound := by
    intro name member
    obtain ⟨other,recorded,inside⟩ := grown.bound name member
    exact ⟨other,by simp [Draft.request,Table.containsInsert,recorded],inside⟩
  remarks := grown.remarks

theorem requestAllRecords (d : Draft) (triples : List Triple) (depth : Int) (owner : Option String)
    (t : Triple) : (d.requestAll triples depth owner).records.contains t = true ↔
      t ∈ triples ∨ d.records.contains t = true := by
  unfold Draft.requestAll
  induction triples generalizing d with
  | nil => simp
  | cons first rest ih =>
      rw [List.foldl_cons,ih]
      simp only [Draft.request,Table.containsInsert,Bool.or_eq_true,decide_eq_true_eq,List.mem_cons]
      rw [eq_comm,← or_assoc]
      exact or_congr_left or_comm

theorem grownRequestAll (grown : Grown g d) {triples : List Triple} (asks : ∀ t ∈ triples, g.Asks t)
    (depth : Int) (owner : Option String) : Grown g (d.requestAll triples depth owner) := by
  unfold Draft.requestAll
  induction triples generalizing d with
  | nil => exact grown
  | cons t rest ih =>
      exact ih (grownRequest grown (asks t (by simp)) depth owner)
        fun t member => asks t (List.mem_cons_of_mem _ member)

theorem grownComment (grown : Grown g d) {text : String} (remark : g.Remarks text) (emission : String) :
    Grown g (d.comment emission text) :=
  { grown with
    remarks := by
      intro texts member other there
      have before : ∀ other ∈ d.comments.findD emission [], g.Remarks other := by
        intro other there
        unfold Table.findD at there
        cases found : d.comments.find? emission with
        | none => simp [found] at there
        | some texts =>
            rw [found] at there
            exact grown.remarks texts (Table.findValue found) other there
      rcases Table.valuesInsert member with rfl | old
      · split at there
        · exact before other there
        · rcases List.mem_append.mp there with old | new
          · exact before other old
          · rw [List.mem_singleton.mp new]
            exact remark
      · exact grown.remarks texts old other there }

theorem grownEmitNode (grown : Grown g d) (id : String) : Grown g (d.emitNode id) := by
  unfold Draft.emitNode
  split
  · exact grown
  · next node found =>
    split
    · exact grown
    · next walk walked =>
      obtain ⟨member,_⟩ := SelectionGraph.nodeFound (grown.graph ▸ found)
      have worded := walkWorded (walkerWorded grown.wishes id node) grown.names walked
      have requested := grownRequestAll grown (fun t there => .path member (worded.triples t there))
        (d.depthOf id) (some id)
      exact { requested with
        names := worded.names
        selected := Table.wordsInsert grown.selected worded.current id
        bound := by
          intro name member
          rcases Table.valuesInsert member with rfl | old
          · obtain ⟨t,there,inside⟩ := walkStops walked
            exact ⟨t,(requestAllRecords _ _ _ _ t).mpr (.inl there),inside⟩
          · obtain ⟨t,recorded,inside⟩ := grown.bound name old
            exact ⟨t,(requestAllRecords _ _ _ _ t).mpr (.inr recorded),inside⟩ }

theorem grownEmitNodes (grown : Grown g d) (ids : List String) : Grown g (ids.foldl Draft.emitNode d) := by
  induction ids generalizing d with
  | nil => exact grown
  | cons id rest ih => exact ih (grownEmitNode grown id)

theorem grownEmitAll (grown : Grown g d) : Grown g d.emitAll := grownEmitNodes grown d.plan.order

theorem nodeNameOf (grown : Grown g d) {id : String} (there : id ∈ g.nodeIds) :
    ∃ n ∈ g.nodes, d.nodeName id = n.name := by
  obtain ⟨n,found⟩ := SelectionGraph.nodeOfId there
  refine ⟨n,(SelectionGraph.nodeFound found).1,?_⟩
  simp [Draft.nodeName,grown.graph,found]

theorem transitionRemark (grown : Grown g d) {link : String × String} (there : link ∈ g.transitions)
    (arrow : Arrow) : g.Remarks (d.transitionText link arrow) := by
  obtain ⟨source,target⟩ := SelectionGraph.endsOfTransition there
  obtain ⟨m,first,named⟩ := nodeNameOf grown source
  obtain ⟨n,second,called⟩ := nodeNameOf grown target
  exact ⟨arrow,m,first,n,second,by rw [Draft.transitionText,named,called]⟩

theorem grownBridge (grown : Grown g d) {e : SelectedEdge} (inside : e ∈ g.internalEdges)
    (bridged : e.bridgePredicate ≠ "") : Grown g (d.bridge e) := by
  unfold Draft.bridge
  split
  · next source target start stop =>
    have edge := (SelectionGraph.memInternalEdges.mp inside).1
    have transition : e.transition ∈ g.transitions := List.mem_map.mpr ⟨e,inside,rfl⟩
    have requested := grownRequest grown
      (.bridge edge bridged (Table.wordsFind grown.selected start) (Table.wordsFind grown.selected stop))
      (d.depthOf e.target) (some e.target)
    have announced := fun arrow id => grownComment requested (transitionRemark requested transition arrow) id
    simp only
    split
    · next anchor _ =>
      exact { announced _ _ with
        asked := fun other member => (announced _ _).asked other ((EmissionLog.moveBeforePerm _ _ _).mem_iff.mp member)
        recorded := by
          intro t
          simp only [(EmissionLog.moveBeforePerm _ _ _).mem_iff]
          exact (announced _ _).recorded t }
    · exact announced _ _
  · exact grown

theorem grownBridges (grown : Grown g d) {edges : List SelectedEdge}
    (inside : ∀ e ∈ edges, e ∈ g.internalEdges ∧ e.bridgePredicate ≠ "") :
    Grown g (edges.foldl Draft.bridge d) := by
  induction edges generalizing d with
  | nil => exact grown
  | cons e rest ih =>
      obtain ⟨member,bridged⟩ := inside e (by simp)
      exact ih (grownBridge grown member bridged) fun e there => inside e (List.mem_cons_of_mem _ there)

theorem grownResolve (grown : Grown g d) : Grown g d.resolveBridges.1 := by
  refine grownBridges grown fun e member => ?_
  obtain ⟨sound,bridged⟩ := List.mem_filter.mp member
  have := (List.takeWhile_prefix _).subset sound
  exact ⟨grown.graph ▸ this,by simpa using bridged⟩

theorem grownAnnounce (grown : Grown g d) (crossings : List (String × String))
    {link : String × String} (there : link ∈ g.transitions) : Grown g (d.announce crossings link) := by
  unfold Draft.announce
  split
  · exact grownComment grown (transitionRemark grown there _) _
  · exact grown

theorem grownAnnounceAll (grown : Grown g d) (crossings : List (String × String))
    {links : List (String × String)} (linked : g.Linked links) :
    Grown g (links.foldl (fun d link => d.announce crossings link) d) := by
  induction links generalizing d with
  | nil => exact grown
  | cons link rest ih =>
      exact ih (grownAnnounce grown crossings (linked link (by simp)))
        fun l member => linked l (List.mem_cons_of_mem _ member)

theorem grownAnnotate (grown : Grown g d) {bridged : List (String × String)} {after : Draft}
    (done : d.annotate bridged = .ok after) : Grown g after := by
  unfold Draft.annotate at done
  split at done
  · contradiction
  · cases Except.ok.inj done
    refine grownAnnounceAll grown _ (SelectionGraph.linkedAppend ?_ ?_)
    · intro link member
      have := (List.mem_filter.mp (List.mem_eraseDups.mp (memSortBy.mp member))).1
      exact grown.graph ▸ this
    · intro link member
      obtain ⟨entry,there,rfl⟩ := List.mem_map.mp (List.mem_filter.mp member).1
      rw [grown.plan] at there
      exact SelectionGraph.parentsLinked there

structure Pattern.Sourced (g : SelectionGraph) (p : Pattern) : Prop where
  asked : ∀ e ∈ p.emissions, g.Asks e.triple
  recorded : ∀ t, p.records.contains t = true ↔ ∃ e ∈ p.emissions, e.triple = t
  remarks : ∀ texts ∈ p.comments.values, ∀ text ∈ texts, g.Remarks text
  marked : ∀ m ∈ p.central, ∃ n ∈ g.nodes, m.comment = centralComment n.name
  columns : ∀ column ∈ p.projections, IsWord column.name.toList ∧ column.source = none

theorem projectionWords (selected : d.selected.Words) :
    ∀ column ∈ d.projections, IsWord column.name.toList ∧ column.source = none := by
  suffices ∀ (order : List String) (known : Table String Projection),
      (∀ column ∈ known.values, IsWord column.name.toList ∧ column.source = none) →
        ∀ column ∈ (order.foldl d.addProjection known).values,
          IsWord column.name.toList ∧ column.source = none from
    this d.plan.order .empty fun _ member => nomatch member
  intro order
  induction order with
  | nil => exact fun known words => words
  | cons id rest ih =>
      intro known words
      refine ih _ ?_
      intro column member
      unfold Draft.addProjection at member
      split at member
      · exact words column member
      · next name found =>
        split at member
        · rcases Table.valuesInsert member with rfl | old
          · exact ⟨Table.wordsFind selected found,rfl⟩
          · exact words column old
        · next there known =>
          rcases Table.valuesInsert member with rfl | old
          · exact words there (Table.findValue known)
          · exact words column old

theorem grownFinish (grown : Grown g d) : d.finish.toPattern.Sourced g where
  asked := grown.asked
  recorded := grown.recorded
  remarks := grown.remarks
  marked := by
    intro m member
    simp only [Draft.finish,Draft.marker,Option.mem_def,bind,Option.bind_eq_some_iff] at member
    obtain ⟨id,central,emission,_,same⟩ := member
    cases Option.some.inj same
    rw [grown.plan] at central
    obtain ⟨n,there,named⟩ := nodeNameOf grown (SelectionGraph.effectiveCentralMem central)
    exact ⟨n,there,by rw [named]⟩
  columns := projectionWords grown.selected

theorem patternGrown {full : Bool} {p : SelectPattern} (made : g.pattern full = .ok p) :
    ∃ d, Grown g d ∧ p = d.finish := by
  obtain ⟨bridged,d,annotated,rfl⟩ := patternSteps made
  exact ⟨d,grownAnnotate (grownResolve (grownEmitAll (grownStart g full))) annotated,rfl⟩

theorem patternSourced {full : Bool} {p : SelectPattern} (made : g.pattern full = .ok p) :
    p.toPattern.Sourced g := by
  obtain ⟨d,grown,rfl⟩ := patternGrown made
  exact grownFinish grown

theorem patternBound {full : Bool} {p : SelectPattern} (made : g.pattern full = .ok p) {id name : String}
    (selected : p.selected.find? id = some name) : ∃ t ∈ p.records.keys, name ∈ t.varNames := by
  obtain ⟨d,grown,rfl⟩ := patternGrown made
  obtain ⟨t,recorded,inside⟩ := grown.bound name (Table.findValue selected)
  exact ⟨t,Table.containsIff.mp recorded,inside⟩

theorem patternRecords {full : Bool} {p : SelectPattern} (made : g.pattern full = .ok p) :
    p.records.keys.Nodup := by
  obtain ⟨d,grown,rfl⟩ := patternGrown made
  exact grown.once

theorem patternSelected {full : Bool} {p : SelectPattern} (made : g.pattern full = .ok p) :
    p.selected.Words := by
  obtain ⟨d,grown,rfl⟩ := patternGrown made
  exact grown.selected

theorem patternMade (sound : g.bridgeFault? = none) (full : Bool) : ∃ p, g.pattern full = .ok p := by
  have emitted := grownEmitAll (grownStart g full)
  have resolved := grownResolve emitted
  unfold SelectionGraph.pattern Draft.build
  have annotated : ∀ bridged, ∃ d, (Draft.start g full).emitAll.resolveBridges.1.annotate bridged = .ok d := by
    intro bridged
    unfold Draft.annotate
    rw [resolved.graph,sound]
    exact ⟨_,rfl⟩
  have bridges : ∃ links, (Draft.start g full).emitAll.resolveBridges =
      ((Draft.start g full).emitAll.resolveBridges.1,.ok links) := by
    refine ⟨(Draft.bridgedEdges (Draft.start g full).emitAll.soundEdges).map (·.transition),?_⟩
    unfold Draft.resolveBridges
    rw [emitted.graph,sound]
  obtain ⟨links,bridges⟩ := bridges
  obtain ⟨d,annotated⟩ := annotated links
  rw [bridges]
  simp only [annotated]
  exact ⟨d.finish,rfl⟩

end PathQuery
