import Mathlib.Data.List.Nodup
import Mathlib.Data.List.TakeWhile
import PathQuery.Proofs.Pattern.Nodes
import PathQuery.Proofs.Pattern.Sharing
import PathQuery.Query.Where

/-! What a finished pattern holds for each node: the bridges into it in the order in which they come, each with
its comment, and then what is asked for along its path, with the comments on all that leads to the node. -/
namespace PathQuery

structure Entry where
  triple : Triple
  depth : Int
  owner : Option String
  remarks : List String
  marker : Option String
  deriving DecidableEq, Repr

def Pattern.entry (p : Pattern) (e : Emission) : Entry :=
  ⟨e.triple,e.depth,e.owner,p.comments.findD e.id [],p.markerAt e⟩

namespace Draft

def noted (d : Draft) (e : Emission) : Entry := ⟨e.triple,e.depth,e.owner,d.comments.findD e.id [],none⟩

def bridgeOf? (d : Draft) (edge : SelectedEdge) : Option Entry :=
  match d.selected.find? edge.source,d.selected.find? edge.target with
  | some source,some target => some
      { triple := linkTriple source edge.bridgePredicate target
        depth := max 0 (d.depthOf edge.target), owner := some edge.target
        remarks := [d.transitionText edge.transition (d.crossingArrow edge.transition)], marker := none }
  | _,_ => none

def remark (d : Draft) (crossings : List (String × String)) (id : String) (there : List String)
    (link : String × String) : List String :=
  if d.firsts.find? link.2 = some id then
    let text := d.transitionText link (d.arrowOf crossings link)
    if there.contains text then there else there ++ [text]
  else there

def pathEntry (d : Draft) (crossings links : List (String × String)) (e : Emission) : Entry :=
  { triple := e.triple, depth := e.depth, owner := e.owner
    remarks := links.foldl (d.remark crossings e.id) []
    marker := (d.marker.filter fun m => m.emission = e.id).map (·.comment) }

end Draft

variable {d base : Draft} {order : List String} {into along : Blocks} {edges : List SelectedEdge}

theorem laidMember (laid : Laid d order into along) {v : String} {e : Emission} (member : e ∈ into v ++ along v) :
    e ∈ d.log.entries := by
  rw [← ownedBy laid] at member
  exact (List.mem_filter.mp member).1

theorem laidEarlier (laid : Laid d order into along) {e : Emission} (member : e ∈ d.log.entries) :
    e.id ≠ d.log.nextId := by
  obtain ⟨n,before,same⟩ := List.mem_map.mp (laid.ids.mem_iff.mp (List.mem_map.mpr ⟨e,member,rfl⟩))
  intro last
  exact absurd (emissionIdInjective (same.trans last)) (Nat.ne_of_lt (List.mem_range.mp before))

theorem laidApart (laid : Laid d order into along) {v w : String} {e f : Emission} (bridge : e ∈ into v)
    (path : f ∈ along w) : e.id ≠ f.id := by
  intro same
  have one := laidMember laid (List.mem_append_left _ bridge)
  have other := laidMember laid (List.mem_append_right _ path)
  obtain rfl := List.inj_on_of_nodup_map (laidDistinct laid) one other same
  have owners := (laid.owned v e (List.mem_append_left _ bridge)).symm.trans
    (laid.owned w e (List.mem_append_right _ path))
  cases Option.some.inj owners
  have block : ((into v ++ along v).map (·.id)).Nodup := by
    rw [← ownedBy laid]
    exact (List.filter_sublist.map _).nodup (laidDistinct laid)
  rw [List.map_append,List.nodup_append] at block
  exact block.2.2 e.id (List.mem_map.mpr ⟨e,bridge,rfl⟩) e.id (List.mem_map.mpr ⟨e,path,rfl⟩) rfl

structure Bridged (base d : Draft) (edges : List SelectedEdge) (order : List String) (into along : Blocks) : Prop
    extends Laid d order into along where
  frame : ∃ records log comments, d = { base with records := records, log := log, comments := comments }
  bridges : ∀ v, (into v).map d.noted = (edges.filter (·.target = v)).filterMap base.bridgeOf?
  remarked : ∀ id, d.comments.findD id [] ≠ [] → ∃ v, ∃ e ∈ into v, e.id = id

theorem bridgedStart (laid : Laid base order (fun _ => []) along) (quiet : base.comments = .empty) :
    Bridged base base [] order (fun _ => []) along :=
  { laid with
    frame := ⟨_,_,_,rfl⟩
    bridges := fun _ => rfl
    remarked := fun id some => by
      rw [quiet] at some
      exact absurd rfl some }

theorem commentFound (d : Draft) (emission text id : String) : (d.comment emission text).comments.findD id [] =
    if emission = id then
      if (d.comments.findD id []).contains text then d.comments.findD id [] else d.comments.findD id [] ++ [text]
    else d.comments.findD id [] := by
  unfold Draft.comment
  rw [Table.findD,Table.findInsert]
  by_cases same : emission = id
  · subst same
    simp
  · simp [same,Table.findD]

def Draft.emissionOf (d : Draft) (entry : Entry) : Emission :=
  ⟨d.log.nextId,entry.triple,entry.depth,entry.owner⟩

theorem bridgeIdle {edge : SelectedEdge} (loose : d.bridgeOf? edge = none) : d.bridge edge = d := by
  unfold Draft.bridgeOf? at loose
  unfold Draft.bridge
  cases start : d.selected.find? edge.source with
  | none => rfl
  | some source =>
      cases stop : d.selected.find? edge.target with
      | none => rfl
      | some target => simp [start,stop] at loose

theorem bridgeAdds {edge : SelectedEdge} {entry : Entry} (made : d.bridgeOf? edge = some entry) {anchor : String}
    (anchored : d.firsts.find? edge.target = some anchor) : entry.owner = edge.target ∧ entry.marker = none ∧
      ∃ records text, entry.remarks = [text] ∧ d.bridge edge = { d with
        records := records
        log := (d.log.skip.append (d.emissionOf entry)).moveBefore d.log.nextId anchor
        comments := (d.comment d.log.nextId text).comments } := by
  unfold Draft.bridgeOf? at made
  split at made
  · next source target start stop =>
    cases Option.some.inj made
    simp only [Draft.bridge,start,stop,Draft.request,Draft.comment,anchored]
    exact ⟨trivial,trivial,_,_,rfl,rfl⟩
  · contradiction

theorem bridgeEnds {edge : SelectedEdge} {entry : Entry} (made : d.bridgeOf? edge = some entry) :
    (d.selected.find? edge.target).isSome = true := by
  unfold Draft.bridgeOf? at made
  split at made
  · next stop =>
    rw [stop]
    rfl
  · contradiction

theorem bridgedBefore (bridged : Bridged base d edges order into along) (v : String) :
    ∀ e ∈ into v, e.id ≠ d.log.nextId := fun _ member =>
  laidEarlier bridged.toLaid (laidMember bridged.toLaid (List.mem_append_left _ member))

theorem bridgedSilent (bridged : Bridged base d edges order into along) :
    d.comments.findD d.log.nextId [] = [] := Decidable.byContradiction fun spoken => by
  obtain ⟨v,e,member,same⟩ := bridged.remarked _ spoken
  exact bridgedBefore bridged v e member same

theorem bridgedStep (bridged : Bridged base d edges order into along) (edge : SelectedEdge) :
    ∃ into, Bridged base (d.bridge edge) (edges ++ [edge]) order into along := by
  have own : d.bridgeOf? edge = base.bridgeOf? edge := by
    obtain ⟨records,log,comments,same⟩ := bridged.frame
    rw [same]
    rfl
  cases made : base.bridgeOf? edge with
  | none =>
      rw [bridgeIdle (own.trans made)]
      refine ⟨into,{ bridged with bridges := fun v => ?_ }⟩
      rw [bridged.bridges,List.filter_append,List.filterMap_append]
      by_cases here : edge.target = v <;> simp [here,made]
  | some entry =>
      have named : along edge.target ≠ [] := bridged.selected edge.target (bridgeEnds (own.trans made))
      obtain ⟨first,rest,path⟩ := List.exists_cons_of_ne_nil named
      have anchored : d.firsts.find? edge.target = some first.id := by
        rw [bridged.firsts edge.target,path]
        rfl
      obtain ⟨owner,unmarked,records,text,remarks,after⟩ := bridgeAdds (own.trans made) anchored
      have laid := laidInsert bridged.toLaid path (e := d.emissionOf entry) rfl owner
      -- The new id is none of those before, so nothing is noted there yet, and what is noted elsewhere stays.
      have kept : ∀ v, (into v).map (d.bridge edge).noted = (into v).map d.noted := by
        intro v
        refine List.map_congr_left fun e member => ?_
        rw [after,Draft.noted,Draft.noted,commentFound,if_neg (Ne.symm (bridgedBefore bridged v e member))]
      have added : (d.bridge edge).noted (d.emissionOf entry) = entry := by
        rw [after,Draft.noted,commentFound,Draft.emissionOf,if_pos rfl,bridgedSilent bridged]
        cases entry
        simp_all
      rw [after]
      refine ⟨setBlock into edge.target (into edge.target ++ [d.emissionOf entry]),{ laid with
        frame := ?_
        bridges := ?_
        remarked := ?_ }⟩
      · obtain ⟨_,_,_,same⟩ := bridged.frame
        rw [same]
        exact ⟨_,_,_,rfl⟩
      · intro v
        rw [← after,List.filter_append,List.filterMap_append,← bridged.bridges,← kept]
        by_cases here : edge.target = v
        · subst here
          rw [setBlockSame,List.map_append,List.map_singleton,added]
          simp [made]
        · rw [setBlockOther (Ne.symm here)]
          simp [here]
      · intro id some
        simp only [commentFound] at some
        split at some
        · next same =>
          exact ⟨edge.target,d.emissionOf entry,by rw [setBlockSame]; simp,same⟩
        · obtain ⟨v,e,member,same⟩ := bridged.remarked id some
          refine ⟨v,e,?_,same⟩
          by_cases here : v = edge.target
          · subst here
            rw [setBlockSame]
            exact List.mem_append_left _ member
          · rwa [setBlockOther here]

theorem bridgedAll (laid : Laid base order (fun _ => []) along) (quiet : base.comments = .empty)
    (edges : List SelectedEdge) :
    ∃ into, Bridged base (edges.foldl Draft.bridge base) edges order into along := by
  have onward : ∀ (rest : List SelectedEdge) {d : Draft} {done : List SelectedEdge} {into : Blocks},
      Bridged base d done order into along →
        ∃ into, Bridged base (rest.foldl Draft.bridge d) (done ++ rest) order into along := by
    intro rest
    induction rest with
    | nil =>
        intro d done into bridged
        rw [List.append_nil]
        exact ⟨into,bridged⟩
    | cons edge rest ih =>
        intro d done into bridged
        obtain ⟨_,further⟩ := bridgedStep bridged edge
        rw [List.append_cons]
        exact ih further
  exact onward edges (bridgedStart laid quiet)

theorem announceFound (d : Draft) (crossings : List (String × String)) (link : String × String) (id : String) :
    (d.announce crossings link).comments.findD id [] = d.remark crossings id (d.comments.findD id []) link := by
  unfold Draft.announce Draft.remark
  cases d.firsts.find? link.2 with
  | none => simp
  | some anchor => simp [commentFound]

theorem announcedAll (d : Draft) (crossings links : List (String × String)) :
    ∃ comments, links.foldl (fun d link => d.announce crossings link) d = { d with comments := comments } ∧
      ∀ id, comments.findD id [] = links.foldl (d.remark crossings id) (d.comments.findD id []) := by
  induction links generalizing d with
  | nil => exact ⟨d.comments,rfl,fun _ => rfl⟩
  | cons link rest ih =>
      obtain ⟨comments,same,each⟩ := ih (d.announce crossings link)
      obtain ⟨there,step⟩ := announceElse d crossings link
      refine ⟨comments,?_,fun id => ?_⟩
      · rw [List.foldl_cons,same,step]
      · rw [each,announceFound,List.foldl_cons,step]
        rfl

namespace Draft

def bridgedLinks (d : Draft) : List (String × String) :=
  (bridgedEdges d.graph.internalEdges).map (·.transition)

def crossed (d : Draft) : List (String × String) := d.bridgedLinks ++ d.boundaries

def announced (d : Draft) : List (String × String) :=
  d.plainTransitions d.bridgedLinks ++ d.parentSteps d.bridgedLinks (d.plainTransitions d.bridgedLinks)

def completed (d : Draft) : Draft :=
  d.announced.foldl (fun after link => after.announce d.crossed link)
    ((bridgedEdges d.graph.internalEdges).foldl bridge d)

def entriesOf (d : Draft) (along : Blocks) (v : String) : List Entry :=
  ((bridgedEdges d.graph.internalEdges).filter (·.target = v)).filterMap d.bridgeOf? ++
    (along v).map (d.pathEntry d.crossed d.announced)

end Draft

structure Settled (base : Draft) (along : Blocks) (p : SelectPattern) : Prop where
  entries : p.emissions.map p.toPattern.entry = base.plan.order.flatMap (base.entriesOf along)
  order : p.order = base.plan.order
  chains : p.chains = base.plan.chains
  columns : p.projections = base.projections
  selected : p.selected = base.selected

theorem anchorPath (laid : Laid d order into along) {v id : String} (anchored : d.firsts.find? v = some id) :
    ∃ e ∈ along v, e.id = id := by
  rw [laid.firsts] at anchored
  obtain ⟨e,head,same⟩ := Option.map_eq_some_iff.mp anchored
  exact ⟨e,List.mem_of_head? head,same⟩

theorem bridgeUnanchored (laid : Laid d order into along) {v : String} {e : Emission} (bridge : e ∈ into v)
    (w : String) : d.firsts.find? w ≠ some e.id := fun anchored => by
  obtain ⟨f,path,same⟩ := anchorPath laid anchored
  exact laidApart laid bridge path same.symm

theorem remarkedElse (crossings links : List (String × String)) {id : String}
    (loose : ∀ v, d.firsts.find? v ≠ some id) (there : List String) :
    links.foldl (d.remark crossings id) there = there := by
  induction links with
  | nil => rfl
  | cons link rest ih => rwa [List.foldl_cons,Draft.remark,if_neg (loose link.2)]

theorem markerAnchored {m : Marker} (marked : d.marker = some m) : ∃ v, d.firsts.find? v = some m.emission := by
  simp only [Draft.marker,bind,Option.bind_eq_some_iff] at marked
  obtain ⟨v,_,emission,anchored,same⟩ := marked
  cases Option.some.inj same
  exact ⟨v,anchored⟩

section

variable {comments : Table String (List String)} {crossings links : List (String × String)} {v : String}
  {e : Emission}

theorem bridgeSettled (bridged : Bridged base d edges order into along)
    (each : ∀ id, comments.findD id [] = links.foldl (d.remark crossings id) (d.comments.findD id []))
    (member : e ∈ into v) : ({ d with comments := comments } : Draft).finish.toPattern.entry e = d.noted e := by
  -- Transitions are remarked on, and the marker is set, at the first request along a path; that is no bridge.
  have loose := bridgeUnanchored bridged.toLaid member
  have unmarked : (d.marker.filter fun m => m.emission = e.id) = none := by
    refine Option.filter_eq_none_iff.mpr fun m marked named => ?_
    obtain ⟨w,anchored⟩ := markerAnchored marked
    exact loose w (of_decide_eq_true named ▸ anchored)
  have remarks : comments.findD e.id [] = d.comments.findD e.id [] := by rw [each,remarkedElse _ _ loose]
  exact congrArg₂ (Entry.mk e.triple e.depth e.owner) remarks (congrArg (Option.map Marker.comment) unmarked)

theorem pathSettled (bridged : Bridged base d edges order into along)
    (each : ∀ id, comments.findD id [] = links.foldl (d.remark crossings id) (d.comments.findD id []))
    (member : e ∈ along v) :
    ({ d with comments := comments } : Draft).finish.toPattern.entry e = base.pathEntry crossings links e := by
  have silent : d.comments.findD e.id [] = [] := Decidable.byContradiction fun spoken => by
    obtain ⟨w,f,bridge,same⟩ := bridged.remarked _ spoken
    exact laidApart bridged.toLaid bridge member same
  obtain ⟨_,_,_,frame⟩ := bridged.frame
  have remarks : comments.findD e.id [] = links.foldl (base.remark crossings e.id) [] := by
    rw [each,silent,frame]
    rfl
  subst frame
  exact congrArg₂ (Entry.mk e.triple e.depth e.owner) remarks rfl

end

structure Composed (base : Draft) (along into : Blocks) (p : SelectPattern) : Prop where
  emissions : p.emissions = base.plan.order.flatMap fun v => into v ++ along v
  bridges : ∀ v, (into v).map p.toPattern.entry =
    ((Draft.bridgedEdges base.graph.internalEdges).filter (·.target = v)).filterMap base.bridgeOf?
  paths : ∀ v, ∀ e ∈ along v, p.toPattern.entry e = base.pathEntry base.crossed base.announced e
  ids : (p.emissions.map (·.id)).Perm ((List.range p.emissions.length).map emissionId)
  order : p.order = base.plan.order
  chains : p.chains = base.plan.chains
  columns : p.projections = base.projections
  selected : p.selected = base.selected
  firsts : p.firsts = base.firsts
  central : p.central = base.marker

theorem composedFinish (laid : Laid base base.plan.order (fun _ => []) along) (quiet : base.comments = .empty) :
    ∃ into, Composed base along into base.completed.finish := by
  unfold Draft.completed
  obtain ⟨into,bridged⟩ := bridgedAll laid quiet (Draft.bridgedEdges base.graph.internalEdges)
  generalize (Draft.bridgedEdges base.graph.internalEdges).foldl Draft.bridge base = d at bridged
  obtain ⟨comments,same,each⟩ := announcedAll d base.crossed base.announced
  have count : d.log.next = d.log.entries.length := by simpa using bridged.ids.length_eq.symm
  have ids := bridged.ids
  rw [count] at ids
  rw [same]
  obtain ⟨_,_,_,frame⟩ := bridged.frame
  refine ⟨into,bridged.entries,fun v => ?_,fun v e member => pathSettled bridged each member,ids,?_,?_,?_,?_,?_,?_⟩
  · rw [← bridged.bridges]
    exact List.map_congr_left fun _ => bridgeSettled bridged each
  all_goals rw [frame]; rfl

theorem Composed.settled {p : SelectPattern} (composed : Composed base along into p) : Settled base along p where
  entries := by
    rw [composed.emissions,List.map_flatMap]
    refine congrArg (base.plan.order.flatMap ·) (funext fun v => ?_)
    rw [List.map_append,composed.bridges,List.map_congr_left (composed.paths v)]
    rfl
  order := composed.order
  chains := composed.chains
  columns := composed.columns
  selected := composed.selected

variable {g : SelectionGraph}

theorem faultlessIff : g.bridgeFault? = none ↔ ∀ e ∈ g.internalEdges, e.bridgeFault? = none :=
  List.findSome?_eq_none_iff

theorem faultKind {fault : Fault} (faulty : g.bridgeFault? = some fault) : ∃ kind, fault = .notText kind := by
  obtain ⟨e,_,found⟩ := List.exists_of_findSome?_eq_some faulty
  unfold SelectedEdge.bridgeFault? at found
  split at found
  · contradiction
  · split at found
    · exact ⟨_,(Option.some.inj found).symm⟩
    · contradiction

theorem patternFaulty {fault : Fault} (faulty : g.bridgeFault? = some fault) (full : Bool) :
    g.pattern full = .error fault := by
  have grown := grownEmitAll (grownStart g full)
  unfold SelectionGraph.pattern Draft.build Draft.resolveBridges
  rw [grown.graph,faulty]

theorem soundMade {full : Bool} {p : SelectPattern} (made : g.pattern full = .ok p) : g.bridgeFault? = none := by
  refine Option.eq_none_iff_forall_ne_some.mpr fun fault faulty => ?_
  rw [patternFaulty faulty] at made
  contradiction

theorem soundWhole (sound : g.bridgeFault? = none) (same : d.graph = g) : d.soundEdges = d.graph.internalEdges := by
  rw [Draft.soundEdges,same]
  exact List.takeWhile_eq_self_iff.mpr fun e member => by rw [faultlessIff.mp sound e member]; rfl

theorem patternCompleted (sound : g.bridgeFault? = none) (full : Bool) :
    g.pattern full = .ok (Draft.start g full).emitAll.completed.finish := by
  have grown := grownEmitAll (grownStart g full)
  unfold SelectionGraph.pattern Draft.build
  generalize (Draft.start g full).emitAll = base at grown
  obtain ⟨_,_,_,frame⟩ := bridgesElse base (Draft.bridgedEdges base.graph.internalEdges)
  have resolved : base.resolveBridges = ((Draft.bridgedEdges base.graph.internalEdges).foldl Draft.bridge base,
      .ok base.bridgedLinks) := by
    rw [Draft.resolveBridges,soundWhole sound grown.graph,Draft.bridgedLinks,grown.graph,sound]
  have annotated : ((Draft.bridgedEdges base.graph.internalEdges).foldl Draft.bridge base).annotate
      base.bridgedLinks = .ok base.completed := by
    rw [← grown.graph] at sound
    rw [Draft.completed,frame,Draft.annotate,sound]
    rfl
  rw [resolved]
  simp only [annotated]

theorem patternComposed (sound : g.bridgeFault? = none) (full : Bool)
    (laid : Laid (Draft.start g full).emitAll g.plan.order (fun _ => []) along) :
    ∃ p into, g.pattern full = .ok p ∧ Composed (Draft.start g full).emitAll along into p := by
  have grown := grownEmitAll (grownStart g full)
  have quiet : (Draft.start g full).emitAll.comments = .empty := (Draft.emitNodesKeep _ _).2
  rw [← grown.plan] at laid
  obtain ⟨into,composed⟩ := composedFinish laid quiet
  exact ⟨_,into,patternCompleted sound full,composed⟩

theorem patternSettled (sound : g.bridgeFault? = none) (full : Bool)
    (laid : Laid (Draft.start g full).emitAll g.plan.order (fun _ => []) along) :
    ∃ p, g.pattern full = .ok p ∧ Settled (Draft.start g full).emitAll along p := by
  obtain ⟨p,_,made,composed⟩ := patternComposed sound full laid
  exact ⟨p,made,composed.settled⟩

end PathQuery
