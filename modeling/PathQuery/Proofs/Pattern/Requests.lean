import Mathlib.Order.Bounds.Basic
import PathQuery.Proofs.Pattern.Drawing

/-! What a draft keeps of the requests for triples, whichever operations are carried out on it and in whatever
order. The records have each triple once, at the place of its first request and with the least depth of all. The
log has each request once, wherever its emission has been moved. -/
namespace PathQuery

structure TripleRequest where
  triple : Triple
  depth : Int
  owner : Option String
  deriving DecidableEq, Repr

def TripleRequest.emission (n : Nat) (r : TripleRequest) : Emission := ⟨emissionId n,r.triple,max 0 r.depth,r.owner⟩

namespace Draft

inductive Operation where
  | node (id : String)
  | triple (t : Triple) (depth : Int) (owner : Option String)
  | comment (emission text : String)
  | bridges
  | transitions (bridged : List (String × String))
  deriving DecidableEq, Repr

def perform (d : Draft) : Operation → Draft
  | .node id => d.emitNode id
  | .triple t depth owner => (d.request t depth owner).2
  | .comment emission text => d.comment emission text
  | .bridges => d.resolveBridges.1
  | .transitions bridged => match d.annotate bridged with
    | .ok after => after
    | .error _ => d

def performAll (d : Draft) (operations : List Operation) : Draft := operations.foldl perform d

def bridgeRequest? (d : Draft) (edge : SelectedEdge) : Option TripleRequest :=
  match d.selected.find? edge.source,d.selected.find? edge.target with
  | some source,some target =>
      some ⟨linkTriple source edge.bridgePredicate target,d.depthOf edge.target,some edge.target⟩
  | _,_ => none

def asks (d : Draft) : Operation → List TripleRequest
  | .node id => match d.graph.node? id with
    | none => []
    | some n => match (d.walkerOf id n).walk? d.names n.path with
      | none => []
      | some walk => walk.triples.map (⟨·,d.depthOf id,some id⟩)
  | .triple t depth owner => [⟨t,depth,owner⟩]
  | .comment _ _ => []
  | .bridges => (bridgedEdges d.soundEdges).filterMap d.bridgeRequest?
  | .transitions _ => []

def asksAll : Draft → List Operation → List TripleRequest
  | _, [] => []
  | d, op :: rest => d.asks op ++ asksAll (d.perform op) rest

end Draft

def depthsAsked (requests : List TripleRequest) (t : Triple) : Set Int :=
  {k | ∃ r ∈ requests, r.triple = t ∧ max 0 r.depth = k}

theorem emissionIds (requests : List TripleRequest) : (requests.mapIdx TripleRequest.emission).map (·.id) =
    (List.range requests.length).map emissionId :=
  List.ext_getElem (by simp) fun i _ _ => by simp [TripleRequest.emission]

structure Kept (d : Draft) (requests : List TripleRequest) : Prop where
  keys : d.records.keys = (requests.map (·.triple)).eraseDups
  least : ∀ t k, d.records.find? t = some k → IsLeast (depthsAsked requests t) k
  log : d.log.entries.Perm (requests.mapIdx TripleRequest.emission)
  next : d.log.next = requests.length

variable {d : Draft} {requests : List TripleRequest}

theorem keptStart (g : SelectionGraph) (full : Bool) : Kept (Draft.start g full) [] where
  keys := rfl
  least := fun _ _ found => nomatch found
  log := .nil
  next := rfl

theorem depthsMore (requests : List TripleRequest) (r : TripleRequest) (t : Triple) : depthsAsked (requests ++ [r]) t =
    if r.triple = t then insert (max 0 r.depth) (depthsAsked requests t) else depthsAsked requests t := by
  ext k
  by_cases same : r.triple = t
  · simp [depthsAsked,same,or_comm,eq_comm]
  · simp [depthsAsked,same]

theorem keptRequest (kept : Kept d requests) (t : Triple) (depth : Int) (owner : Option String) :
    Kept (d.request t depth owner).2 (requests ++ [⟨t,depth,owner⟩]) where
  keys := by
    rw [List.map_append,List.map_singleton,eraseDupsMore,← kept.keys]
    exact Table.keysInsert _ _ _
  least := by
    intro other k found
    simp only [Draft.request,Table.findInsert] at found
    rw [depthsMore]
    split at found
    · next same =>
      subst same
      cases Option.some.inj found
      rw [if_pos rfl]
      split
      · next before known =>
        rw [min_comm]
        exact (kept.least t before known).insert _
      · next unknown =>
        have none : depthsAsked requests t = ∅ := by
          refine Set.eq_empty_iff_forall_notMem.mpr fun k asked => ?_
          obtain ⟨r,member,same,_⟩ := asked
          have key : t ∈ d.records.keys := by
            rw [kept.keys,List.mem_eraseDups]
            exact List.mem_map.mpr ⟨r,member,same⟩
          obtain ⟨_,there⟩ := Option.isSome_iff_exists.mp (Table.containsIff.mpr key)
          exact Option.some_ne_none _ (there.symm.trans unknown)
        rw [none]
        simp
    · next other =>
      rw [if_neg other]
      exact kept.least _ k found
  log := by
    rw [List.mapIdx_append]
    refine (kept.log.append_right _).trans (.of_eq ?_)
    simp only [List.mapIdx_cons,List.mapIdx_nil,Nat.zero_add,TripleRequest.emission,← kept.next]
    rfl
  next := by
    rw [List.length_append,← kept.next]
    rfl

theorem keptRequestAll (kept : Kept d requests) (triples : List Triple) (depth : Int) (owner : Option String) :
    Kept (d.requestAll triples depth owner) (requests ++ triples.map (⟨·,depth,owner⟩)) := by
  unfold Draft.requestAll
  induction triples generalizing d requests with
  | nil =>
      rw [List.map_nil,List.append_nil]
      exact kept
  | cons t rest ih =>
      rw [List.map_cons,List.append_cons]
      exact ih (keptRequest kept t depth owner)

theorem keptNode (kept : Kept d requests) (id : String) :
    Kept (d.emitNode id) (requests ++ d.asks (.node id)) := by
  cases found : d.graph.node? id with
  | none => simpa only [Draft.emitNode,Draft.asks,found,List.append_nil] using kept
  | some n =>
      cases walked : (d.walkerOf id n).walk? d.names n.path with
      | none => simpa only [Draft.emitNode,Draft.asks,found,walked,List.append_nil] using kept
      | some walk =>
          simp only [Draft.emitNode,Draft.asks,found,walked]
          exact { keptRequestAll kept walk.triples (d.depthOf id) (some id) with }

theorem keptBridge (kept : Kept d requests) (edge : SelectedEdge) :
    Kept (d.bridge edge) (requests ++ (d.bridgeRequest? edge).toList) := by
  unfold Draft.bridge Draft.bridgeRequest?
  cases d.selected.find? edge.source with
  | none => simpa using kept
  | some source =>
      cases d.selected.find? edge.target with
      | none => simpa using kept
      | some target =>
          have asked := keptRequest kept (linkTriple source edge.bridgePredicate target) (d.depthOf edge.target)
            (some edge.target)
          simp only [Option.toList_some]
          split
          · -- The emission is put elsewhere in the log, and that is all.
            exact { asked with
              log := (EmissionLog.moveBeforePerm _ _ _).trans asked.log
              next := (EmissionLog.moveNext _ _ _).trans asked.next }
          · exact { asked with }

theorem bridgeRequestsElse (d : Draft) (edge : SelectedEdge) : (d.bridge edge).bridgeRequest? = d.bridgeRequest? := by
  obtain ⟨_,_,_,same⟩ := bridgeElse d edge
  rw [same]
  rfl

theorem keptBridges (kept : Kept d requests) (edges : List SelectedEdge) :
    Kept (edges.foldl Draft.bridge d) (requests ++ edges.filterMap d.bridgeRequest?) := by
  induction edges generalizing d requests with
  | nil =>
      rw [List.filterMap_nil,List.append_nil]
      exact kept
  | cons edge rest ih =>
      have further := ih (keptBridge kept edge)
      rw [bridgeRequestsElse,List.append_assoc] at further
      have parts : (edge :: rest).filterMap d.bridgeRequest? =
          (d.bridgeRequest? edge).toList ++ rest.filterMap d.bridgeRequest? := by
        cases made : d.bridgeRequest? edge <;> simp [made]
      rw [List.foldl_cons,parts]
      exact further

theorem keptAnnotate (kept : Kept d requests) {bridged : List (String × String)} {after : Draft}
    (done : d.annotate bridged = .ok after) : Kept after requests := by
  obtain ⟨comments,rfl⟩ := annotateElse done
  exact { kept with }

theorem keptStep (kept : Kept d requests) (op : Draft.Operation) : Kept (d.perform op) (requests ++ d.asks op) := by
  cases op with
  | node id => exact keptNode kept id
  | triple t depth owner => exact keptRequest kept t depth owner
  | comment emission text =>
      rw [Draft.asks,List.append_nil]
      exact { kept with }
  | bridges => exact keptBridges kept _
  | transitions bridged =>
      rw [Draft.asks,List.append_nil,Draft.perform]
      split
      · next after done => exact keptAnnotate kept done
      · exact kept

theorem keptRun (kept : Kept d requests) (operations : List Draft.Operation) :
    Kept (d.performAll operations) (requests ++ d.asksAll operations) := by
  unfold Draft.performAll
  induction operations generalizing d requests with
  | nil =>
      rw [Draft.asksAll,List.append_nil]
      exact kept
  | cons op rest ih =>
      rw [Draft.asksAll,← List.append_assoc]
      exact ih (keptStep kept op)

theorem patternRequested {g : SelectionGraph} {full : Bool} {p : SelectPattern} (made : g.pattern full = .ok p) :
    ∃ requests : List TripleRequest, p.emissions.Perm (requests.mapIdx TripleRequest.emission) := by
  obtain ⟨bridged,d,annotated,rfl⟩ := patternSteps made
  have nodes := keptRun (keptStart g full) ((Draft.start g full).plan.order.map .node)
  rw [Draft.performAll,List.foldl_map] at nodes
  exact ⟨_,(keptAnnotate (keptBridges nodes _) annotated).log⟩

/-- After any operations the records are the triples asked for, each once and in the order of their first
requests, with the least depth of all requests for it. The log is made of one emission for each request, with
ids of their own. -/
theorem requestsKept (g : SelectionGraph) (full : Bool) (operations : List Draft.Operation) :
    let d := (Draft.start g full).performAll operations
    let requests := (Draft.start g full).asksAll operations
    d.records.keys = (requests.map (·.triple)).eraseDups ∧
    (∀ record ∈ d.records.entries, IsLeast (depthsAsked requests record.1) record.2) ∧
    d.log.entries.Perm (requests.mapIdx TripleRequest.emission) ∧
    (d.log.entries.map (·.id)).Nodup := by
  intro d requests
  have kept : Kept d requests := keptRun (keptStart g full) operations
  refine ⟨kept.keys,fun record member => ?_,kept.log,?_⟩
  · have distinct : d.records.keys.Nodup := kept.keys ▸ eraseDupsNodup _
    exact kept.least _ _ (Table.findEntry distinct member)
  · rw [(kept.log.map _).nodup_iff,emissionIds]
    exact idsDistinct _

end PathQuery
