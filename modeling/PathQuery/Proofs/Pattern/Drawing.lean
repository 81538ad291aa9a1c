import PathQuery.Proofs.Pattern.Layout

/-! How a draft is drawn up: node after node, then the bridges, then the comments. It stays laid out by nodes,
and the places along every path keep the names that they are given. -/
namespace PathQuery

def SelectionGraph.walker (g : SelectionGraph) (full : Bool) : String → SelectedNode → Walker :=
  (Draft.start g full).walkerOf

structure Drawn (g : SelectionGraph) (full : Bool) (d : Draft) (order : List String)
    (into along : Blocks) : Prop extends Laid d order into along where
  graph : d.graph = g
  plan : d.plan = g.plan
  walkers : d.walkerOf = g.walker full
  apart : d.names.Apart
  pathless : ∀ v, (∀ n, g.node? v = some n → n.path = []) → along v = []
  traced : ∀ v ∈ order, ∀ n, g.node? v = some n → n.path ≠ [] →
    (g.walker full v n).Traces d.names n.path ((along v).map (·.triple)) ∧
      ∃ x, d.selected.find? v = some x ∧
        d.names.given.find? ((g.walker full v n).stretchAt n.path (n.path.length - 1)) = some x

variable {g : SelectionGraph} {full : Bool} {d : Draft} {order : List String} {into along : Blocks}

theorem drawnStart (g : SelectionGraph) (full : Bool) :
    Drawn g full (Draft.start g full) [] (fun _ => []) (fun _ => []) :=
  { laidStart g full with
    graph := rfl
    plan := rfl
    walkers := rfl
    apart := Names.apartEmpty
    pathless := fun _ _ => rfl
    traced := fun _ member => nomatch member }

theorem drawnSkip (drawn : Drawn g full d order into along) {v : String} (fresh : v ∉ order)
    (pathless : ∀ n, g.node? v = some n → n.path = []) : Drawn g full d (order ++ [v]) into along :=
  { laidSkip drawn.toLaid fresh,drawn with
    traced := by
      intro w member n found path
      rcases List.mem_append.mp member with member | last
      · exact drawn.traced w member n found path
      · exact absurd (pathless n (List.mem_singleton.mp last ▸ found)) path }

theorem emitNodeElse {v : String} {n : SelectedNode} (found : d.graph.node? v = some n) {walk : Walk}
    (walked : (d.walkerOf v n).walk? d.names n.path = some walk) :
    ∃ records log, d.emitNode v = { d with
      records := records, log := log, names := walk.names
      firsts := d.firsts.insert v d.log.nextId, selected := d.selected.insert v walk.current } := by
  obtain ⟨records,log,same⟩ := requestAllElse d walk.triples (d.depthOf v) (some v)
  refine ⟨records,log,?_⟩
  simp only [Draft.emitNode,found,walked,same]

theorem drawnEmit (drawn : Drawn g full d order into along) {v : String} (fresh : v ∉ order) {n : SelectedNode}
    (found : d.graph.node? v = some n) {walk : Walk}
    (walked : (d.walkerOf v n).walk? d.names n.path = some walk) :
    Drawn g full (d.emitNode v) (order ++ [v]) into
      (setBlock along v (requested d.log.next (d.depthOf v) (some v) walk.triples)) := by
  have laid := laidEmit drawn.toLaid fresh found walked
  have walks := Walker.walkTraces walked
  obtain ⟨records,log,emitted⟩ := emitNodeElse found walked
  rw [emitted] at laid ⊢
  refine
    { laid with
      graph := drawn.graph
      plan := drawn.plan
      walkers := drawn.walkers
      apart := walks.apart drawn.apart
      pathless := ?_
      traced := ?_ }
  · intro w none
    have other : w ≠ v := by
      rintro rfl
      rw [none n (drawn.graph ▸ found)] at walked
      contradiction
    rw [setBlockOther other,drawn.pathless w none]
  · intro w member m atNode path
    simp only [Table.findInsert]
    by_cases same : v = w
    · subst same
      have : n = m := Option.some.inj ((drawn.graph ▸ found).symm.trans atNode)
      subst this
      rw [if_pos rfl,setBlockSame,requestedTriples,← drawn.walkers]
      exact ⟨walks.traces,_,rfl,walks.last⟩
    · have earlier : w ∈ order := by
        rcases List.mem_append.mp member with member | last
        · exact member
        · exact absurd (List.mem_singleton.mp last).symm same
      obtain ⟨traces,x,selected,named⟩ := drawn.traced w earlier m atNode path
      rw [if_neg same,setBlockOther (Ne.symm same)]
      exact ⟨Walker.tracesKept walks.keeps traces,x,selected,walks.keeps _ _ named⟩

theorem drawnEmitNode (drawn : Drawn g full d order into along) {v : String} (fresh : v ∉ order) :
    ∃ added, Drawn g full (d.emitNode v) (order ++ [v]) into added ∧ ∀ w ∈ order, added w = along w := by
  cases found : d.graph.node? v with
  | none =>
      have idle : d.emitNode v = d := by simp only [Draft.emitNode,found]
      rw [idle]
      refine ⟨along,drawnSkip drawn fresh fun n there => ?_,fun _ _ => rfl⟩
      rw [drawn.graph,there] at found
      contradiction
  | some n =>
      cases walked : (d.walkerOf v n).walk? d.names n.path with
      | none =>
          have idle : d.emitNode v = d := by simp only [Draft.emitNode,found,walked]
          rw [idle]
          refine ⟨along,drawnSkip drawn fresh fun m there => ?_,fun _ _ => rfl⟩
          rw [drawn.graph,there] at found
          cases Option.some.inj found
          cases path : n.path with
          | nil => rfl
          | cons cls rest =>
              rw [path] at walked
              contradiction
      | some walk =>
          refine ⟨_,drawnEmit drawn fresh found walked,fun w there => setBlockOther ?_ _ _⟩
          rintro rfl
          exact fresh there

theorem drawnEmitNodes (drawn : Drawn g full d order into along) {ids : List String}
    (once : (order ++ ids).Nodup) : ∃ added, Drawn g full (ids.foldl Draft.emitNode d) (order ++ ids) into added ∧
      ∀ w ∈ order, added w = along w := by
  induction ids generalizing d order along with
  | nil =>
      rw [List.append_nil]
      exact ⟨along,drawn,fun _ _ => rfl⟩
  | cons v rest ih =>
      have whole : order ++ v :: rest = order ++ [v] ++ rest := by simp
      have fresh : v ∉ order := fun there => (List.nodup_append.mp once).2.2 v there v (by simp) rfl
      obtain ⟨_,further,kept⟩ := drawnEmitNode drawn fresh
      rw [whole] at once ⊢
      obtain ⟨added,done,left⟩ := ih further once
      exact ⟨added,done,fun w there => (left w (List.mem_append_left _ there)).trans (kept w there)⟩

theorem drawnEmitAll (g : SelectionGraph) (full : Bool) :
    ∃ along, Drawn g full (Draft.start g full).emitAll g.plan.order (fun _ => []) along := by
  have once : ([] ++ g.plan.order).Nodup := SelectionGraph.orderNodup g
  obtain ⟨along,drawn,_⟩ := drawnEmitNodes (drawnStart g full) once
  rw [List.nil_append] at drawn
  exact ⟨along,drawn⟩

theorem drawnElse (drawn : Drawn g full d order into along) {records : Table Triple Int} {log : EmissionLog}
    {comments : Table String (List String)} {bridges : Blocks}
    (laid : Laid { d with records := records, log := log, comments := comments } order bridges along) :
    Drawn g full { d with records := records, log := log, comments := comments } order bridges along :=
  { laid with
    graph := drawn.graph
    plan := drawn.plan
    walkers := drawn.walkers
    apart := drawn.apart
    pathless := drawn.pathless
    traced := drawn.traced }

theorem bridgeElse (d : Draft) (edge : SelectedEdge) :
    ∃ records log comments, d.bridge edge = { d with records := records, log := log, comments := comments } := by
  unfold Draft.bridge
  split
  · simp only
    split <;> exact ⟨_,_,_,rfl⟩
  · exact ⟨_,_,_,rfl⟩

theorem bridgesElse (d : Draft) (edges : List SelectedEdge) : ∃ records log comments,
    edges.foldl Draft.bridge d = { d with records := records, log := log, comments := comments } := by
  induction edges generalizing d with
  | nil => exact ⟨_,_,_,rfl⟩
  | cons edge rest ih =>
      obtain ⟨_,_,_,first⟩ := bridgeElse d edge
      obtain ⟨_,_,_,later⟩ := ih (d.bridge edge)
      rw [List.foldl_cons,later,first]
      exact ⟨_,_,_,rfl⟩

theorem announceElse (d : Draft) (crossings : List (String × String)) (link : String × String) :
    ∃ comments, d.announce crossings link = { d with comments := comments } := by
  unfold Draft.announce
  split
  · exact ⟨_,rfl⟩
  · exact ⟨_,rfl⟩

theorem annotateElse {bridged : List (String × String)} {after : Draft} (done : d.annotate bridged = .ok after) :
    ∃ comments, after = { d with comments := comments } := by
  have each : ∀ (crossings links : List (String × String)) (d : Draft), ∃ comments,
      links.foldl (fun d link => d.announce crossings link) d = { d with comments := comments } := by
    intro crossings links
    induction links with
    | nil => exact fun d => ⟨d.comments,rfl⟩
    | cons link rest ih =>
        intro d
        obtain ⟨_,first⟩ := announceElse d crossings link
        obtain ⟨_,later⟩ := ih (d.announce crossings link)
        rw [List.foldl_cons,later,first]
        exact ⟨_,rfl⟩
  unfold Draft.annotate at done
  split at done
  · contradiction
  · cases Except.ok.inj done
    exact each _ _ d

theorem drawnBridge (drawn : Drawn g full d order into along) (edge : SelectedEdge) :
    ∃ into, Drawn g full (d.bridge edge) order into along := by
  obtain ⟨bridges,laid⟩ := laidBridge drawn.toLaid edge
  obtain ⟨records,log,comments,same⟩ := bridgeElse d edge
  rw [same] at laid ⊢
  exact ⟨bridges,drawnElse drawn laid⟩

theorem drawnBridges (drawn : Drawn g full d order into along) (edges : List SelectedEdge) :
    ∃ into, Drawn g full (edges.foldl Draft.bridge d) order into along := by
  induction edges generalizing d into with
  | nil => exact ⟨into,drawn⟩
  | cons edge rest ih =>
      obtain ⟨_,further⟩ := drawnBridge drawn edge
      exact ih further

theorem drawnAnnotate (drawn : Drawn g full d order into along) {bridged : List (String × String)} {after : Draft}
    (done : d.annotate bridged = .ok after) : Drawn g full after order into along := by
  obtain ⟨comments,rfl⟩ := annotateElse done
  exact drawnElse drawn { drawn.toLaid with }

theorem patternFollows {p : SelectPattern} (emitted : Drawn g full (Draft.start g full).emitAll g.plan.order into along)
    (made : g.pattern full = .ok p) : ∃ d into, Drawn g full d g.plan.order into along ∧ p = d.finish := by
  obtain ⟨bridged,d,annotated,rfl⟩ := patternSteps made
  obtain ⟨into,resolved⟩ := drawnBridges emitted
    (Draft.bridgedEdges (Draft.start g full).emitAll.soundEdges)
  exact ⟨d,into,drawnAnnotate resolved annotated,rfl⟩

theorem patternDrawn {p : SelectPattern} (made : g.pattern full = .ok p) :
    ∃ d into along, Drawn g full d g.plan.order into along ∧ p = d.finish := by
  obtain ⟨along,emitted⟩ := drawnEmitAll g full
  obtain ⟨d,into,drawn,same⟩ := patternFollows emitted made
  exact ⟨d,into,along,drawn,same⟩

structure Blocked (g : SelectionGraph) (p : SelectPattern) (blocks : Blocks) : Prop where
  order : p.order = g.plan.order
  chains : p.chains = g.plan.chains
  emissions : p.emissions = p.order.flatMap blocks
  owned : ∀ v, ∀ e ∈ blocks v, e.owner = some v

theorem patternBlocked {p : SelectPattern} (made : g.pattern full = .ok p) : ∃ blocks, Blocked g p blocks := by
  obtain ⟨d,into,along,drawn,rfl⟩ := patternDrawn made
  have order : d.finish.order = g.plan.order := congrArg TraversalPlan.order drawn.plan
  refine ⟨fun v => into v ++ along v,order,congrArg TraversalPlan.chains drawn.plan,?_,drawn.owned⟩
  rw [order]
  exact drawn.entries

theorem ownBlock {p : SelectPattern} {blocks : Blocks} (blocked : Blocked g p blocks) {v : String} {e : Emission}
    (member : e ∈ p.emissions) (owner : e.owner = some v) : v ∈ p.order ∧ e ∈ blocks v := by
  rw [blocked.emissions] at member
  obtain ⟨w,there,inside⟩ := List.mem_flatMap.mp member
  cases (blocked.owned w e inside).symm.trans owner
  exact ⟨there,inside⟩

end PathQuery
