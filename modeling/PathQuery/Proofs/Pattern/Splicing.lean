import PathQuery.Proofs.Pattern.Entries
import PathQuery.Proofs.Pattern.Spelling

/-! Where the bridges of a pattern stand. They come in when all paths are there, each moved in front of the path of
its target. In the end the bridges into a node stand in front of its path in the order of the edges, and nothing
else has moved. -/
namespace PathQuery

inductive Links (source target : String) : String → Triple → Prop where
  | onward {predicate : String} (plain : predicate.toList.head? ≠ some '^') :
      Links source target predicate ⟨.var source,.iri predicate,.var target⟩
  | turned {predicate : String} : Links source target ("^" ++ predicate) ⟨.var target,.iri predicate,.var source⟩

theorem linksOnce {source target predicate : String} {one other : Triple} (first : Links source target predicate one)
    (second : Links source target predicate other) : one = other := by
  generalize same : predicate = token at second
  cases first with
  | onward plain =>
      cases second with
      | onward _ => rw [same]
      | turned => exact absurd (by simp [same]) plain
  | @turned first =>
      cases second with
      | onward plain => exact absurd (by simp [← same]) plain
      | @turned second =>
          have chars := congrArg String.toList same
          simp only [String.toList_append] at chars
          rw [String.toList_inj.mp (List.append_cancel_left chars)]

theorem linkLinks (source token target : String) : Links source target token (linkTriple source token target) := by
  unfold linkTriple splitInverse
  split
  · next iri inverse parts =>
    split at parts
    · next rest caret =>
      cases parts
      have whole : token = "^" ++ String.ofList rest := String.toList_inj.mp (by simp [caret])
      rw [whole]
      exact .turned
    · next plain =>
      cases parts
      refine .onward fun caret => ?_
      obtain ⟨rest,chars⟩ := List.head?_eq_some_iff.mp caret
      exact plain rest chars

namespace SelectPattern

def bridgesInto (p : SelectPattern) (g : SelectionGraph) (v : String) : List SelectedEdge :=
  g.internalEdges.filter fun e =>
    e.target = v && e.bridgePredicate ≠ "" && p.selected.contains e.source && p.selected.contains e.target

def Joins (p : SelectPattern) (edge : SelectedEdge) (t : Triple) : Prop :=
  ∃ source target, p.selected.find? edge.source = some source ∧ p.selected.find? edge.target = some target ∧
    Links source target edge.bridgePredicate t

def Resolves (p : SelectPattern) (edge : SelectedEdge) (e : Emission) : Prop :=
  e.owner = some edge.target ∧ p.Joins edge e.triple

end SelectPattern

theorem joinsOnce {p : SelectPattern} {edge : SelectedEdge} {t other : Triple} (one : p.Joins edge t)
    (second : p.Joins edge other) : t = other := by
  obtain ⟨_,_,start,stop,links⟩ := one
  obtain ⟨_,_,also,too,further⟩ := second
  cases start.symm.trans also
  cases stop.symm.trans too
  exact linksOnce links further

theorem forallMade {α β γ : Type} {make : α → Option γ} {read : β → γ} {items : List α} {made : List β}
    (same : made.map read = items.filterMap make) :
    List.Forall₂ (fun item b => make item = some (read b)) (items.filter fun item => (make item).isSome) made := by
  induction items generalizing made with
  | nil =>
      rw [List.map_eq_nil_iff.mp same]
      exact .nil
  | cons item rest ih =>
      cases here : make item with
      | none =>
          rw [List.filterMap_cons_none here] at same
          rw [List.filter_cons_of_neg (by simp [here])]
          exact ih same
      | some c =>
          rw [List.filterMap_cons_some here] at same
          obtain ⟨b,later,rfl,rfl,further⟩ := List.map_eq_cons_iff.mp same
          rw [List.filter_cons_of_pos (by simp [here])]
          exact .cons here (ih further)

def SelectionGraph.pathEmissions (g : SelectionGraph) (full : Bool) (v : String) : List Emission :=
  let before := g.draftAfter full (g.plan.order.takeWhile (· ≠ v))
  (before.emitNode v).log.entries.drop before.log.entries.length

variable {g : SelectionGraph} {full : Bool} {along : Blocks} {p : SelectPattern}

theorem emittedSuffix {d : Draft} {order : List String} {into : Blocks} (drawn : Drawn g full d order into along)
    {v : String} (fresh : v ∉ order) : ∃ added, Drawn g full (d.emitNode v) (order ++ [v]) into added ∧
      (d.emitNode v).log.entries = d.log.entries ++ (into v ++ added v) := by
  obtain ⟨added,emitted,kept⟩ := drawnEmitNode drawn fresh
  have earlier : order.flatMap (fun w => into w ++ added w) = order.flatMap fun w => into w ++ along w :=
    flatMapCongr fun w there => by rw [kept w there]
  refine ⟨added,emitted,?_⟩
  rw [emitted.entries,List.flatMap_append,earlier,← drawn.entries,List.flatMap_singleton]

theorem drawnAfter (g : SelectionGraph) (full : Bool) {ids : List String} (once : ids.Nodup) :
    ∃ along, Drawn g full (g.draftAfter full ids) ids (fun _ => []) along := by
  obtain ⟨along,drawn,_⟩ := drawnEmitNodes (drawnStart g full) (show ([] ++ ids).Nodup from once)
  exact ⟨along,drawn⟩

theorem alongEmissions (drawn : Drawn g full (Draft.start g full).emitAll g.plan.order (fun _ => []) along) :
    along = g.pathEmissions full := by
  funext v
  have once : g.plan.order.Nodup := SelectionGraph.orderNodup g
  have fresh : v ∉ g.plan.order.takeWhile (· ≠ v) := fun there => by simpa using List.mem_takeWhile_imp there
  obtain ⟨_,start⟩ := drawnAfter g full ((List.takeWhile_sublist (· ≠ v)).nodup once)
  obtain ⟨added,emitted,suffix⟩ := emittedSuffix start fresh
  have turn : g.pathEmissions full v = added v := by
    rw [SelectionGraph.pathEmissions,suffix]
    simp
  rw [turn]
  by_cases inside : v ∈ g.plan.order
  · obtain ⟨before,after,whole,notBefore,_⟩ := splitAt inside once
    have earlier : g.plan.order.takeWhile (· ≠ v) = before := by
      rw [whole,List.takeWhile_append_of_pos (fun w there => by simpa using ne_of_mem_of_not_mem there notBefore)]
      simp
    have order : before ++ [v] ++ after = g.plan.order := by rw [whole,List.append_assoc,List.singleton_append]
    rw [earlier] at emitted
    obtain ⟨all,done,kept⟩ := drawnEmitNodes emitted (order ▸ once)
    rw [order,← emitAllTurns whole] at done
    calc along v = all v := (ownedBy drawn.toLaid v).symm.trans (ownedBy done.toLaid v)
      _ = added v := kept v (by simp)
  · have missing : ∀ n, g.node? v = some n → n.path = [] := fun n found =>
      absurd (SelectionGraph.memOrder.mpr (SelectionGraph.idOfNode found)) inside
    rw [(drawn.absent v inside).2,emitted.pathless v missing]

structure Spliced (g : SelectionGraph) (full : Bool) (p : SelectPattern) (into : Blocks) : Prop where
  emissions : p.emissions = g.plan.order.flatMap fun v => into v ++ g.pathEmissions full v
  bridges : ∀ v, List.Forall₂ p.Resolves (p.bridgesInto g v) (into v)

theorem drawnPaths (g : SelectionGraph) (full : Bool) :
    Drawn g full (Draft.start g full).emitAll g.plan.order (fun _ => []) (g.pathEmissions full) := by
  obtain ⟨along,drawn⟩ := drawnEmitAll g full
  exact alongEmissions drawn ▸ drawn

theorem pathBegins (full : Bool) {v : String} {n : SelectedNode} (found : g.node? v = some n) (path : n.path ≠ []) :
    ∃ first rest, g.pathEmissions full v = first :: rest := by
  have drawn := drawnPaths g full
  have inside := SelectionGraph.memOrder.mpr (SelectionGraph.idOfNode found)
  obtain ⟨_,_,selected,_⟩ := drawn.traced v inside n found path
  exact List.exists_cons_of_ne_nil (drawn.selected v (by rw [selected]; rfl))

theorem patternPaths (made : g.pattern full = .ok p) :
    ∃ into, Composed (Draft.start g full).emitAll (g.pathEmissions full) into p := by
  obtain ⟨q,into,other,composed⟩ := patternComposed (soundMade made) full (drawnPaths g full).toLaid
  cases made.symm.trans other
  exact ⟨into,composed⟩

theorem memBridgesInto {v : String} {edge : SelectedEdge} (inside : edge ∈ p.bridgesInto g v) :
    edge ∈ g.internalEdges ∧ edge.target = v ∧ edge.bridgePredicate ≠ "" := by
  obtain ⟨member,kept⟩ := List.mem_filter.mp inside
  simp only [Bool.and_eq_true,decide_eq_true_eq] at kept
  exact ⟨member,kept.1.1⟩

theorem bridgeGiven {base : Draft} (selected : p.selected = base.selected) (edge : SelectedEdge) :
    (base.bridgeOf? edge).isSome = (p.selected.contains edge.source && p.selected.contains edge.target) := by
  unfold Draft.bridgeOf? Table.contains
  rw [selected]
  cases base.selected.find? edge.source with
  | none => rfl
  | some source => cases base.selected.find? edge.target <;> rfl

theorem bridgeResolves {base : Draft} (selected : p.selected = base.selected) {edge : SelectedEdge} {e : Emission}
    (given : base.bridgeOf? edge = some (p.toPattern.entry e)) : p.Resolves edge e := by
  unfold Draft.bridgeOf? at given
  split at given
  · next source target start stop =>
    have entry := Option.some.inj given
    have triple : e.triple = _ := (congrArg Entry.triple entry).symm
    refine ⟨(congrArg Entry.owner entry).symm,source,target,selected ▸ start,selected ▸ stop,?_⟩
    rw [triple]
    exact linkLinks source edge.bridgePredicate target
  · contradiction

theorem Composed.bridgesMade {base : Draft} {into : Blocks} (composed : Composed base along into p) (v : String) :
    List.Forall₂ (fun edge e => base.bridgeOf? edge = some (p.toPattern.entry e))
      (p.bridgesInto base.graph v) (into v) := by
  have listed : p.bridgesInto base.graph v = ((Draft.bridgedEdges base.graph.internalEdges).filter
      (·.target = v)).filter fun edge => (base.bridgeOf? edge).isSome := by
    simp only [bridgeGiven composed.selected,Draft.bridgedEdges,List.filter_filter,SelectPattern.bridgesInto]
    refine List.filter_congr fun e _ => Bool.eq_iff_iff.mpr ?_
    simp only [Bool.and_eq_true]
    tauto
  rw [listed]
  exact forallMade (composed.bridges v)

theorem Composed.spliced {into : Blocks}
    (composed : Composed (Draft.start g full).emitAll (g.pathEmissions full) into p) : Spliced g full p into where
  emissions := by rw [composed.emissions,(drawnPaths g full).plan]
  bridges := fun v => by
    have made := composed.bridgesMade v
    rw [(drawnPaths g full).graph] at made
    exact made.imp fun _ _ => bridgeResolves composed.selected

theorem Composed.blocked {into : Blocks}
    (composed : Composed (Draft.start g full).emitAll (g.pathEmissions full) into p) :
    Blocked g p fun v => into v ++ g.pathEmissions full v := by
  have drawn := drawnPaths g full
  have order : p.order = g.plan.order := by rw [composed.order,drawn.plan]
  refine ⟨order,by rw [composed.chains,drawn.plan],by rw [composed.emissions,drawn.plan,order],fun v e member => ?_⟩
  rcases List.mem_append.mp member with bridge | path
  · obtain ⟨edge,inside,owner,_⟩ := forallRight (composed.spliced.bridges v) bridge
    rw [owner,(memBridgesInto inside).2.1]
  · exact drawn.owned v e path

theorem patternMadeIff (full : Bool) :
    (∃ p, g.pattern full = .ok p) ↔ ∀ e ∈ g.internalEdges, e.bridgeFault? = none :=
  ⟨fun ⟨_,made⟩ => faultlessIff.mp (soundMade made),fun sound => patternMade (faultlessIff.mpr sound) full⟩

/-- A pattern is made just if each bridge between selected nodes is a text or missing. Then its emissions are, for
one node after the other, the bridges into the node in the order of the edges and what was asked for along its path
when its turn came; and each id that was given out is there once. -/
theorem bridgesSpliced (g : SelectionGraph) (full : Bool) :
    ((∃ p, g.pattern full = .ok p) ↔ ∀ e ∈ g.internalEdges, e.bridgeFault? = none) ∧
    ∀ p, g.pattern full = .ok p → (∃ into, Spliced g full p into) ∧
      (p.emissions.map (·.id)).Perm ((List.range p.emissions.length).map emissionId) := by
  refine ⟨patternMadeIff full,fun p made => ?_⟩
  obtain ⟨into,composed⟩ := patternPaths made
  exact ⟨⟨into,composed.spliced⟩,composed.ids⟩

def bridgedThrice : SelectionGraph :=
  { nodes := [fieldNode "a" ["urn:A"] false,fieldNode "b" ["urn:B"] false,fieldNode "e" [] false]
    edges := [⟨"a","b",.text " urn:p",false⟩,⟨"e","b",.text "urn:r",false⟩,⟨"b","b",.text "^urn:q",false⟩]
    central := some "a"
    count := [] }

theorem bridgedThriceSpliced : ∃ p into first second, bridgedThrice.pattern false = .ok p ∧
    Spliced bridgedThrice false p into ∧ into "b" = [first,second] ∧
    p.Resolves ⟨"a","b",.text " urn:p",false⟩ first ∧ p.Resolves ⟨"b","b",.text "^urn:q",false⟩ second := by
  have evaluated : (bridgedThrice.pattern false).map (·.bridgesInto bridgedThrice "b") =
      .ok [⟨"a","b",.text " urn:p",false⟩,⟨"b","b",.text "^urn:q",false⟩] := by decide +kernel
  obtain ⟨p,made,bridges⟩ := mapOk evaluated
  obtain ⟨_,each⟩ := bridgesSpliced bridgedThrice false
  obtain ⟨⟨into,spliced⟩,_⟩ := each p made
  have resolved := bridges ▸ spliced.bridges "b"
  obtain ⟨first,_,one,rest,listed⟩ := List.forall₂_cons_left_iff.mp resolved
  obtain ⟨second,_,other,none,rfl⟩ := List.forall₂_cons_left_iff.mp rest
  cases none
  exact ⟨p,into,first,second,made,spliced,listed,one,other⟩

end PathQuery
