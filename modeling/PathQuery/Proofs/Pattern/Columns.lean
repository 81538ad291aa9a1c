import PathQuery.Proofs.Pattern.Drawing
import PathQuery.Proofs.Pattern.Growth

/-! The columns of a pattern: one for each variable that a node has, and the one of the central node marked. -/
namespace PathQuery

structure ColumnOf (d : Draft) (seen : List String) (x : String) (c : Projection) : Prop where
  name : c.name = x
  owned : ∃ id ∈ seen, d.selected.find? id = some x
  central : c.central = true ↔ ∃ id ∈ seen, d.plan.central = some id ∧ d.selected.find? id = some x

structure Columned (d : Draft) (seen : List String) (known : Table String Projection) : Prop where
  once : known.keys.Nodup
  each : ∀ x c, known.find? x = some c → ColumnOf d seen x c
  covers : ∀ id ∈ seen, ∀ x, d.selected.find? id = some x → ∃ c, known.find? x = some c

variable {d : Draft} {seen : List String} {known : Table String Projection} {id x : String} {c : Projection}

theorem seenBefore (other : d.selected.find? id ≠ some x) {owner : String} (owned : d.selected.find? owner = some x) :
    owner ∈ seen ++ [id] ↔ owner ∈ seen := by
  have apart : owner ≠ id := fun same => other (same ▸ owned)
  simp [apart]

theorem columnLater (column : ColumnOf d seen x c) (other : d.selected.find? id ≠ some x) :
    ColumnOf d (seen ++ [id]) x c where
  name := column.name
  owned := column.owned.imp fun _ ⟨member,owned⟩ => ⟨List.mem_append_left _ member,owned⟩
  central := column.central.trans (exists_congr fun _ => and_congr_left fun held => (seenBefore other held.2).symm)

theorem columnedSkip (columned : Columned d seen known) (absent : d.selected.find? id = none) :
    Columned d (seen ++ [id]) known where
  once := columned.once
  each := fun x c found => columnLater (columned.each x c found) (by simp [absent])
  covers := fun owner member x owned =>
    columned.covers owner ((seenBefore (by simp [absent]) owned).mp member) x owned

theorem columnedInsert (columned : Columned d seen known) (here : d.selected.find? id = some x)
    (column : ColumnOf d (seen ++ [id]) x c) : Columned d (seen ++ [id]) (known.insert x c) where
  once := Table.keysInsertNodup columned.once x c
  each := by
    intro y other found
    rw [Table.findInsert] at found
    split at found
    · next same =>
      cases Option.some.inj found
      exact same ▸ column
    · next apart =>
      exact columnLater (columned.each y other found) fun same => apart (Option.some.inj (here.symm.trans same))
  covers := by
    intro owner member y owned
    rw [Table.findInsert]
    split
    · exact ⟨c,rfl⟩
    · next apart =>
      have other : d.selected.find? id ≠ some y := fun same => apart (Option.some.inj (here.symm.trans same))
      exact columned.covers owner ((seenBefore other owned).mp member) y owned

theorem columnedStep (columned : Columned d seen known) (id : String) :
    Columned d (seen ++ [id]) (d.addProjection known id) := by
  have marked : ∀ {x}, d.selected.find? id = some x →
      ((∃ owner ∈ seen ++ [id], d.plan.central = some owner ∧ d.selected.find? owner = some x) ↔
        (∃ owner ∈ seen, d.plan.central = some owner ∧ d.selected.find? owner = some x) ∨
          d.plan.central = some id) := by
    intro x here
    simp [or_and_right,exists_or,here]
  unfold Draft.addProjection
  split
  · next absent => exact columnedSkip columned absent
  · next x here =>
    have owned : ∃ owner ∈ seen ++ [id], d.selected.find? owner = some x := ⟨id,by simp,here⟩
    split
    · next unknown =>
      refine columnedInsert columned here ⟨rfl,owned,?_⟩
      have nobody : ¬ ∃ owner ∈ seen, d.plan.central = some owner ∧ d.selected.find? owner = some x := by
        rintro ⟨owner,member,_,owned⟩
        obtain ⟨c,found⟩ := columned.covers owner member x owned
        rw [unknown] at found
        cases found
      rw [marked here,decide_eq_true_eq]
      exact (or_iff_right nobody).symm
    · next there found =>
      have column := columned.each x there found
      refine columnedInsert columned here ⟨column.name,owned,?_⟩
      rw [marked here,Bool.or_eq_true,decide_eq_true_eq,column.central]

theorem columnedAll (d : Draft) : Columned d d.plan.order (d.plan.order.foldl d.addProjection .empty) := by
  suffices ∀ (ids seen : List String) (known : Table String Projection), Columned d seen known →
      Columned d (seen ++ ids) (ids.foldl d.addProjection known) from
    this d.plan.order [] .empty
      ⟨List.nodup_nil,(fun _ _ none => nomatch none),fun _ none => nomatch none⟩
  intro ids
  induction ids with
  | nil => exact fun seen known columned => (List.append_nil seen).symm ▸ columned
  | cons id rest ih =>
      intro seen known columned
      rw [List.append_cons]
      exact ih _ _ (columnedStep columned id)

theorem columnNames (columned : Columned d seen known) : known.values.map (·.name) = known.keys := by
  rw [Table.values,Table.keys,List.map_map]
  refine List.map_congr_left ?_
  rintro ⟨x,c⟩ member
  exact (columned.each x c (Table.findEntry columned.once member)).name

theorem columnFound (columned : Columned d seen known) {c : Projection} (member : c ∈ known.values) :
    known.find? c.name = some c := by
  obtain ⟨⟨x,c⟩,there,rfl⟩ := List.mem_map.mp member
  have found := Table.findEntry columned.once there
  exact (columned.each x c found).name.symm ▸ found

variable {g : SelectionGraph} {full : Bool} {p : SelectPattern}

theorem columnsOnce (made : g.pattern full = .ok p) : (p.projections.map (·.name)).Nodup := by
  obtain ⟨d,_,rfl⟩ := patternGrown made
  have columned := columnedAll d
  have names : d.finish.projections.map (·.name) = _ := columnNames columned
  rw [names]
  exact columned.once

theorem columnSelected (made : g.pattern full = .ok p) {c : Projection} (member : c ∈ p.projections) :
    ∃ id, p.selected.find? id = some c.name := by
  obtain ⟨d,_,rfl⟩ := patternGrown made
  have columned := columnedAll d
  obtain ⟨id,_,selected⟩ := (columned.each _ _ (columnFound columned member)).owned
  exact ⟨id,selected⟩

theorem selectedIff (made : g.pattern full = .ok p) (id : String) :
    (∃ x, p.selected.find? id = some x) ↔ ∃ n, g.node? id = some n ∧ n.path ≠ [] := by
  obtain ⟨d,into,along,drawn,rfl⟩ := patternDrawn made
  constructor
  · rintro ⟨x,selected⟩
    have filled := drawn.selected id (Option.isSome_iff_exists.mpr ⟨x,selected⟩)
    refine Decidable.byContradiction fun none => filled (drawn.pathless id fun n found => ?_)
    exact Decidable.byContradiction fun path => none ⟨n,found,path⟩
  · rintro ⟨n,found,path⟩
    have placed := SelectionGraph.memOrder.mpr (SelectionGraph.idOfNode found)
    obtain ⟨_,x,selected,_⟩ := drawn.traced id placed n found path
    exact ⟨x,selected⟩

theorem centralColumn (made : g.pattern full = .ok p) :
    (p.projections.filter (·.central)).map (·.name) = (g.effectiveCentral.bind p.selected.find?).toList := by
  obtain ⟨d,grown,rfl⟩ := patternGrown made
  have columned := columnedAll d
  have central : d.plan.central = g.effectiveCentral := congrArg TraversalPlan.central grown.plan
  have marked : ∀ x, x ∈ (d.projections.filter (·.central)).map (·.name) ↔
      g.effectiveCentral.bind d.selected.find? = some x := by
    intro x
    rw [← central,Option.bind_eq_some_iff,List.mem_map]
    constructor
    · rintro ⟨c,member,rfl⟩
      obtain ⟨member,mark⟩ := List.mem_filter.mp member
      obtain ⟨id,_,same,selected⟩ := (columned.each _ c (columnFound columned member)).central.mp mark
      exact ⟨id,same,selected⟩
    · rintro ⟨id,same,selected⟩
      have placed : id ∈ d.plan.order := by
        rw [show d.plan.order = g.plan.order from congrArg TraversalPlan.order grown.plan,SelectionGraph.memOrder]
        exact SelectionGraph.effectiveCentralMem (central ▸ same)
      obtain ⟨c,found⟩ := columned.covers id placed x selected
      have column := columned.each x c found
      have mark := column.central.mpr ⟨id,placed,same,selected⟩
      exact ⟨c,List.mem_filter.mpr ⟨Table.findValue found,mark⟩,column.name⟩
  have once : ((d.projections.filter (·.central)).map (·.name)).Nodup := by
    have names : (d.projections.map (·.name)).Nodup := (columnNames columned).symm ▸ columned.once
    exact (List.filter_sublist.map _).nodup names
  change (d.projections.filter (·.central)).map (·.name) = (g.effectiveCentral.bind d.selected.find?).toList
  cases found : g.effectiveCentral.bind d.selected.find? with
  | none =>
      refine List.eq_nil_iff_forall_not_mem.mpr fun x member => ?_
      rw [marked,found] at member
      cases member
  | some x =>
      refine List.perm_singleton.mp ((List.perm_ext_iff_of_nodup once (by simp)).mpr fun y => ?_)
      rw [marked,found,List.mem_singleton,Option.some.injEq,eq_comm]

end PathQuery
