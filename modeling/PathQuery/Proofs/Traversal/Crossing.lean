import Mathlib.Logic.Relation
import Mathlib.Order.WellFoundedSet
import PathQuery.Proofs.Text.Fragment
import PathQuery.Proofs.Traversal.Search

/-! The context of a node of a forest spells what is crossed on the way down to it, from the central node or
from the origin of its tree. Contexts tell lists of crossings apart as far as their fragments do. -/
namespace PathQuery

namespace SelectionGraph

structure IsForest (g : SelectionGraph) : Prop where
  single : ∀ a b d, (a,d) ∈ g.transitions → (b,d) ∈ g.transitions → a = b
  acyclic : ∀ a, ¬ Relation.TransGen (fun c d => (c,d) ∈ g.transitions) a a

def IsOrigin (g : SelectionGraph) (id : String) : Prop := id ∈ g.nodeIds ∧ ∀ c, (c,id) ∉ g.transitions

def IsStart (g : SelectionGraph) (id : String) : Prop := g.selectedCentral = some id ∨ g.IsOrigin id

def crossings (g : SelectionGraph) (link : String × String) : List String :=
  (if g.isReferenceNode link.1 then [link.1] else []) ++
    if g.isBoundary link && !g.isReferenceNode link.2 then [link.2] else []

inductive Crossed (g : SelectionGraph) (start : String → Prop) : String → List String → Prop where
  | here {id : String} (starts : start id) : Crossed g start id []
  | down {c d : String} {ids : List String} (above : Crossed g start c ids) (link : (c,d) ∈ g.transitions)
      (further : ¬ start d) : Crossed g start d (ids ++ g.crossings (c,d))

variable {g : SelectionGraph} {start : String → Prop}

theorem crossedOnce (forest : g.IsForest) {id : String} {first second : List String}
    (one : g.Crossed start id first) (other : g.Crossed start id second) : first = second := by
  induction one generalizing second with
  | here starts =>
      cases other with
      | here => rfl
      | down _ _ further => exact absurd starts further
  | down above link further ih =>
      cases other with
      | here starts => exact absurd starts further
      | down more another _ =>
          cases forest.single _ _ _ link another
          rw [ih more]

theorem crossedSome (forest : g.IsForest) (origins : ∀ id, g.IsOrigin id → start id) {id : String}
    (there : id ∈ g.nodeIds) : ∃ ids, g.Crossed start id ids := by
  -- A finite relation without a cycle is well founded.
  have order : IsStrictOrder String (Relation.TransGen fun c d => (c,d) ∈ g.transitions) :=
    { irrefl := forest.acyclic, trans := fun _ _ _ => Relation.TransGen.trans }
  have wellFounded := (List.finite_toSet g.nodeIds).wellFoundedOn
    (r := Relation.TransGen fun c d => (c,d) ∈ g.transitions)
  refine wellFounded.induction there (P := fun id => ∃ ids, g.Crossed start id ids) ?_
  intro d member above
  by_cases starts : start d
  · exact ⟨[],.here starts⟩
  · obtain ⟨c,link⟩ : ∃ c, (c,d) ∈ g.transitions := by
      refine Classical.byContradiction fun none => starts (origins d ⟨member,?_⟩)
      exact fun c link => none ⟨c,link⟩
    obtain ⟨ids,crossed⟩ := above c (endsOfTransition link).1 (.single link)
    exact ⟨_,.down crossed link starts⟩

def contextOf (ids : List String) : String := ids.foldl crossing rootContext

def barred (words : List String) : List Char := words.flatMap fun word => "|ref:".toList ++ word.toList

theorem contextOfText (ids : List String) :
    (contextOf ids).toList = rootContext.toList ++ barred (ids.map fragment) := by
  suffices ∀ context, (ids.foldl crossing context).toList = context.toList ++ barred (ids.map fragment) from
    this rootContext
  induction ids with
  | nil => simp [barred]
  | cons id rest ih =>
      intro context
      rw [List.foldl_cons,ih]
      simp [crossing,barred,String.toList_append]

theorem barredStops (words : List String) : Stops (· != '|') (barred words) := by
  cases words with
  | nil => exact fun _ head => nomatch head
  | cons word rest => exact stopsCons (by decide) _

theorem barredInjective {first second : List String} (solid : ∀ word ∈ first, '|' ∉ word.toList)
    (other : ∀ word ∈ second, '|' ∉ word.toList) (same : barred first = barred second) : first = second := by
  have inside : ∀ {word : String}, '|' ∉ word.toList → ∀ c ∈ word.toList, (c != '|') = true := by
    intro word solid c member
    simp only [bne_iff_ne]
    rintro rfl
    exact solid member
  induction first generalizing second with
  | nil =>
      cases second with
      | nil => rfl
      | cons _ _ => simp [barred] at same
  | cons a front ih =>
      cases second with
      | nil => simp [barred] at same
      | cons b back =>
          have cut : a.toList ++ barred front = b.toList ++ barred back := by
            simp only [barred,List.flatMap_cons,List.append_assoc] at same
            exact List.append_cancel_left same
          have runs := congrArg (List.takeWhile (· != '|')) cut
          rw [takeWhileRun (inside (solid a (by simp))) (barredStops front),
            takeWhileRun (inside (other b (by simp))) (barredStops back)] at runs
          rw [runs] at cut
          rw [String.toList_inj.mp runs,ih (fun word member => solid word (List.mem_cons_of_mem _ member))
            (fun word member => other word (List.mem_cons_of_mem _ member)) (List.append_cancel_left cut)]

theorem contextOfSame {first second : List String} :
    contextOf first = contextOf second ↔ first.map fragment = second.map fragment := by
  have solid : ∀ ids : List String, ∀ word ∈ ids.map fragment, '|' ∉ word.toList := by
    intro ids word member
    obtain ⟨id,_,rfl⟩ := List.mem_map.mp member
    exact wordLacks (fragmentWord id) (by decide)
  rw [← String.toList_inj,contextOfText,contextOfText,List.append_cancel_left_eq]
  exact ⟨barredInjective (solid first) (solid second),fun same => by rw [same]⟩

theorem contextStep {c d label : String} {ids : List String}
    (step : (d,label) ∈ g.contextSteps c (contextOf ids)) :
    (c,d) ∈ g.transitions ∧ label = contextOf (ids ++ g.crossings (c,d)) := by
  simp only [contextSteps,List.mem_map,Prod.mk.injEq] at step
  obtain ⟨_,target,rfl,rfl⟩ := step
  refine ⟨memTargetsOf.mp target,?_⟩
  rw [contextOf,contextOf,List.foldl_append,crossings]
  by_cases reference : g.isReferenceNode c = true <;> split <;> simp_all

theorem memOrigins {id : String} : id ∈ g.origins ↔ g.IsOrigin id := by
  simp only [origins,IsOrigin,List.mem_filter,memSortedIds,List.isEmpty_iff,List.eq_nil_iff_forall_not_mem,
    memSourcesOf]

theorem memContextRoots {id : String} : id ∈ g.contextRoots ↔ g.IsStart id := by
  unfold contextRoots IsStart
  split
  · next central selected =>
    simp only [List.mem_cons,List.mem_filter,memOrigins,selected,Option.some.injEq,eq_comm (a := central)]
    by_cases same : id = central <;> simp [same]
  · next none => simp [memOrigins,none]

instance (g : SelectionGraph) (id : String) : Decidable (g.IsOrigin id) := decidable_of_iff _ memOrigins

instance (g : SelectionGraph) (id : String) : Decidable (g.IsStart id) := decidable_of_iff _ memContextRoots

def grownFromRoots (g : SelectionGraph) : List (String × String) × List String :=
  let found := Breadth.claim (sortedIds g.nodeIds) (g.contextRoots.map (·,rootContext))
  Breadth.grow g.contextSteps found.2 found.1

theorem contextsAppend (g : SelectionGraph) : ∃ orphans, g.contexts.entries = g.grownFromRoots.1 ++ orphans :=
  ⟨_,rfl⟩

theorem startClaimed {id : String} (starts : g.IsStart id) :
    id ∉ (Breadth.claim (sortedIds g.nodeIds) (g.contextRoots.map (·,rootContext))).2 := by
  have seed : (id,rootContext) ∈ g.contextRoots.map (·,rootContext) :=
    List.mem_map.mpr ⟨id,memContextRoots.mpr starts,rfl⟩
  exact Breadth.claimCovers (sortedIdsNodup _) seed

theorem grownLabels : ∀ node ∈ g.grownFromRoots.1,
    ∃ ids, g.Crossed g.IsStart node.1 ids ∧ node.2 = contextOf ids := by
  refine Breadth.growAll (P := fun id label => ∃ ids, g.Crossed g.IsStart id ids ∧ label = contextOf ids) ?_ ?_
  · intro node seed
    obtain ⟨id,root,rfl⟩ := List.mem_map.mp (Breadth.claimMem seed).1
    exact ⟨[],.here (memContextRoots.mp root),rfl⟩
  · rintro id _ ⟨ids,crossed,rfl⟩ child step unseen
    obtain ⟨link,label⟩ := contextStep step
    exact ⟨_,.down crossed link fun starts => startClaimed starts unseen,label⟩

theorem crossedSelected {id : String} {ids : List String} (crossed : g.Crossed g.IsStart id ids) :
    id ∈ g.nodeIds := by
  cases crossed with
  | here starts =>
      rcases starts with central | origin
      · simpa [contains] using (Option.filter_eq_some_iff.mp central).2
      · exact origin.1
  | down _ link _ => exact (endsOfTransition link).2

theorem crossedGrown {id : String} {ids : List String} (crossed : g.Crossed g.IsStart id ids) :
    id ∈ g.grownFromRoots.1.map Prod.fst := by
  have shared : (g.grownFromRoots.1.map Prod.fst ++ g.grownFromRoots.2).Perm (sortedIds g.nodeIds) :=
    Breadth.groupPerm _ _
  have grown : ∀ {id}, id ∈ g.nodeIds → id ∉ g.grownFromRoots.2 → id ∈ g.grownFromRoots.1.map Prod.fst :=
    fun there found => (List.mem_append.mp (shared.mem_iff.mpr (memSortedIds.mpr there))).resolve_right found
  refine grown (crossedSelected crossed) ?_
  induction crossed with
  | here starts => exact fun left => startClaimed starts (Breadth.growLeft left)
  | @down c d ids above link further ih =>
      obtain ⟨⟨_,label⟩,found,rfl⟩ := List.mem_map.mp (grown (crossedSelected above) ih)
      have rest := (List.nodup_append.mp ((Breadth.claimPerm (sortedIds g.nodeIds)
        (g.contextRoots.map (·,rootContext))).nodup_iff.mpr (sortedIdsNodup _))).2.1
      exact Breadth.growClosed rest _ found _ (List.mem_map.mpr ⟨d,memTargetsOf.mpr link,rfl⟩)

theorem contextCrossed (forest : g.IsForest) {id : String} {ids : List String}
    (crossed : g.Crossed g.IsStart id ids) : g.contexts.find? id = some (contextOf ids) := by
  obtain ⟨orphans,entries⟩ := contextsAppend g
  obtain ⟨label,found⟩ := Option.isSome_iff_exists.mp (Table.lookupIsSome.mpr (crossedGrown crossed))
  obtain ⟨others,again,rfl⟩ := grownLabels _ (Table.lookupMem found)
  rw [Table.find?,entries,Table.lookupAppend,found,crossedOnce forest again crossed]
  rfl

end SelectionGraph

end PathQuery
