import Mathlib.Data.List.Destutter
import PathQuery.Proofs.Query.Mandatory
import PathQuery.Proofs.Traversal.Branches

/-! How often a body opens a scope for one node. Chains have one node at most, so a scope is opened where the
chain changes to it, and twice just if what is written with another chain stands between. -/
namespace PathQuery

section

variable {current chain : List String} {chains : List (List String)}

theorem runMembers : chain ∈ chains.destutter' (· ≠ ·) current ↔ chain ∈ current :: chains := by
  induction chains generalizing current with
  | nil => simp
  | cons next rest ih =>
      rw [List.destutter'_cons]
      split
      · simp only [List.mem_cons,ih]
      · next same =>
        cases Decidable.not_not.mp same
        rw [ih]
        simp

theorem shortHolds {r : String} (short : chain.length ≤ 1) : r ∈ chain ↔ chain = [r] := by
  match chain with
  | [] => simp
  | [x] => rw [List.mem_singleton,List.singleton_inj,eq_comm]

theorem runHolds {r : String} (short : ∀ chain ∈ current :: chains, chain.length ≤ 1) :
    r ∈ (chains.destutter' (· ≠ ·) current).flatten ↔ [r] ∈ current :: chains := by
  rw [List.mem_flatten]
  constructor
  · rintro ⟨chain,run,inside⟩
    have member := runMembers.mp run
    exact (shortHolds (short chain member)).mp inside ▸ member
  · intro member
    exact ⟨[r],runMembers.mpr member,List.mem_singleton.mpr rfl⟩

theorem runsOnce {r : String} (short : ∀ chain ∈ current :: chains, chain.length ≤ 1) :
    (chains.destutter' (· ≠ ·) current).flatten.count r ≤ 1 ↔
      ∀ other, [[r],other,[r]].Sublist (current :: chains) → other = [r] := by
  induction chains generalizing current with
  | nil =>
      have few : current.count r ≤ 1 := List.count_le_length.trans (short current List.mem_cons_self)
      rw [List.destutter'_nil,List.flatten_singleton]
      refine iff_of_true few fun other within => ?_
      have := within.length_le
      simp at this
  | cons next rest ih =>
      have later : ∀ chain ∈ next :: rest, chain.length ≤ 1 := fun chain member =>
        short chain (List.mem_cons_of_mem _ member)
      by_cases same : current = next
      · subst same
        rw [List.destutter'_cons_neg _ (by simp),ih later]
        refine ⟨fun once other within => ?_,fun once other within => once other (within.cons _)⟩
        rcases List.sublist_cons_iff.mp within with skipped | ⟨_,split,taken⟩
        · exact once other skipped
        · obtain ⟨rfl,rfl⟩ := List.cons.inj split
          rcases List.sublist_cons_iff.mp taken with skipped | ⟨_,split,_⟩
          · exact once other (skipped.cons_cons [r])
          · exact (List.cons.inj split).1
      rw [List.destutter'_cons_pos _ same,List.flatten_cons,List.count_append]
      by_cases own : current = [r]
      · -- Its run is the first, so there must be no other.
        subst own
        have one : [r].count r = 1 := List.count_singleton_self
        have none : 1 + (rest.destutter' (· ≠ ·) next).flatten.count r ≤ 1 ↔ [r] ∉ next :: rest := by
          rw [← runHolds later,← List.count_eq_zero]
          omega
        rw [one,none]
        constructor
        · intro absent other within
          rcases List.sublist_cons_iff.mp within with skipped | ⟨_,split,taken⟩
          · exact absurd (skipped.subset List.mem_cons_self) absent
          · obtain ⟨_,rfl⟩ := List.cons.inj split
            exact absurd (taken.subset (by simp)) absent
        · intro once member
          rcases List.mem_cons.mp member with here | behind
          · exact same here
          · have back : [[r],next,[r]].Sublist ([r] :: next :: rest) :=
              ((List.singleton_sublist.mpr behind).cons_cons next).cons_cons [r]
            exact same (once next back).symm
      · have none : current.count r = 0 := List.count_eq_zero.mpr fun inside =>
          own ((shortHolds (short current List.mem_cons_self)).mp inside)
        rw [none,Nat.zero_add,ih later]
        refine ⟨fun once other within => once other ?_,fun once other within => once other (within.cons _)⟩
        rcases List.sublist_cons_iff.mp within with skipped | ⟨_,split,_⟩
        · exact skipped
        · exact absurd (List.cons.inj split).1.symm own

theorem runsOfCopies {copies : List (List String)} (same : ∀ c ∈ copies, c = chain) (some : copies ≠ []) :
    (copies ++ chains).destutter' (· ≠ ·) current = (chain :: chains).destutter' (· ≠ ·) current := by
  induction copies generalizing current with
  | nil => exact absurd rfl some
  | cons first rest ih =>
      obtain rfl : first = chain := same first List.mem_cons_self
      have fewer : (rest ++ chains).destutter' (· ≠ ·) first = chains.destutter' (· ≠ ·) first := by
        by_cases empty : rest = []
        · rw [empty,List.nil_append]
        · rw [ih (fun c member => same c (List.mem_cons_of_mem _ member)) empty,
            List.destutter'_cons_neg _ (by simp)]
      rw [List.cons_append,List.destutter'_cons,List.destutter'_cons,fewer]
      split
      · rfl
      · next equal =>
        cases Decidable.not_not.mp equal
        rw [fewer]

theorem runsOfBlocks {order : List String} {blocks : String → List (List String)} {chainOf : String → List String}
    (same : ∀ v, ∀ c ∈ blocks v, c = chainOf v) :
    (order.flatMap blocks).destutter' (· ≠ ·) current =
      ((order.filter fun v => blocks v ≠ []).map chainOf).destutter' (· ≠ ·) current := by
  induction order generalizing current with
  | nil => rfl
  | cons v rest ih =>
      rw [List.flatMap_cons]
      by_cases none : blocks v = []
      · rw [none,List.nil_append,ih,List.filter_cons_of_neg (by simpa using none)]
      · rw [runsOfCopies (same v) none,List.filter_cons_of_pos (by simpa using none),List.map_cons,
          List.destutter'_cons,List.destutter'_cons,ih,ih]

end

def Line.opened? : Line → Option String
  | .opening scope => some scope.id
  | _ => none

def openedIds (lines : List Line) : List String := lines.filterMap Line.opened?

theorem openedAppend (first second : List Line) :
    openedIds (first ++ second) = openedIds first ++ openedIds second := List.filterMap_append

theorem openedSkims : Line.Skims Line.opened? := ⟨rfl,fun _ _ => rfl,fun _ => rfl,fun _ => rfl⟩

theorem openedClosings (scopes : List Scope) : openedIds (closings scopes) = [] :=
  closingsSkimmed openedSkims scopes

theorem openedNotes (p : Pattern) (e : Emission) : openedIds (p.notes e) = [] := notesSkimmed openedSkims p e

theorem openedMarking (p : Pattern) (e : Emission) (opened : List Scope) : openedIds (p.marking e opened) = [] :=
  markingSkimmed openedSkims p e opened

theorem openedOpenings (scopes : List Scope) : openedIds (scopes.map .opening) = scopes.map Scope.id := by
  induction scopes with
  | nil => rfl
  | cons scope rest ih => exact congrArg (scope.id :: ·) ih

theorem enteredIds {opened : List Scope} {chain : List String} (few : opened.length ≤ 1) (short : chain.length ≤ 1)
    (depth : Int) : opened.map Scope.id ++ (entering opened chain depth).map Scope.id =
      if opened.map Scope.id = chain then chain else opened.map Scope.id ++ chain := by
  match opened,chain with
  | [],[] => rfl
  | [],[id] => rfl
  | [scope],[] => rfl
  | [scope],[id] =>
      by_cases same : scope.id = id <;> simp [entering,sharedScopes,same]

section

variable {chain : List String} {runs : List (List String)}

theorem leftRun (current : List String) :
    (([] :: runs).destutter' (· ≠ ·) current).flatten = current ++ (runs.destutter' (· ≠ ·) []).flatten := by
  rw [List.destutter'_cons]
  split
  · rfl
  · next same => rw [not_not.mp same,List.nil_append]

theorem openedWriting (e : Emission) (opened : List Scope) {after : List Line} (few : opened.length ≤ 1)
    (short : chain.length ≤ 1) (resumed : chain ++ openedIds after = (runs.destutter' (· ≠ ·) chain).flatten) :
    opened.map Scope.id ++ openedIds (leaving opened chain ++
      (entering opened chain e.depth).map .opening ++ .triple e.depth e.triple :: after) =
        ((chain :: runs).destutter' (· ≠ ·) (opened.map Scope.id)).flatten := by
  have behind : openedIds (.triple e.depth e.triple :: after) = openedIds after := rfl
  rw [openedAppend,openedAppend,leaving,openedClosings,List.nil_append,openedOpenings,behind,
    ← List.append_assoc,enteredIds few short,List.destutter'_cons]
  by_cases same : opened.map Scope.id = chain
  · rw [if_pos same,if_neg (not_not.mpr same),same]
    exact resumed
  · rw [if_neg same,if_pos same,List.flatten_cons,← resumed,List.append_assoc]

end

namespace Pattern

structure Flat (p : Pattern) : Prop where
  once : p.emissions.Nodup
  recorded : ∀ e ∈ p.emissions, p.records.contains e.triple = true
  short : ∀ e ∈ p.emissions, (p.chainOf e).length ≤ 1
  marked : ∀ e ∈ p.emissions, (p.markerAt e).isSome = true → p.chainOf e = []

def Shows (p : Pattern) (e : Emission) : Prop :=
  (p.markerAt e).isSome = true ∨ p.emissions.find? (fun f => f.triple = e.triple) = some e

instance (p : Pattern) (e : Emission) : Decidable (p.Shows e) := by unfold Shows; infer_instance

variable {p : Pattern}

theorem showsIff (flat : p.Flat) {earlier rest : List Emission} {e : Emission}
    (all : p.emissions = earlier ++ e :: rest) :
    p.Shows e ↔ (p.markerAt e).isSome = true ∨ ∀ f ∈ earlier, f.triple ≠ e.triple := by
  refine or_congr_right ?_
  rw [all,List.find?_append]
  constructor
  · intro found f member same
    obtain ⟨first,there⟩ : ∃ first, earlier.find? (fun f => f.triple = e.triple) = some first :=
      Option.isSome_iff_exists.mp (List.find?_isSome.mpr ⟨f,member,by simpa using same⟩)
    rw [there,Option.some_or] at found
    cases Option.some.inj found
    have once := flat.once
    rw [all] at once
    exact (List.nodup_append.mp once).2.2 e (List.mem_of_find?_eq_some there) e List.mem_cons_self rfl
  · intro fresh
    have none : earlier.find? (fun f => f.triple = e.triple) = none :=
      List.find?_eq_none.mpr fun f member => by simpa using fresh f member
    rw [none,Option.none_or,List.find?_cons_of_pos (by simp)]

theorem openedFrom (flat : p.Flat) (opened : List Scope) {earlier rest : List Emission} {done : List Triple}
    (all : p.emissions = earlier ++ rest) (known : ∀ t, t ∈ done ↔ ∃ e ∈ earlier, e.triple = t)
    (few : opened.length ≤ 1) :
    opened.map Scope.id ++ openedIds (p.linesFrom opened done rest) =
      (((rest.filter fun e => p.Shows e).map p.chainOf).destutter' (· ≠ ·) (opened.map Scope.id)).flatten := by
  induction rest generalizing earlier opened done with
  | nil => simp [linesFrom,openedClosings]
  | cons e rest ih =>
      have member : e ∈ p.emissions := all ▸ List.mem_append_right _ List.mem_cons_self
      have short := flat.short e member
      have shows := showsIff flat all
      have further : p.emissions = (earlier ++ [e]) ++ rest := by rw [all,List.append_assoc]; rfl
      have asked : ∀ t, t ∈ e.triple :: done ↔ ∃ f ∈ earlier ++ [e], f.triple = t := by
        intro t
        rw [List.mem_cons,known]
        grind
      have again : e.triple ∈ done → ∀ t, t ∈ done ↔ ∃ f ∈ earlier ++ [e], f.triple = t := by
        intro there t
        rw [← asked t,List.mem_cons]
        exact ⟨.inr,fun member => member.elim (fun same => same ▸ there) id⟩
      have resume : ∀ here : List Scope, p.chainOf e ++
          openedIds (p.linesFrom (here.take (sharedScopes here (p.chainOf e)) ++
            entering here (p.chainOf e) e.depth) (e.triple :: done) rest) =
          (((rest.filter fun e => p.Shows e).map p.chainOf).destutter' (· ≠ ·) (p.chainOf e)).flatten := by
        intro here
        have ids := followedIds here (p.chainOf e) e.depth
        have after := ih (here.take (sharedScopes here (p.chainOf e)) ++
          entering here (p.chainOf e) e.depth) further asked (by rw [← List.length_map (f := Scope.id),ids]; exact short)
        rwa [ids] at after
      rw [linesFrom,if_pos (flat.recorded e member),openedAppend,openedAppend,openedNotes,openedMarking,
        List.nil_append,List.nil_append]
      cases marker : p.markerAt e with
      | some comment =>
          -- The marker leaves all scopes, whether or not the triple is still to be written.
          have outside : p.chainOf e = [] := flat.marked e member (by rw [marker]; rfl)
          have left : p.marked e opened = [] := by simp [marked,marker,outside,sharedScopes]
          rw [List.filter_cons_of_pos (by simp [shows,marker]),List.map_cons,left,outside,leftRun]
          congr 1
          split
          · next there => exact ih [] further (again (List.contains_iff_mem.mp there)) (by simp)
          · have resumed := resume []
            rw [outside] at resumed
            refine (openedWriting e [] (Nat.zero_le _) (Nat.zero_le _) resumed).trans ?_
            rw [List.map_nil,leftRun,List.nil_append]
      | none =>
          have stays : p.marked e opened = opened := by simp [marked,marker]
          rw [stays]
          split
          · next there =>
            have seen := List.contains_iff_mem.mp there
            obtain ⟨f,before,same⟩ := (known _).mp seen
            have hidden : ¬ p.Shows e := fun here =>
              ((shows.mp here).resolve_left (by simp [marker])) f before same
            rw [List.filter_cons_of_neg (by simpa using hidden)]
            exact ih opened further (again seen) few
          · next new =>
            have here : p.Shows e := shows.mpr (.inr fun f before same =>
              new (List.contains_iff_mem.mpr ((known _).mpr ⟨f,before,same⟩)))
            rw [List.filter_cons_of_pos (by simpa using here),List.map_cons]
            exact openedWriting e opened few short (resume opened)

end Pattern

def SelectPattern.shown (p : SelectPattern) : List String :=
  p.order.filter fun v => decide (∃ e ∈ p.emissions, e.owner = some v ∧ p.Shows e)

structure SelectPattern.Torn (p : SelectPattern) (r u w v : String) : Prop where
  within : [u,w,v].Sublist p.shown
  first : p.chains.findD u [] = [r]
  other : p.chains.findD w [] ≠ [r]
  last : p.chains.findD v [] = [r]

variable {g : SelectionGraph} {full : Bool} {p : SelectPattern}

theorem markerOwner (made : g.pattern full = .ok p) {e : Emission} (member : e ∈ p.emissions)
    (marked : (p.markerAt e).isSome = true) : e.owner = g.effectiveCentral := by
  obtain ⟨d,into,along,drawn,rfl⟩ := patternDrawn made
  have anchored : ∃ m, d.marker = some m ∧ m.emission = e.id := by
    obtain ⟨comment,here⟩ := Option.isSome_iff_exists.mp marked
    obtain ⟨m,central,_⟩ := Option.map_eq_some_iff.mp here
    obtain ⟨anchor,same⟩ := Option.filter_eq_some_iff.mp central
    exact ⟨m,anchor,of_decide_eq_true same⟩
  obtain ⟨m,anchor,same⟩ := anchored
  simp only [Draft.marker,bind,Option.bind_eq_some_iff] at anchor
  obtain ⟨id,central,first,found,rest⟩ := anchor
  cases Option.some.inj rest
  rw [drawn.firsts] at found
  obtain ⟨f,head,named⟩ := Option.map_eq_some_iff.mp found
  have own : f ∈ into id ++ along id := List.mem_append_right _ (List.mem_of_head? head)
  have listed : id ∈ g.plan.order := Classical.byContradiction fun absent => by
    rw [(drawn.absent id absent).2] at head
    exact Option.some_ne_none f head.symm
  have entry : f ∈ d.log.entries := by
    rw [drawn.entries]
    exact List.mem_flatMap.mpr ⟨id,listed,own⟩
  obtain rfl : f = e := List.inj_on_of_nodup_map (laidDistinct drawn.toLaid) entry member (named.trans same)
  rw [drawn.owned id f own,← central,drawn.plan]
  rfl

theorem ownChain {blocks : Blocks} (blocked : Blocked g p blocks) {v : String} {e : Emission}
    (member : e ∈ blocks v) : p.chainOf e = g.plan.chains.findD v [] := by
  simp [Pattern.chainOf,blocked.owned v e member,blocked.chains,Table.findD]

theorem patternFlat (forest : g.IsForest) (made : g.pattern full = .ok p) : p.toPattern.Flat := by
  obtain ⟨blocks,blocked⟩ := patternBlocked made
  have owner : ∀ e ∈ p.emissions, ∃ v ∈ g.nodeIds, e ∈ blocks v := by
    intro e member
    rw [blocked.emissions,blocked.order] at member
    obtain ⟨v,there,inside⟩ := List.mem_flatMap.mp member
    exact ⟨v,SelectionGraph.memOrder.mp there,inside⟩
  constructor
  · obtain ⟨d,into,along,drawn,rfl⟩ := patternDrawn made
    exact (laidDistinct drawn.toLaid).of_map
  · exact fun e member => ((patternSourced made).recorded e.triple).mpr ⟨e,member,rfl⟩
  · intro e member
    obtain ⟨v,there,inside⟩ := owner e member
    rw [ownChain blocked inside]
    exact SelectionGraph.chainedShort (SelectionGraph.planChained forest.acyclic there)
  · intro e member marked
    obtain ⟨v,there,inside⟩ := owner e member
    have central := (markerOwner made member marked).symm.trans (blocked.owned v e inside)
    rw [ownChain blocked inside]
    exact SelectionGraph.chainedOnce (SelectionGraph.planChained forest.acyclic there) (.marked central)

theorem openedShown (flat : p.toPattern.Flat) {blocks : Blocks} (blocked : Blocked g p blocks) :
    openedIds (p.lines []) =
      ((p.shown.map fun v => p.chains.findD v []).destutter' (· ≠ ·) []).flatten := by
  have shows : ∀ v ∈ p.order, ((blocks v).filter fun e => p.Shows e).map p.chainOf ≠ [] ↔
      ∃ e ∈ p.emissions, e.owner = some v ∧ p.Shows e := by
    intro v there
    rw [ne_eq,List.map_eq_nil_iff,List.filter_eq_nil_iff]
    push Not
    constructor
    · rintro ⟨e,inside,here⟩
      refine ⟨e,?_,blocked.owned v e inside,of_decide_eq_true here⟩
      rw [blocked.emissions]
      exact List.mem_flatMap.mpr ⟨v,there,inside⟩
    · rintro ⟨e,member,owner,here⟩
      exact ⟨e,(ownBlock blocked member owner).2,decide_eq_true here⟩
  have chains : ∀ v, ∀ c ∈ ((blocks v).filter fun e => p.Shows e).map p.chainOf,
      c = p.chains.findD v [] := by
    intro v c member
    obtain ⟨e,inside,rfl⟩ := List.mem_map.mp member
    rw [blocked.chains]
    exact ownChain blocked (List.mem_filter.mp inside).1
  have whole : p.emissions = [] ++ p.emissions := rfl
  have none : ∀ t : Triple, t ∈ [] ↔ ∃ e : Emission, e ∈ [] ∧ e.triple = t := by simp
  have opened := Pattern.openedFrom flat [] whole none (Nat.zero_le 1)
  have listed : p.shown = p.order.filter fun v => ((blocks v).filter fun e => p.Shows e).map p.chainOf ≠ [] :=
    List.filter_congr fun v there => decide_eq_decide.mpr (shows v there).symm
  rw [List.map_nil,List.nil_append] at opened
  rw [Pattern.lines,opened,listed,← runsOfBlocks chains,blocked.emissions,List.filter_flatMap,List.map_flatMap]

/-- One scope at most is opened for a node just if its chain is not torn; and in a forest no chain is torn but
those of nodes beside the central node. -/
theorem openedOnceIff (forest : g.IsForest) (made : g.pattern full = .ok p) (r : String) :
    ((openedIds (p.lines [])).count r ≤ 1 ↔ ∀ u w v, ¬ p.Torn r u w v) ∧
    ("" ∉ g.nodeIds → ∀ u w v, p.Torn r u w v → g.Beside u ∧ g.Beside w ∧ g.Beside v) := by
  obtain ⟨blocks,blocked⟩ := patternBlocked made
  have within : p.shown.Sublist g.plan.order := blocked.order ▸ List.filter_sublist
  have short : ∀ chain ∈ [] :: p.shown.map (fun v => p.chains.findD v []), chain.length ≤ 1 := by
    refine List.forall_mem_cons.mpr ⟨Nat.zero_le _,fun chain member => ?_⟩
    obtain ⟨v,there,rfl⟩ := List.mem_map.mp member
    rw [blocked.chains]
    exact SelectionGraph.chainedShort
      (SelectionGraph.planChained forest.acyclic (SelectionGraph.memOrder.mp (within.subset there)))
  refine ⟨?_,fun named u w v torn => ?_⟩
  · rw [openedShown (patternFlat forest made) blocked,runsOnce short]
    constructor
    · intro once u w v torn
      have listed := torn.within.map fun v => p.chains.findD v []
      rw [List.map_cons,List.map_cons,List.map_cons,List.map_nil,torn.first,torn.last] at listed
      exact torn.other (once _ (listed.cons _))
    · intro whole other back
      have inside : [[r],other,[r]].Sublist (p.shown.map fun v => p.chains.findD v []) :=
        sublistRight [[]] back (by simp)
      obtain ⟨ids,listed,chains⟩ := List.sublist_map_iff.mp inside
      obtain ⟨u,later,rfl,first,others⟩ := List.map_eq_cons_iff.mp chains.symm
      obtain ⟨w,latest,rfl,rfl,rest⟩ := List.map_eq_cons_iff.mp others
      obtain ⟨v,none,rfl,last,empty⟩ := List.map_eq_cons_iff.mp rest
      cases List.map_eq_nil_iff.mp empty
      exact Classical.byContradiction fun apart => whole u w v ⟨listed,first,apart,last⟩
  · obtain ⟨listed,first,other,last⟩ := torn
    rw [blocked.chains] at first other last
    exact SelectionGraph.chainTorn forest named (listed.trans within) first other last

theorem branchBelowOpenedOnce : ∃ p, SelectionGraph.branchBelow.IsForest ∧
    SelectionGraph.branchBelow.pattern false = .ok p ∧ (openedIds (p.lines [])).count "m" ≤ 1 := by
  have forest : SelectionGraph.branchBelow.IsForest :=
    SelectionGraph.forestOf (by decide +kernel) (by decide +kernel)
  obtain ⟨p,made⟩ := patternMade (show SelectionGraph.branchBelow.bridgeFault? = none by decide) false
  obtain ⟨once,beside⟩ := openedOnceIff forest made "m"
  refine ⟨p,forest,made,once.mpr fun u w v torn => ?_⟩
  -- The central node leads to all nodes, so none lies beside it.
  obtain ⟨⟨there,central,found,_,apart,_⟩,_⟩ := beside (by decide) u w v torn
  obtain rfl : central = "c" := Option.some.inj (found.symm.trans (by decide +kernel))
  have down : SelectionGraph.branchBelow.Leads "c" "m" := .single (by decide +kernel)
  have ids : SelectionGraph.branchBelow.nodeIds = ["c","m","k"] := by decide
  rw [ids] at there
  simp only [List.mem_cons,List.not_mem_nil,or_false] at there
  rcases there with rfl | rfl | rfl
  · exact apart .refl
  · exact apart down
  · exact apart (down.tail (by decide +kernel))

def branchTorn : SelectionGraph :=
  SelectionGraph.branches ["m"] ["r","c","m","a","k"] "c" [("r","c"),("r","m"),("m","a"),("r","k")]

theorem branchTornOpenedTwice : branchTorn.IsForest ∧ "" ∉ branchTorn.nodeIds ∧
    ∃ p, branchTorn.pattern false = .ok p ∧ openedIds (p.lines []) = ["m","m"] := by
  have evaluated : (branchTorn.pattern false).map (fun p => decide (openedIds (p.lines []) = ["m","m"])) =
      .ok true := by decide +kernel
  obtain ⟨p,made,twice⟩ := mapOk evaluated
  exact ⟨SelectionGraph.forestOf (by decide +kernel) (by decide +kernel),by decide,p,made,of_decide_eq_true twice⟩

end PathQuery
