import PathQuery.Proofs.Pattern.Separation
import PathQuery.Proofs.Pattern.Sharing
import PathQuery.Proofs.Traversal.Ascent

/-! Parents are recorded on the walks, and optional chains are handed down from parent to child. A node
above the central node hands nothing to those of its children that do not lead to the central node as well. -/
namespace PathQuery.SelectionGraph

def Up (parents : Table String String) (v p : String) : Prop := parents.find? v = some p ∧ p ≠ ""

inductive Hangs (parents : Table String String) (central : Option String) (m : String) : String → Prop where
  | here (apart : central ≠ some m) : Hangs parents central m m
  | under {v p : String} (apart : central ≠ some v) (up : Up parents v p) (above : Hangs parents central m p) :
      Hangs parents central m v

def handed (g : SelectionGraph) (v : String) (chain : List String) : List String :=
  if !chain.isEmpty then chain else if g.isMultipleNode v then [v] else []

inductive Chained (g : SelectionGraph) (parents : Table String String) (central : Option String) :
    String → List String → Prop where
  | marked {v : String} (here : central = some v) : Chained g parents central v []
  | top {v : String} (apart : central ≠ some v) (none : ∀ p, ¬ Up parents v p) :
      Chained g parents central v (g.handed v [])
  | under {v p : String} {chain : List String} (apart : central ≠ some v) (up : Up parents v p)
      (above : Chained g parents central p chain) : Chained g parents central v (g.handed v chain)

variable {g : SelectionGraph} {parents : Table String String} {central : Option String} {v p : String}

theorem upOnce {q : String} (one : Up parents v p) (other : Up parents v q) : p = q :=
  Option.some.inj (one.1.symm.trans other.1)

theorem handedEmpty {chain : List String} : g.handed v chain = [] ↔ chain = [] ∧ g.isMultipleNode v = false := by
  unfold handed
  cases chain with
  | nil => cases g.isMultipleNode v <;> simp
  | cons first rest => simp

theorem chainedHangs {chain : List String} (chained : Chained g parents central v chain) :
    chain ≠ [] ↔ ∃ m, g.isMultipleNode m = true ∧ Hangs parents central m v := by
  induction chained with
  | marked here =>
      refine ⟨fun some => absurd rfl some,?_⟩
      rintro ⟨m,_,apart | ⟨apart,_,_⟩⟩ <;> exact absurd here apart
  | @top v apart none =>
      rw [ne_eq,handedEmpty]
      constructor
      · intro some
        exact ⟨v,by simpa using some,.here apart⟩
      · rintro ⟨m,multiple,_ | ⟨_,up,_⟩⟩ ⟨_,single⟩
        · exact Bool.false_ne_true (single.symm.trans multiple)
        · exact none _ up
  | @under v p chain apart up above ih =>
      rw [ne_eq,handedEmpty]
      constructor
      · intro some
        by_cases multiple : g.isMultipleNode v = true
        · exact ⟨v,multiple,.here apart⟩
        · obtain ⟨m,other,hangs⟩ := ih.mp fun empty => some ⟨empty,by simpa using multiple⟩
          exact ⟨m,other,.under apart up hangs⟩
      · rintro ⟨m,multiple,_ | ⟨_,also,hangs⟩⟩ ⟨empty,single⟩
        · exact Bool.false_ne_true (single.symm.trans multiple)
        · cases upOnce up also
          exact ih.mpr ⟨m,multiple,hangs⟩ empty

theorem handedSome {chain : List String} (some : chain ≠ []) : g.handed v chain = chain := by
  cases chain with
  | nil => exact absurd rfl some
  | cons first rest => rfl

theorem chainedOnce {chain other : List String} (one : Chained g parents central v chain)
    (second : Chained g parents central v other) : chain = other := by
  induction one generalizing other with
  | marked here =>
      rcases second with _ | ⟨apart,_⟩ | ⟨apart,_,_⟩
      · rfl
      · exact absurd here apart
      · exact absurd here apart
  | top apart none =>
      rcases second with here | _ | ⟨_,up,_⟩
      · exact absurd here apart
      · rfl
      · exact absurd up (none _)
  | under apart up above ih =>
      rcases second with here | ⟨_,none⟩ | ⟨_,also,further⟩
      · exact absurd here apart
      · exact absurd up (none _)
      · cases upOnce up also
        rw [ih further]

theorem chainedRoot {chain : List String} (chained : Chained g parents central v chain) :
    chain = [] ∨ ∃ m, chain = [m] ∧ Hangs parents central m v ∧ Chained g parents central m [m] := by
  have opened : ∀ {v : String}, central ≠ some v → Chained g parents central v (g.handed v []) →
      g.handed v [] = [] ∨ ∃ m, g.handed v [] = [m] ∧ Hangs parents central m v ∧
        Chained g parents central m [m] := by
    intro v apart chained
    by_cases multiple : g.isMultipleNode v = true
    · have own : g.handed v [] = [v] := if_pos multiple
      exact .inr ⟨v,own,.here apart,own ▸ chained⟩
    · exact .inl (if_neg multiple)
  induction chained with
  | marked here => exact .inl rfl
  | top apart none => exact opened apart (.top apart none)
  | @under v p chain apart up above ih =>
      rcases ih with rfl | ⟨m,rfl,hangs,root⟩
      · exact opened apart (.under apart up above)
      · exact .inr ⟨m,rfl,.under apart up hangs,root⟩

theorem chainedShort {chain : List String} (chained : Chained g parents central v chain) : chain.length ≤ 1 := by
  rcases chainedRoot chained with rfl | ⟨m,rfl,_⟩
  · exact Nat.zero_le _
  · exact Nat.le_refl _

theorem chainedDown {m : String} {chain : List String} (hangs : Hangs parents central m v)
    (root : Chained g parents central m chain) (some : chain ≠ []) : Chained g parents central v chain := by
  induction hangs with
  | here _ => exact root
  | @under v p apart up above ih =>
      have handed := Chained.under apart up ih
      rwa [handedSome some] at handed

inductive Finds (g : SelectionGraph) (parents : Table String String) (central : Option String) :
    Chains → List String → String → List String → Chains → Prop where
  | known {known : Chains} {below : List String} {v : String} {chain : List String}
      (found : known.find? v = some chain) : Finds g parents central known below v chain known
  | around {known : Chains} {below : List String} {v : String} (unknown : known.find? v = none)
      (waits : v ∈ below) : Finds g parents central known below v [] known
  | marked {known : Chains} {below : List String} {v : String} (unknown : known.find? v = none)
      (fresh : v ∉ below) (here : central = some v) : Finds g parents central known below v [] (known.insert v [])
  | top {known : Chains} {below : List String} {v : String} (unknown : known.find? v = none)
      (fresh : v ∉ below) (apart : central ≠ some v) (none : ∀ p, ¬ Up parents v p) :
      Finds g parents central known below v (g.handed v []) (known.insert v (g.handed v []))
  | under {known after : Chains} {below : List String} {v p : String} {chain : List String}
      (unknown : known.find? v = none) (fresh : v ∉ below) (apart : central ≠ some v) (up : Up parents v p)
      (above : Finds g parents central known (v :: below) p chain after) :
      Finds g parents central known below v (g.handed v chain) (after.insert v (g.handed v chain))

inductive FindsAll (g : SelectionGraph) (parents : Table String String) (central : Option String) :
    Chains → Chains → List String → Chains → Prop where
  | done {known chains : Chains} : FindsAll g parents central known chains [] chains
  | next {known after chains all : Chains} {v : String} {chain rest : List String}
      (finds : Finds g parents central known [] v chain after)
      (further : FindsAll g parents central after (chains.insert v chain) rest all) :
      FindsAll g parents central known chains (v :: rest) all

theorem chainFromFinds {fuel : Nat} {known : Chains} {below : List String} {id : String} (distinct : below.Nodup)
    (parented : ∀ b ∈ below, b ∈ parents.keys) (fuelled : parents.entries.length + 2 ≤ fuel + below.length) :
    Finds g parents central known below id (g.chainFrom parents central fuel known below id).1
      (g.chainFrom parents central fuel known below id).2 := by
  induction fuel generalizing known below id with
  | zero =>
      -- The nodes below are different, and each of them has a parent.
      have short := (List.subperm_of_subset distinct parented).length_le
      rw [Table.keys,List.length_map] at short
      omega
  | succ fuel ih =>
      unfold chainFrom
      split
      · next chain found => exact .known found
      · next unknown =>
        split
        · next waits => exact .around unknown waits
        · next fresh =>
          split
          · next here => exact .marked unknown fresh here
          · next apart =>
            cases found : parents.find? id with
            | none => exact .top unknown fresh apart fun q up => Option.some_ne_none q (up.1.symm.trans found)
            | some parent =>
                by_cases blank : parent = ""
                · simp only [if_pos blank]
                  refine .top unknown fresh apart fun q up => up.2 ?_
                  exact (Option.some.inj (found.symm.trans up.1)).symm.trans blank
                · have keyed : id ∈ parents.keys :=
                    Table.containsIff.mp (Option.isSome_iff_exists.mpr ⟨parent,found⟩)
                  simp only [if_neg blank]
                  exact .under unknown fresh apart ⟨found,blank⟩ (ih (List.nodup_cons.mpr ⟨fresh,distinct⟩)
                    (List.forall_mem_cons.mpr ⟨keyed,parented⟩) (by rw [List.length_cons]; omega))

theorem chainOfFinds (known : Chains) (id : String) : Finds g parents central known [] id
    (g.chainOf parents central known id).1 (g.chainOf parents central known id).2 :=
  chainFromFinds List.nodup_nil (fun _ member => nomatch member) (by simp)

theorem chainsFromFinds (known chains : Chains) (order : List String) :
    FindsAll g parents central known chains order (g.chainsFrom parents central known chains order) := by
  induction order generalizing known chains with
  | nil => exact .done
  | cons id rest ih => exact .next (chainOfFinds known id) (ih _ _)

theorem findsAllContains {known chains all : Chains} {order : List String}
    (finds : FindsAll g parents central known chains order all) (id : String) :
    all.contains id = true ↔ id ∈ order ∨ chains.contains id = true := by
  induction finds with
  | done => simp
  | next _ _ ih =>
      rw [ih,Table.containsInsert]
      simp only [Bool.or_eq_true,decide_eq_true_eq,List.mem_cons,eq_comm (a := id)]
      tauto

def Hold (P : String → List String → Prop) (known : Chains) : Prop :=
  ∀ v chain, known.find? v = some chain → P v chain

theorem holdInsert {P : String → List String → Prop} {known : Chains} (all : Hold P known) {chain : List String}
    (here : P v chain) : Hold P (known.insert v chain) := by
  intro w other found
  rw [Table.findInsert] at found
  split at found
  · next same =>
    cases Option.some.inj found
    exact same ▸ here
  · exact all w other found

theorem findsAllHold {P : String → List String → Prop} {known chains all : Chains} {order : List String}
    (finds : FindsAll g parents central known chains order all)
    (each : ∀ v ∈ order, ∀ {known chain after}, Finds g parents central known [] v chain after →
      Hold P known → P v chain ∧ Hold P after)
    (start : Hold P known) (before : Hold P chains) : Hold P all := by
  induction finds with
  | done => exact before
  | next finds _ ih =>
      obtain ⟨here,further⟩ := each _ List.mem_cons_self finds start
      exact ih (fun v member => each v (List.mem_cons_of_mem _ member)) further (holdInsert before here)

def Rises (parents : Table String String) (v : String) : Prop :=
  ∀ w, Relation.ReflTransGen (Up parents) v w → ¬ Relation.TransGen (Up parents) w w

theorem findsChained {known after : Chains} {below chain : List String}
    (finds : Finds g parents central known below v chain after) (rises : Rises parents v)
    (ways : ∀ b ∈ below, Relation.TransGen (Up parents) b v) (right : Hold (Chained g parents central) known) :
    Chained g parents central v chain ∧ Hold (Chained g parents central) after := by
  induction finds with
  | known found => exact ⟨right _ _ found,right⟩
  | around unknown waits => exact absurd (ways _ waits) (rises _ .refl)
  | marked unknown fresh here => exact ⟨.marked here,holdInsert right (.marked here)⟩
  | top unknown fresh apart none => exact ⟨.top apart none,holdInsert right (.top apart none)⟩
  | under unknown fresh apart up _ ih =>
      obtain ⟨above,further⟩ := ih (fun w way => rises w (.head up way))
        (List.forall_mem_cons.mpr ⟨.single up,fun b member => (ways b member).tail up⟩)
      exact ⟨.under apart up above,holdInsert further (.under apart up above)⟩

theorem holdEmpty (P : String → List String → Prop) : Hold P .empty := fun _ _ found => nomatch found

theorem chainsRight {order : List String} (rises : ∀ v ∈ order, Rises parents v) :
    Hold (Chained g parents central) (g.optionalChains order parents central) :=
  findsAllHold (chainsFromFinds .empty .empty order)
    (fun v member _ _ _ finds => findsChained finds (rises v member) (fun _ none => nomatch none))
    (holdEmpty _) (holdEmpty _)

theorem chainsContain {order : List String} :
    (g.optionalChains order parents central).contains v = true ↔ v ∈ order :=
  (findsAllContains (chainsFromFinds .empty .empty order) v).trans (or_iff_left Bool.false_ne_true)

def IsAbove (g : SelectionGraph) (v : String) : Prop :=
  ∃ central, g.effectiveCentral = some central ∧ v ≠ central ∧ g.Leads v central

def Ascends (g : SelectionGraph) (v : String) : Prop :=
  ∃ central, g.effectiveCentral = some central ∧ g.Leads v central

theorem centralFound {id : String} (there : id ∈ g.nodeIds) : ∃ central, g.effectiveCentral = some central := by
  obtain ⟨first,head⟩ : ∃ first, g.nodeIds.head? = some first := by
    cases ids : g.nodeIds with
    | nil => rw [ids] at there; nomatch there
    | cons first rest => exact ⟨first,rfl⟩
  unfold effectiveCentral
  split
  · split
    · exact ⟨first,head⟩
    · exact ⟨_,rfl⟩
  · exact ⟨first,head⟩

theorem memParentLinks {c source : String} (found : g.effectiveCentral = some c) :
    (source,v) ∈ (g.climb (sortedIds g.nodeIds) [.enter c]).entered.flatMap
        (fun id => (g.sourcesOf id).map (·,id)) ++ (g.descent c).links ++ (g.remainder c).links ↔
      (source,v) ∈ g.transitions ∧ (source ≠ c ∧ g.Leads source c → g.Leads v c) := by
  have rising := @memRising g c (effectiveCentralMem found) (source,v)
  have down := reachedDown (v := source) found
  have selected : (source,v) ∈ g.transitions → source ∈ g.nodeIds := fun link => (endsOfTransition link).1
  rw [List.mem_append,List.mem_append,rising,descent,memDescendLinks,memLinksFrom,← descent,
    remainder,memDescendAllLinks,← remainder]
  rw [List.mem_append] at down
  grind

theorem parentRecorded :
    (∃ source, g.plan.parents.find? v = some source) ↔
      ∃ source, (source,v) ∈ g.transitions ∧ (g.IsAbove source → g.Ascends v) := by
  constructor
  · rintro ⟨source,recorded⟩
    have link := parentsLinked (Table.findMem recorded)
    obtain ⟨c,found⟩ := centralFound (endsOfTransition link).1
    rw [parentParts found] at recorded
    obtain ⟨source,member⟩ := parentFound.mp ⟨source,recorded⟩
    obtain ⟨edge,further⟩ := (memParentLinks found).mp member
    refine ⟨source,edge,?_⟩
    rintro ⟨_,same,above⟩
    cases found.symm.trans same
    exact ⟨c,found,further above⟩
  · rintro ⟨source,link,further⟩
    obtain ⟨c,found⟩ := centralFound (endsOfTransition link).1
    rw [parentParts found]
    refine parentFound.mpr ⟨source,(memParentLinks found).mpr ⟨link,fun above => ?_⟩⟩
    obtain ⟨_,same,leads⟩ := further ⟨c,found,above⟩
    cases found.symm.trans same
    exact leads

theorem upLink (up : Up g.plan.parents v p) : (p,v) ∈ g.transitions := parentsLinked (Table.findMem up.1)

theorem planRises (acyclic : ∀ a, ¬ Relation.TransGen (fun c d => (c,d) ∈ g.transitions) a a) :
    Rises g.plan.parents v := by
  intro w _ around
  exact acyclic w (Relation.transGen_swap.mp (Relation.TransGen.mono (fun _ _ => upLink) _ _ around))

theorem planChained (acyclic : ∀ a, ¬ Relation.TransGen (fun c d => (c,d) ∈ g.transitions) a a)
    (there : v ∈ g.nodeIds) :
    Chained g g.plan.parents g.effectiveCentral v (g.plan.chains.findD v []) := by
  have right : Hold (Chained g g.plan.parents g.effectiveCentral) g.plan.chains :=
    chainsRight fun _ _ => planRises acyclic
  obtain ⟨chain,found⟩ := Option.isSome_iff_exists.mp (chainsContain.mpr (memOrder.mpr there))
  have same : g.plan.chains.find? v = some chain := found
  rw [Table.findD,same]
  exact right v chain found

/-- A parent that is recorded is a source. A node has one unless all of its sources lie above the central
node and it does not lead there itself; and it has a chain just if it hangs from a multiple node. -/
theorem parentRecordedIff (acyclic : ∀ a, ¬ Relation.TransGen (fun c d => (c,d) ∈ g.transitions) a a)
    (v : String) :
    (∀ source, g.plan.parents.find? v = some source → (source,v) ∈ g.transitions) ∧
    ((∃ source, g.plan.parents.find? v = some source) ↔
      ∃ source, (source,v) ∈ g.transitions ∧ (g.IsAbove source → g.Ascends v)) ∧
    (v ∈ g.nodeIds → (g.plan.chains.findD v [] ≠ [] ↔
      ∃ m, g.isMultipleNode m = true ∧ Hangs g.plan.parents g.effectiveCentral m v)) :=
  ⟨fun _ found => parentsLinked (Table.findMem found),parentRecorded,
    fun there => chainedHangs (planChained acyclic there)⟩

def branches (multiple ids : List String) (central : String) (links : List (String × String)) : SelectionGraph :=
  { nodes := ids.map fun id => fieldNode id ["urn:" ++ id] (multiple.contains id)
    edges := links.map fun link => ⟨link.1,link.2,.null,false⟩
    central := some central
    count := [] }

def branchBelow : SelectionGraph := branches ["m"] ["c","m","k"] "c" [("c","m"),("m","k")]

theorem branchBelowRecorded :
    (∀ a, ¬ Relation.TransGen (fun c d => (c,d) ∈ branchBelow.transitions) a a) ∧
    (∃ source, branchBelow.plan.parents.find? "k" = some source) ∧ branchBelow.plan.chains.findD "k" [] ≠ [] := by
  have forest : branchBelow.IsForest := forestOf (by decide +kernel) (by decide +kernel)
  obtain ⟨_,recorded,chained⟩ := parentRecordedIff forest.acyclic "k"
  have up : Up branchBelow.plan.parents "k" "m" := ⟨by decide +kernel,by decide⟩
  refine ⟨forest.acyclic,recorded.mpr ⟨"m",by decide +kernel,?_⟩,?_⟩
  · rintro ⟨c,central,_,leads⟩
    have single : ∀ link ∈ branchBelow.transitions, link.1 = "m" → link.2 = "k" := by decide +kernel
    have last : ∀ link ∈ branchBelow.transitions, link.1 ≠ "k" := by decide +kernel
    have here : c = "c" := Option.some.inj (central.symm.trans (by decide +kernel))
    rcases Relation.ReflTransGen.cases_head leads with rfl | ⟨next,link,further⟩
    · exact absurd here (by decide)
    · obtain rfl : next = "k" := single _ link rfl
      exact ⟨c,central,further⟩
  · refine (chained (by decide)).mpr ⟨"m",by decide +kernel,.under (by decide +kernel) up (.here ?_)⟩
    decide +kernel

def branchBeside : SelectionGraph := branches ["r"] ["r","c","k"] "c" [("r","c"),("r","k")]

theorem branchBesideUnrecorded :
    (∀ a, ¬ Relation.TransGen (fun c d => (c,d) ∈ branchBeside.transitions) a a) ∧
    ("r","k") ∈ branchBeside.transitions ∧ branchBeside.isMultipleNode "r" = true ∧
    branchBeside.effectiveCentral = some "c" ∧ branchBeside.plan.parents.find? "k" = none ∧
    branchBeside.plan.chains.find? "k" = some [] :=
  ⟨(forestOf (g := branchBeside) (by decide +kernel) (by decide +kernel)).acyclic,by decide +kernel,
    by decide +kernel,by decide +kernel,by decide +kernel,by decide +kernel⟩

end PathQuery.SelectionGraph
