import PathQuery.Proofs.Traversal.Chains

/-! Chains over any table of parents, also one that goes round: a chain names the one multiple node that opens
it, which the node is or follows parents to. Where no way up goes round, that is the furthest one up before the
central node. -/
namespace PathQuery.SelectionGraph

variable {g : SelectionGraph} {parents : Table String String} {central : Option String} {v r : String}
  {chain : List String}

def Opened (g : SelectionGraph) (parents : Table String String) (central : Option String) (v : String)
    (chain : List String) : Prop :=
  chain = [] ∨ ∃ r, chain = [r] ∧ g.isMultipleNode r = true ∧ central ≠ some r ∧
    Relation.ReflTransGen (Up parents) v r

theorem openedHere (apart : central ≠ some v) : Opened g parents central v (g.handed v []) := by
  by_cases multiple : g.isMultipleNode v = true
  · exact .inr ⟨v,if_pos multiple,multiple,apart,.refl⟩
  · exact .inl (if_neg multiple)

theorem openedUnder {p : String} (apart : central ≠ some v) (up : Up parents v p)
    (above : Opened g parents central p chain) : Opened g parents central v (g.handed v chain) := by
  rcases above with rfl | ⟨r,rfl,multiple,other,way⟩
  · exact openedHere apart
  · exact .inr ⟨r,rfl,multiple,other,.head up way⟩

theorem findsOpened {known after : Chains} {below : List String}
    (finds : Finds g parents central known below v chain after) (all : Hold (Opened g parents central) known) :
    Opened g parents central v chain ∧ Hold (Opened g parents central) after := by
  induction finds with
  | known found => exact ⟨all _ _ found,all⟩
  | around unknown waits => exact ⟨.inl rfl,all⟩
  | marked unknown fresh here => exact ⟨.inl rfl,holdInsert all (.inl rfl)⟩
  | top unknown fresh apart none => exact ⟨openedHere apart,holdInsert all (openedHere apart)⟩
  | under unknown fresh apart up _ ih =>
      obtain ⟨above,further⟩ := ih
      exact ⟨openedUnder apart up above,holdInsert further (openedUnder apart up above)⟩

theorem chainsOpened {order : List String} : Hold (Opened g parents central) (g.optionalChains order parents central) :=
  findsAllHold (chainsFromFinds .empty .empty order) (fun _ _ _ _ _ finds => findsOpened finds) (holdEmpty _)
    (holdEmpty _)

def Furthest (g : SelectionGraph) (parents : Table String String) (central : Option String) (r v : String) : Prop :=
  g.isMultipleNode r = true ∧ Hangs parents central r v ∧
    ∀ m, g.isMultipleNode m = true → Hangs parents central m v → Hangs parents central r m

theorem hangsFollows (hangs : Hangs parents central r v) : Relation.ReflTransGen (Up parents) v r := by
  induction hangs with
  | here _ => exact .refl
  | under _ up _ ih => exact .head up ih

theorem furthestHere (apart : central ≠ some v) (multiple : g.isMultipleNode v = true)
    (alone : ∀ m p, g.isMultipleNode m = true → Up parents v p → ¬ Hangs parents central m p) :
    Furthest g parents central v v := by
  refine ⟨multiple,.here apart,fun m other hangs => ?_⟩
  cases hangs with
  | here _ => exact .here apart
  | under _ up above => exact absurd above (alone m _ other up)

theorem furthestUnder {p : String} (apart : central ≠ some v) (up : Up parents v p)
    (above : Furthest g parents central r p) : Furthest g parents central r v := by
  obtain ⟨multiple,hangs,last⟩ := above
  refine ⟨multiple,.under apart up hangs,fun m other way => ?_⟩
  cases way with
  | here _ => exact .under apart up hangs
  | under _ also further =>
      cases upOnce up also
      exact last m other further

theorem chainedFurthest (chained : Chained g parents central v chain) (some : chain ≠ []) :
    ∃ r, chain = [r] ∧ Furthest g parents central r v := by
  induction chained with
  | marked here => exact absurd rfl some
  | @top v apart none =>
      have multiple : g.isMultipleNode v = true := by simpa [handedEmpty] using some
      exact ⟨v,if_pos multiple,furthestHere apart multiple fun m p _ up => absurd up (none p)⟩
  | @under v p chain apart up above ih =>
      by_cases empty : chain = []
      · subst empty
        have multiple : g.isMultipleNode v = true := by simpa [handedEmpty] using some
        refine ⟨v,if_pos multiple,furthestHere apart multiple fun m q other also hangs => ?_⟩
        cases upOnce up also
        exact (chainedHangs above).mpr ⟨m,other,hangs⟩ rfl
      · obtain ⟨r,rfl,furthest⟩ := ih empty
        exact ⟨r,rfl,furthestUnder apart up furthest⟩

theorem furthestOnce {other : String} (rises : Rises parents v) (one : Furthest g parents central r v)
    (second : Furthest g parents central other v) : r = other := by
  have above := hangsFollows (one.2.2 other second.1 second.2.1)
  have back := hangsFollows (second.2.2 r one.1 one.2.1)
  rcases Relation.reflTransGen_iff_eq_or_transGen.mp above with same | way
  · exact same
  · exact absurd (way.trans_left back) (rises other (hangsFollows second.2.1))

theorem chainedIff (rises : Rises parents v) (chained : Chained g parents central v chain) :
    (chain = [] ↔ ∀ m, g.isMultipleNode m = true → ¬ Hangs parents central m v) ∧
      ∀ r, chain = [r] ↔ Furthest g parents central r v := by
  have empty : chain = [] ↔ ∀ m, g.isMultipleNode m = true → ¬ Hangs parents central m v := by
    rw [← not_iff_not,← ne_eq,chainedHangs chained]
    simp
  refine ⟨empty,fun r => ⟨?_,fun furthest => ?_⟩⟩
  · rintro rfl
    obtain ⟨s,same,furthest⟩ := chainedFurthest chained (List.cons_ne_nil r [])
    cases List.singleton_inj.mp same
    exact furthest
  · have some : chain ≠ [] := fun none => empty.mp none r furthest.1 furthest.2.1
    obtain ⟨s,rfl,other⟩ := chainedFurthest chained some
    rw [furthestOnce rises other furthest]

theorem chainsFound {order : List String} :
    (∃ chain, (g.optionalChains order parents central).find? v = some chain) ↔ v ∈ order := by
  rw [← Option.isSome_iff_exists]
  exact chainsContain

theorem chainsPass {order other : List String} (rises : ∀ v ∈ order, Rises parents v)
    (also : ∀ v ∈ other, Rises parents v) (there : v ∈ other)
    (found : (g.optionalChains order parents central).find? v = some chain) :
    (g.optionalChains other parents central).find? v = some chain := by
  obtain ⟨again,same⟩ := chainsFound.mpr there
  rw [same,chainedOnce (chainsRight also v again same) (chainsRight rises v chain found)]

/-- The run over a list of ids comes to its end, and gives a chain to each of them and to nothing else. A chain
is empty or has the one node that opens it. Where no way up from the ids goes round, that is the furthest
multiple node before the central one, and the order of the list has no part in it. -/
theorem chainsFromFurthest (g : SelectionGraph) (order : List String) (parents : Table String String)
    (central : Option String) :
    FindsAll g parents central .empty .empty order (g.optionalChains order parents central) ∧
    (∀ v, (∃ chain, (g.optionalChains order parents central).find? v = some chain) ↔ v ∈ order) ∧
    (∀ v chain, (g.optionalChains order parents central).find? v = some chain →
      chain = [] ∨ ∃ r, chain = [r] ∧ g.isMultipleNode r = true ∧ central ≠ some r ∧
        Relation.ReflTransGen (Up parents) v r) ∧
    ((∀ v ∈ order, Rises parents v) →
      (∀ v chain, (g.optionalChains order parents central).find? v = some chain →
        (chain = [] ↔ ∀ m, g.isMultipleNode m = true → ¬ Hangs parents central m v) ∧
        ∀ r, chain = [r] ↔ Furthest g parents central r v) ∧
      ∀ other, (∀ v, v ∈ other ↔ v ∈ order) → ∀ v,
        (g.optionalChains other parents central).find? v = (g.optionalChains order parents central).find? v) := by
  refine ⟨chainsFromFinds _ _ _,fun _ => chainsFound,chainsOpened,fun rises => ⟨?_,?_⟩⟩
  · intro v chain found
    exact chainedIff (rises v (chainsFound.mp ⟨chain,found⟩)) (chainsRight rises v chain found)
  · intro other same v
    have also : ∀ v ∈ other, Rises parents v := fun v member => rises v ((same v).mp member)
    refine Option.ext fun chain => ⟨fun found => ?_,fun found => ?_⟩
    · exact chainsPass also rises ((same v).mp (chainsFound.mp ⟨chain,found⟩)) found
    · exact chainsPass rises also ((same v).mpr (chainsFound.mp ⟨chain,found⟩)) found

theorem risesOf (rank : String → Nat) (falls : ∀ entry ∈ parents.entries, rank entry.2 < rank entry.1)
    (v : String) : Rises parents v := by
  intro w _ around
  have below : ∀ {d}, Relation.TransGen (Up parents) w d → rank d < rank w := by
    intro d way
    induction way with
    | single up => exact falls _ (Table.findMem up.1)
    | tail _ up ih => exact Nat.lt_trans (falls _ (Table.findMem up.1)) ih
  exact Nat.lt_irrefl _ (below around)

def ladder : SelectionGraph := branches ["c","m","k"] ["c","m","k","l"] "c" []

def ladderParents : Table String String := .ofList [("l","k"),("k","m"),("m","c")]

theorem ladderChains : (∀ v ∈ ["l","c","k"], Rises ladderParents v) ∧
    Furthest ladder ladderParents (some "c") "m" "l" ∧
    (ladder.optionalChains ["l","c","k"] ladderParents (some "c")).find? "l" = some ["m"] ∧
    (ladder.optionalChains ["k","l","c","k"] ladderParents (some "c")).find? "l" = some ["m"] := by
  have rises : ∀ v, Rises ladderParents v := risesOf (["c","m","k","l"].idxOf ·) (by decide +kernel)
  obtain ⟨_,_,_,upward⟩ := chainsFromFurthest ladder ["l","c","k"] ladderParents (some "c")
  obtain ⟨furthest,reordered⟩ := upward fun v _ => rises v
  have found : (ladder.optionalChains ["l","c","k"] ladderParents (some "c")).find? "l" = some ["m"] := by
    decide +kernel
  refine ⟨fun v _ => rises v,((furthest "l" _ found).2 "m").mp rfl,found,?_⟩
  rw [reordered ["k","l","c","k"] (by simp),found]

end PathQuery.SelectionGraph
