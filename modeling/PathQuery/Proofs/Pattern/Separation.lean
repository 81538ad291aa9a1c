import PathQuery.Proofs.Attempts
import PathQuery.Proofs.Pattern.Sharing
import PathQuery.Proofs.Traversal.Crossing

/-! In a forest, nodes that are reached by different crossings have different contexts, as far as fragments
tell the crossings apart, and share no variable. -/
namespace PathQuery.SelectionGraph

variable {g : SelectionGraph}

/-- In a forest each node has one list of crossings from its start. Two nodes have one context just if they
have one list, as long as their lists are no different ids with the same fragments, and then with different
lists they share no variable. -/
theorem contextsFollowCrossings (forest : g.IsForest) {u v : String} (first : u ∈ g.nodeIds)
    (second : v ∈ g.nodeIds) :
    ∃ a b, (∀ ids, g.Crossed g.IsStart u ids ↔ ids = a) ∧ (∀ ids, g.Crossed g.IsStart v ids ↔ ids = b) ∧
      ∃ x y, g.contexts.find? u = some x ∧ g.contexts.find? v = some y ∧
        ((a.map fragment = b.map fragment → a = b) → (x = y ↔ a = b) ∧
          (a ≠ b → ∀ full p, g.pattern full = .ok p →
            ∀ t ∈ p.alongPath u, ∀ s ∈ p.alongPath v, ∀ name ∈ t.varNames, name ∉ s.varNames)) := by
  have crossed : ∀ {id}, id ∈ g.nodeIds → ∃ ids, g.Crossed g.IsStart id ids :=
    crossedSome forest fun _ origin => .inr origin
  obtain ⟨a,here⟩ := crossed first
  obtain ⟨b,there⟩ := crossed second
  have once : ∀ {id ids}, g.Crossed g.IsStart id ids → ∀ others, g.Crossed g.IsStart id others ↔ others = ids := by
    intro id ids crossed others
    constructor
    · exact fun again => crossedOnce forest again crossed
    · rintro rfl
      exact crossed
  have label := contextCrossed forest here
  have other := contextCrossed forest there
  refine ⟨a,b,once here,once there,_,_,label,other,fun apart => ?_⟩
  have same : contextOf a = contextOf b ↔ a = b :=
    ⟨fun labels => apart (contextOfSame.mp labels),fun lists => by rw [lists]⟩
  refine ⟨same,fun differ full p made => alongPathsApart made (.inl ?_)⟩
  simpa [Table.findD,label,other,same] using differ

theorem acyclicOf (falls : ∀ link ∈ g.transitions, g.nodeIds.idxOf link.1 < g.nodeIds.idxOf link.2) (a : String) :
    ¬ Relation.TransGen (fun c d => (c,d) ∈ g.transitions) a a := by
  intro around
  have below : ∀ {d}, Relation.TransGen (fun c d => (c,d) ∈ g.transitions) a d →
      g.nodeIds.idxOf a < g.nodeIds.idxOf d := by
    intro d way
    induction way with
    | single link => exact falls _ link
    | tail _ link ih => exact Nat.lt_trans ih (falls _ link)
  exact Nat.lt_irrefl _ (below around)

theorem forestOf (falls : ∀ link ∈ g.transitions, g.nodeIds.idxOf link.1 < g.nodeIds.idxOf link.2)
    (single : ∀ one ∈ g.transitions, ∀ other ∈ g.transitions, one.2 = other.2 → one.1 = other.1) :
    g.IsForest where
  single := fun a b d one other => single (a,d) one (b,d) other rfl
  acyclic := acyclicOf falls

def things (references ids : List String) (central : String) (boundary : Bool) (links : List (String × String)) :
    SelectionGraph :=
  { nodes := ids.map fun id =>
      ⟨id,id,some ⟨id,"",false,if id ∈ references then .reference else .field,"",none,["urn:A"]⟩⟩
    edges := links.map fun link => ⟨link.1,link.2,.null,boundary⟩
    central := some central
    count := [] }

def twoReferences : SelectionGraph :=
  things ["a","b"] ["o","a","b","f","h"] "o" false [("o","a"),("o","b"),("a","f"),("b","h")]

theorem fieldsOfReferencesApart :
    (∀ ids, twoReferences.Crossed twoReferences.IsStart "f" ids ↔ ids = ["a"]) ∧
    (∀ ids, twoReferences.Crossed twoReferences.IsStart "h" ids ↔ ids = ["b"]) ∧
    twoReferences.contexts.find? "f" ≠ twoReferences.contexts.find? "h" ∧
    ∃ p, twoReferences.pattern false = .ok p ∧
      ∀ t ∈ p.alongPath "f", ∀ s ∈ p.alongPath "h", ∀ name ∈ t.varNames, name ∉ s.varNames := by
  have forest : twoReferences.IsForest := forestOf (by decide +kernel) (by decide +kernel)
  obtain ⟨a,b,first,second,x,y,label,other,apart⟩ :=
    contextsFollowCrossings forest (u := "f") (v := "h") (by decide) (by decide)
  have top : twoReferences.Crossed twoReferences.IsStart "o" [] := .here (by decide +kernel)
  have left : twoReferences.Crossed twoReferences.IsStart "f" ["a"] :=
    .down (.down top (d := "a") (by decide +kernel) (by decide +kernel)) (by decide +kernel) (by decide +kernel)
  have right : twoReferences.Crossed twoReferences.IsStart "h" ["b"] :=
    .down (.down top (d := "b") (by decide +kernel) (by decide +kernel)) (by decide +kernel) (by decide +kernel)
  obtain rfl := (first _).mp left
  obtain rfl := (second _).mp right
  obtain ⟨same,shared⟩ := apart (fun fragments => absurd fragments (by decide +kernel))
  obtain ⟨p,made⟩ := patternMade (show twoReferences.bridgeFault? = none by decide) false
  refine ⟨first,second,?_,p,made,shared (by decide) false p made⟩
  rw [label,other]
  exact fun labels => absurd (same.mp (Option.some.inj labels)) (by decide)

def referenceAbove : SelectionGraph := things ["r"] ["r","c"] "c" false [("r","c")]

def likeBoundaries : SelectionGraph := things [] ["o","a-b","a_b"] "o" true [("o","a-b"),("o","a_b")]

theorem crossingsFromOriginsMerge :
    (referenceAbove.IsForest ∧ referenceAbove.Crossed referenceAbove.IsOrigin "r" [] ∧
      referenceAbove.Crossed referenceAbove.IsOrigin "c" ["r"] ∧
      referenceAbove.contexts.find? "r" = some rootContext ∧ referenceAbove.contexts.find? "c" = some rootContext ∧
      ∃ p x, referenceAbove.pattern false = .ok p ∧ p.selected.find? "r" = some x ∧
        p.selected.find? "c" = some x) ∧
    (likeBoundaries.IsForest ∧ likeBoundaries.Crossed likeBoundaries.IsOrigin "a-b" ["a-b"] ∧
      likeBoundaries.Crossed likeBoundaries.IsOrigin "a_b" ["a_b"] ∧
      likeBoundaries.contexts.find? "a-b" = some "root|ref:a_b" ∧
      likeBoundaries.contexts.find? "a_b" = some "root|ref:a_b") := by
  have above : referenceAbove.Crossed referenceAbove.IsOrigin "r" [] := .here (by decide +kernel)
  have top : likeBoundaries.Crossed likeBoundaries.IsOrigin "o" [] := .here (by decide +kernel)
  have evaluated : (referenceAbove.pattern false).map (fun p =>
      decide (p.selected.find? "r" = some "r_root" ∧ p.selected.find? "c" = some "r_root")) = .ok true := by
    decide +kernel
  obtain ⟨p,made,selected⟩ := mapOk evaluated
  obtain ⟨first,second⟩ := of_decide_eq_true selected
  refine ⟨⟨forestOf (by decide +kernel) (by decide +kernel),above,?_,by decide +kernel,by decide +kernel,
    p,_,made,first,second⟩,forestOf (by decide +kernel) (by decide +kernel),?_,?_,by decide +kernel,
    by decide +kernel⟩
  · exact .down above (by decide +kernel) (by decide +kernel)
  · exact .down top (by decide +kernel) (by decide +kernel)
  · exact .down top (by decide +kernel) (by decide +kernel)

end PathQuery.SelectionGraph
