import PathQuery.Proofs.Traversal.Frontier
import PathQuery.Traversal.Depth

/-! Depths are found along shortest ways: growth comes to nearer nodes first, so that each node is found at the
end of a way that is as long as the node is far, and has the depth to which that way leads. -/
namespace PathQuery.SelectionGraph

def Sinks (g : SelectionGraph) : ∀ {v root : String}, g.undirected.Walk v root → Int → Prop
  | _,_,.nil,depth => depth = 0
  | v,_,.cons (v := u) _ way,depth => ∃ before, Sinks g way before ∧
      ((u,v) ∈ g.transitions ∧ depth = before + 1 ∨ (v,u) ∈ g.transitions ∧ depth = before - 1)

def Placed (g : SelectionGraph) (root v : String) (depth : Int) : Prop :=
  ∃ way : g.undirected.Walk v root, way.length = g.undirected.dist v root ∧ g.Sinks way depth

variable {g : SelectionGraph} {root v : String} {depth : Int}

theorem sinksBound {way : g.undirected.Walk v root} (sinks : g.Sinks way depth) :
    depth.natAbs ≤ way.length ∧ depth.natAbs % 2 = way.length % 2 := by
  induction way generalizing depth with
  | nil =>
      cases show depth = 0 from sinks
      exact ⟨Nat.le_refl _,rfl⟩
  | cons adj way ih =>
      obtain ⟨before,above,step⟩ := sinks
      obtain ⟨bound,parity⟩ := ih above
      rw [SimpleGraph.Walk.length_cons]
      rcases step with ⟨_,rfl⟩ | ⟨_,rfl⟩ <;> omega

theorem placedRoot (g : SelectionGraph) (root : String) : g.Placed root root 0 :=
  ⟨.nil,by simp,rfl⟩

theorem rootPlaced (placed : g.Placed root root depth) : depth = 0 := by
  obtain ⟨way,shortest,sinks⟩ := placed
  rw [SimpleGraph.dist_self] at shortest
  have bound := (sinksBound sinks).1
  omega

theorem placedReachable (placed : g.Placed root v depth) : g.undirected.Reachable v root :=
  ⟨placed.choose⟩

theorem memDepthSteps {child : String × Int} : child ∈ g.depthSteps v depth ↔
    (v,child.1) ∈ g.transitions ∧ child.2 = depth + 1 ∨ (child.1,v) ∈ g.transitions ∧ child.2 = depth - 1 := by
  obtain ⟨u,next⟩ := child
  simp only [depthSteps,List.mem_append,List.mem_map,Prod.mk.injEq,memSourcesOf,memTargetsOf]
  constructor
  · rintro (⟨_,link,rfl,same⟩ | ⟨_,link,rfl,same⟩)
    · exact .inr ⟨link,same.symm⟩
    · exact .inl ⟨link,same.symm⟩
  · rintro (⟨link,same⟩ | ⟨link,same⟩)
    · exact .inr ⟨u,link,rfl,same.symm⟩
    · exact .inl ⟨u,link,rfl,same.symm⟩

theorem depthStepAdj {child : String × Int} (step : child ∈ g.depthSteps v depth) (apart : child.1 ≠ v) :
    g.undirected.Adj child.1 v :=
  undirectedAdj.mpr ⟨apart,(memDepthSteps.mp step).symm.imp And.left And.left⟩

theorem adjDepthStep {u : String} (adj : g.undirected.Adj u v) (depth : Int) :
    ∃ next, (u,next) ∈ g.depthSteps v depth := by
  rcases (undirectedAdj.mp adj).2 with link | link
  · exact ⟨depth - 1,memDepthSteps.mpr (.inr ⟨link,rfl⟩)⟩
  · exact ⟨depth + 1,memDepthSteps.mpr (.inl ⟨link,rfl⟩)⟩

theorem placedStep {child : String × Int} (placed : g.Placed root v depth) (step : child ∈ g.depthSteps v depth)
    (further : g.undirected.dist child.1 root = g.undirected.dist v root + 1) : g.Placed root child.1 child.2 := by
  obtain ⟨way,shortest,sinks⟩ := placed
  have apart : child.1 ≠ v := fun same => absurd (same ▸ further) (Nat.ne_of_lt (Nat.lt_succ_self _))
  refine ⟨.cons (depthStepAdj step apart) way,?_,depth,sinks,memDepthSteps.mp step⟩
  rw [SimpleGraph.Walk.length_cons,shortest,further]

theorem depthsOutward (g : SelectionGraph) (root : String) : Outward g root g.depthSteps (g.Placed root) where
  beside := depthStepAdj
  every := adjDepthStep
  linked := placedReachable
  further := placedStep

end PathQuery.SelectionGraph
