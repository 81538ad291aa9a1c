import PathQuery.Traversal.Context

/-! The order in which nodes are written: what lies above the central node, the central node and
what lies below it, and then the rest. -/
namespace PathQuery

def load (size : String → Nat) : List String → Nat
  | [] => 0
  | id :: rest => size id + load size rest

theorem loadErase (size : String → Nat) {ids : List String} {id : String} (there : id ∈ ids) :
    load size (ids.erase id) + size id = load size ids := by
  induction ids with
  | nil => simp at there
  | cons a rest ih =>
      rw [List.erase_cons]
      split
      · next same =>
        have : a = id := by simpa using same
        subst this
        simp only [load]
        omega
      · next other =>
        have := ih (by
          rcases List.mem_cons.mp there with h | h
          · simp [h] at other
          · exact h)
        simp only [load] at this ⊢
        omega

namespace SelectionGraph

inductive Step where
  | enter (id : String)
  | leave (id : String)

structure Climb where
  entered : List String
  left : List String

def climb (g : SelectionGraph) (unseen : List String) : List Step → Climb
  | [] => ⟨[],[]⟩
  | .leave id :: rest =>
      let walk := climb g unseen rest
      ⟨walk.entered,id :: walk.left⟩
  | .enter id :: rest =>
      if id ∈ unseen then
        let walk := climb g (unseen.erase id) ((g.sourcesOf id).map .enter ++ .leave id :: rest)
        ⟨id :: walk.entered,walk.left⟩
      else climb g unseen rest
termination_by steps => load (fun id => (g.sourcesOf id).length + 1) unseen + steps.length
decreasing_by
  · simp
  · rename_i there
    have := loadErase (fun id => (g.sourcesOf id).length + 1) there
    simp only [List.length_append,List.length_map,List.length_cons]
    omega
  · simp

structure Descent where
  reached : List String
  links : List (String × String)
  unseen : List String

def linksFrom (g : SelectionGraph) (id : String) : List (String × String) := (g.targetsOf id).map (id,·)

def descend (g : SelectionGraph) (unseen : List String) : List (String × String) → Descent
  | [] => ⟨[],[],unseen⟩
  | link :: rest =>
      if link.2 ∈ unseen then
        let walk := descend g (unseen.erase link.2) (g.linksFrom link.2 ++ rest)
        ⟨link.2 :: walk.reached,link :: walk.links,walk.unseen⟩
      else
        let walk := descend g unseen rest
        ⟨walk.reached,link :: walk.links,walk.unseen⟩
termination_by links => load (fun id => (g.targetsOf id).length) unseen + links.length
decreasing_by
  · rename_i there
    have := loadErase (fun id => (g.targetsOf id).length) there
    simp only [List.length_append,List.length_cons,linksFrom,List.length_map]
    omega
  · simp

def descendAll (g : SelectionGraph) (unseen : List String) : List String → Descent
  | [] => ⟨[],[],unseen⟩
  | id :: rest =>
      if id ∈ unseen then
        let walk := g.descend (unseen.erase id) (g.linksFrom id)
        let more := descendAll g walk.unseen rest
        ⟨id :: walk.reached ++ more.reached,walk.links ++ more.links,more.unseen⟩
      else descendAll g unseen rest

structure EmissionOrder where
  order : List String
  parents : Table String String
  rising : List (String × String)

def parentTable (links : List (String × String)) : Table String String :=
  links.foldl (fun t link => t.insertNew link.2 link.1) .empty

def without (ids dropped : List String) : List String := ids.filter fun id => !dropped.contains id

def emissionOrder (g : SelectionGraph) : EmissionOrder :=
  let ids := sortedIds g.nodeIds
  let rest := g.origins ++ ids
  match g.effectiveCentral with
  | none =>
      let walk := g.descendAll ids rest
      ⟨walk.reached,parentTable walk.links,[]⟩
  | some central =>
      let up := g.climb ids [.enter central]
      let above := up.left.filter (· ≠ central) ++ [central]
      let rising := up.entered.flatMap fun id => (g.sourcesOf id).map (·,id)
      let down := g.descend (without ids above) (g.linksFrom central)
      let left := g.descendAll down.unseen rest
      { order := above ++ down.reached ++ left.reached
        parents := parentTable (rising ++ down.links ++ left.links)
        rising := rising }

end SelectionGraph

end PathQuery
