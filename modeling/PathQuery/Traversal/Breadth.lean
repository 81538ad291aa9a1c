/-! Breadth-first growth over ids with a label each. An id takes the label with which it is first
found; the nodes found are listed in the order in which they are found. -/
namespace PathQuery.Breadth

def claim {α : Type} (unseen : List String) : List (String × α) → List (String × α) × List String
  | [] => ([],unseen)
  | candidate :: rest =>
      if candidate.1 ∈ unseen then
        let found := claim (unseen.erase candidate.1) rest
        (candidate :: found.1,found.2)
      else claim unseen rest

theorem claimLength {α : Type} (unseen : List String) (candidates : List (String × α)) :
    (claim unseen candidates).1.length + (claim unseen candidates).2.length = unseen.length := by
  induction candidates generalizing unseen with
  | nil => simp [claim]
  | cons candidate rest ih =>
      unfold claim
      split
      · next there =>
        have cut := List.length_erase_of_mem there
        have some := List.length_pos_of_mem there
        have := ih (unseen.erase candidate.1)
        simp only [List.length_cons]
        omega
      · exact ih unseen

def grow {α : Type} (next : String → α → List (String × α)) (unseen : List String) :
    List (String × α) → List (String × α) × List String
  | [] => ([],unseen)
  | node :: queue =>
      let found := claim unseen (next node.1 node.2)
      let grown := grow next found.2 (queue ++ found.1)
      (node :: grown.1,grown.2)
termination_by queue => unseen.length + queue.length
decreasing_by
  have := claimLength unseen (next node.1 node.2)
  simp only [List.length_append,List.length_cons]
  omega

def forest {α : Type} (next : String → α → List (String × α)) (unseen : List String) :
    List (List (String × α)) → List (String × α)
  | [] => []
  | seeds :: groups =>
      let found := claim unseen seeds
      let grown := grow next found.2 found.1
      grown.1 ++ forest next grown.2 groups

end PathQuery.Breadth
