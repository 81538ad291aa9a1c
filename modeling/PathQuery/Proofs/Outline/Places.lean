import PathQuery.Proofs.Outline.Nesting

/-! Where the nodes of a forest stand. However links are nested, each of them has one place among the trees that
wait in the end. -/
namespace PathQuery

namespace OutlineTree

mutual

def places (depth : Nat) : OutlineTree → List (Nat × OutlineTree)
  | node e trees => (depth,node e trees) :: placesOf (depth + 1) trees

def placesOf (depth : Nat) : List OutlineTree → List (Nat × OutlineTree)
  | [] => []
  | tree :: rest => places depth tree ++ placesOf depth rest

end

def parts (tree : OutlineTree) : List OutlineTree := (tree.places 0).map Prod.snd

mutual

theorem placesParts (depth : Nat) : ∀ tree : OutlineTree,
    (tree.places depth).map Prod.snd = (tree.places 0).map Prod.snd
  | node e trees => by
      simp only [places,List.map_cons]
      rw [placesOfParts (depth + 1) trees,placesOfParts 1 trees]

theorem placesOfParts (depth : Nat) : ∀ trees : List OutlineTree,
    (placesOf depth trees).map Prod.snd = trees.flatMap parts
  | [] => rfl
  | tree :: rest => by
      rw [placesOf,List.map_append,placesParts depth tree,placesOfParts depth rest,List.flatMap_cons,parts]

end

@[simp] theorem partsNode (e : OutlineEntry) (trees : List OutlineTree) :
    (node e trees).parts = node e trees :: trees.flatMap parts := by
  rw [parts,places,List.map_cons,placesOfParts]

mutual

theorem placesDown {P : Nat → OutlineTree → Prop}
    (down : ∀ depth tree, P depth tree → ∀ child ∈ tree.children, P (depth + 1) child) {depth : Nat} :
    ∀ {tree : OutlineTree}, P depth tree → ∀ place ∈ tree.places depth, P place.1 place.2
  | node e trees => by
      intro here place member
      rcases List.mem_cons.mp (places.eq_1 depth e trees ▸ member) with rfl | lower
      · exact here
      · exact placesOfDown down (down depth _ here) place lower

theorem placesOfDown {P : Nat → OutlineTree → Prop}
    (down : ∀ depth tree, P depth tree → ∀ child ∈ tree.children, P (depth + 1) child) {depth : Nat} :
    ∀ {trees : List OutlineTree}, (∀ tree ∈ trees, P depth tree) → ∀ place ∈ placesOf depth trees,
      P place.1 place.2
  | [] => fun _ _ member => nomatch member
  | tree :: rest => by
      intro each place member
      rcases List.mem_append.mp (placesOf.eq_2 depth tree rest ▸ member) with here | later
      · exact placesDown down (each tree List.mem_cons_self) place here
      · exact placesOfDown down (fun other there => each other (List.mem_cons_of_mem _ there)) place later

end

end OutlineTree

namespace Outline

variable {entry : String → OutlineEntry}

theorem waitingParts (entry : String → OutlineEntry) (links : Tree) :
    ((nest entry links).waiting.flatMap (·.2.parts)).Perm (nest entry links).all := by
  induction links with
  | nil => exact .refl _
  | cons link rest ih =>
      have split := ((nest entry rest).waiting.filter_append_perm fun w => w.1 == some link.1).flatMap_right
        fun w => w.2.parts
      rw [List.flatMap_append] at split
      simpa [nest,List.flatMap_map,bne] using split.trans ih

end Outline

end PathQuery
