import PathQuery.Outline
import PathQuery.Proofs.Traversal.Hanging

/-! Links put together to trees. As each link hangs from one that was there before it, below every part of a
tree stands just what the links say hangs there. -/
namespace PathQuery

namespace OutlineTree

inductive Within : OutlineTree → OutlineTree → Prop where
  | whole {tree : OutlineTree} : Within tree tree
  | inner {part child tree : OutlineTree} (inside : Within part child) (hangs : child ∈ tree.children) :
      Within part tree

def Spans (links : Tree) (tree : OutlineTree) : Prop :=
  ∀ part, Within part tree →
    part.children.map (·.entry.id) = (links.filter (·.2 == some part.entry.id)).map Prod.fst

@[simp] theorem entryNode (e : OutlineEntry) (trees : List OutlineTree) : (node e trees).entry = e := rfl

@[simp] theorem childrenNode (e : OutlineEntry) (trees : List OutlineTree) : (node e trees).children = trees := rfl

variable {links : Tree} {tree part child : OutlineTree}

theorem withinTrans {top : OutlineTree} (lower : part.Within top) (inside : top.Within tree) : part.Within tree := by
  induction inside with
  | whole => exact lower
  | inner _ hangs ih => exact .inner ih hangs

theorem withinChild (inside : part.Within tree) (hangs : child ∈ part.children) : child.Within tree :=
  withinTrans (.inner .whole hangs) inside

theorem childLinked (spans : tree.Spans links) (inside : part.Within tree) {id : String} :
    (∃ child ∈ part.children, child.entry.id = id) ↔ (id,some part.entry.id) ∈ links := by
  have listed : id ∈ part.children.map (·.entry.id) ↔
      id ∈ (links.filter (·.2 == some part.entry.id)).map Prod.fst := by rw [spans part inside]
  simpa [List.mem_map] using listed

theorem partIff (spans : tree.Spans links) {id : String} :
    (∃ part : OutlineTree, part.Within tree ∧ part.entry.id = id) ↔ links.Below tree.entry.id id := by
  constructor
  · rintro ⟨part,inside,rfl⟩
    induction inside with
    | whole => exact .here
    | @inner child tree inside hangs ih =>
        have link := (childLinked spans .whole).mp ⟨child,hangs,rfl⟩
        exact Tree.belowTrans (.down .here link) (ih fun lower further => spans lower (.inner further hangs))
  · intro below
    induction below with
    | here => exact ⟨tree,.whole,rfl⟩
    | down _ link ih =>
        obtain ⟨part,inside,rfl⟩ := ih
        obtain ⟨child,hangs,same⟩ := (childLinked spans inside).mpr link
        exact ⟨child,withinChild inside hangs,same⟩

end OutlineTree

namespace Tree

def Trailing : List String → Tree → Prop
  | _,[] => True
  | seen,link :: rest =>
      link.1 ∉ seen ∧ (∀ parent, link.2 = some parent → parent ∈ seen) ∧ Trailing (seen ++ [link.1]) rest

variable {links first second : Tree} {seen : List String}

theorem trailingFresh (trailing : Trailing seen links) {id : String} (there : id ∈ links.ids) : id ∉ seen := by
  induction links generalizing seen with
  | nil => nomatch there
  | cons link rest ih =>
      rcases List.mem_cons.mp there with rfl | there
      · exact trailing.1
      · exact fun old => ih trailing.2.2 there (List.mem_append_left _ old)

theorem trailingJoined :
    Trailing seen (first ++ second) ↔ Trailing seen first ∧ Trailing (seen ++ first.ids) second := by
  induction first generalizing seen with
  | nil => simp [Trailing,ids]
  | cons link rest ih => simp [Trailing,ids,ih,and_assoc]

variable {g : SelectionGraph} {root : String} {tree : Tree}

theorem hungTrailing (hung : Hung g root tree) : Trailing [] tree := by
  induction hung with
  | root => exact ⟨List.not_mem_nil,nofun,trivial⟩
  | hang before there fresh _ ih =>
      refine trailingJoined.mpr ⟨ih,fresh,fun parent same => ?_,trivial⟩
      cases same
      exact there

theorem hungRooted (hung : Hung g root tree) :
    ∃ rest, tree = (root,none) :: rest ∧ ∀ link ∈ rest, link.2 ≠ none := by
  induction hung with
  | root => exact ⟨[],rfl,fun _ member => nomatch member⟩
  | hang before there fresh _ ih =>
      obtain ⟨rest,rfl,each⟩ := ih
      refine ⟨_,rfl,fun link member => ?_⟩
      rcases List.mem_append.mp member with old | last
      · exact each link old
      · cases List.mem_singleton.mp last
        exact nofun

end Tree

namespace Outline
open PathQuery.Tree (Trailing Hung)

variable {entry : String → OutlineEntry} {links first second : Tree} {seen : List String}

theorem waitingLabel {w : Option String × OutlineTree} (waits : w ∈ (nest entry links).waiting) :
    w.1 ∈ links.map Prod.snd := by
  induction links with
  | nil => nomatch waits
  | cons link rest ih =>
      rcases List.mem_cons.mp waits with rfl | later
      · exact List.mem_cons_self
      · exact List.mem_cons_of_mem _ (ih (List.mem_filter.mp later).1)

theorem waitingSeen (trailing : Trailing seen links) {w : Option String × OutlineTree}
    (waits : w ∈ (nest entry links).waiting) {parent : String} (label : w.1 = some parent) : parent ∈ seen := by
  induction links generalizing seen with
  | nil => nomatch waits
  | cons link rest ih =>
      rcases List.mem_cons.mp waits with rfl | later
      · exact trailing.2.1 parent label
      · obtain ⟨later,other⟩ := List.mem_filter.mp later
        rcases List.mem_append.mp (ih trailing.2.2 later) with old | own
        · exact old
        · rw [List.mem_singleton.mp own] at label
          simp [label] at other

theorem waitingListed {w : Option String × OutlineTree} (waits : w ∈ (nest entry links).waiting) :
    w.2 ∈ (nest entry links).all := by
  induction links with
  | nil => nomatch waits
  | cons link rest ih =>
      rcases List.mem_cons.mp waits with rfl | later
      · exact List.mem_cons_self
      · exact List.mem_cons_of_mem _ (ih (List.mem_filter.mp later).1)

theorem partListed {tree part : OutlineTree} (listed : tree ∈ (nest entry links).all) (inside : part.Within tree) :
    part ∈ (nest entry links).all := by
  have child : ∀ {links : Tree} {tree child : OutlineTree}, tree ∈ (nest entry links).all →
      child ∈ tree.children → child ∈ (nest entry links).all := by
    intro links
    induction links with
    | nil => exact fun listed => nomatch listed
    | cons link rest ih =>
        intro tree child listed hangs
        rcases List.mem_cons.mp listed with rfl | later
        · obtain ⟨w,mine,rfl⟩ := List.mem_map.mp hangs
          exact List.mem_cons_of_mem _ (waitingListed (List.mem_filter.mp mine).1)
        · exact List.mem_cons_of_mem _ (ih later hangs)
  induction inside with
  | whole => exact listed
  | inner _ hangs ih => exact ih (child listed hangs)

theorem nestJoined (apart : ∀ link ∈ second, ∀ id, link.2 = some id → id ∉ first.ids) :
    nest entry (first ++ second) = ⟨(nest entry first).waiting ++ (nest entry second).waiting,
      (nest entry first).all ++ (nest entry second).all⟩ := by
  induction first with
  | nil => rfl
  | cons link rest ih =>
      have other : ∀ w ∈ (nest entry second).waiting, w.1 ≠ some link.1 := by
        intro w waits same
        obtain ⟨from_,member,label⟩ := List.mem_map.mp (waitingLabel waits)
        exact apart from_ member link.1 (label.trans same) List.mem_cons_self
      have later := ih fun link member id label there => apart link member id label (List.mem_cons_of_mem _ there)
      have none : (nest entry second).waiting.filter (fun w => w.1 == some link.1) = [] :=
        List.filter_eq_nil_iff.mpr fun w waits => by simpa using other w waits
      have whole : (nest entry second).waiting.filter (fun w => w.1 != some link.1) = (nest entry second).waiting :=
        List.filter_eq_self.mpr fun w waits => by simpa using other w waits
      simp [nest,later,none,whole]

section
variable (named : ∀ id, (entry id).id = id)

include named

theorem listedIds (links : Tree) : (nest entry links).all.map (·.entry.id) = links.ids := by
  induction links with
  | nil => rfl
  | cons link rest ih => simpa [nest,Tree.ids,named] using ih

theorem waitingFor {id : String} (fresh : id ∉ links.ids) :
    ((nest entry links).waiting.filter (·.1 == some id)).map (·.2.entry.id) =
      (links.filter (·.2 == some id)).map Prod.fst := by
  induction links with
  | nil => rfl
  | cons link rest ih =>
      obtain ⟨other,later⟩ := List.ne_and_not_mem_of_not_mem_cons fresh
      have kept : ((nest entry rest).waiting.filter (·.1 != some link.1)).filter (·.1 == some id) =
          (nest entry rest).waiting.filter (·.1 == some id) := by
        rw [List.filter_filter]
        refine List.filter_congr fun w _ => ?_
        by_cases same : w.1 = some id <;> simp [same,other]
      simp only [nest,List.filter_cons,kept]
      split <;> simp [ih later,named]

theorem nestSpans (trailing : Trailing seen links) {tree : OutlineTree} (listed : tree ∈ (nest entry links).all) :
    tree.Spans links := by
  induction links generalizing seen tree with
  | nil => nomatch listed
  | cons link rest ih =>
      obtain ⟨new,parent,later⟩ := trailing
      have fresh : link.1 ∉ Tree.ids rest := fun there => Tree.trailingFresh later there (by simp)
      have lower : ∀ {tree}, tree ∈ (nest entry rest).all → tree.Spans (link :: rest) := by
        intro tree listed part inside
        have there : part.entry.id ∈ Tree.ids rest :=
          listedIds named rest ▸ List.mem_map_of_mem (partListed listed inside)
        have apart : link.2 ≠ some part.entry.id := fun same =>
          Tree.trailingFresh later there (List.mem_append_left _ (parent _ same))
        rw [ih later listed part inside,List.filter_cons_of_neg (by simpa using apart)]
      rcases List.mem_cons.mp listed with rfl | listed
      · intro part inside
        cases inside with
        | whole =>
            have apart : link.2 ≠ some link.1 := fun same => new (parent _ same)
            simp only [OutlineTree.entryNode,OutlineTree.childrenNode,named,List.map_map]
            rw [List.filter_cons_of_neg (by simpa using apart),← waitingFor named fresh]
            rfl
        | inner inside hangs =>
            obtain ⟨w,mine,rfl⟩ := List.mem_map.mp hangs
            exact lower (waitingListed (List.mem_filter.mp mine).1) part inside
      · exact lower listed

theorem treeWaits {g : SelectionGraph} {root : String} (hung : Hung g root links) :
    ∃ whole, (nest entry links).waiting = [(none,whole)] ∧ whole.entry.id = root := by
  have trailing := Tree.hungTrailing hung
  obtain ⟨rest,rfl,each⟩ := Tree.hungRooted hung
  have taken : (nest entry rest).waiting.filter (·.1 != some root) = [] := by
    refine List.filter_eq_nil_iff.mpr fun w waits => ?_
    obtain ⟨link,member,label⟩ := List.mem_map.mp (waitingLabel waits)
    obtain ⟨parent,found⟩ := Option.ne_none_iff_exists'.mp (label ▸ each link member)
    have own := waitingSeen trailing.2.2 waits found
    simp only [List.nil_append,List.mem_singleton] at own
    simp [found,own]
  refine ⟨_,congrArg (_ :: ·) taken,?_⟩
  exact named root

end

end Outline

end PathQuery
