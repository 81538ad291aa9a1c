import PathQuery.Proofs.Pattern.Drawing

/-! What is emitted for the nodes. Of a node nothing is read but its source and its path, so two selections that
agree on these are emitted alike, whatever else they say of their nodes and however they list them. -/
namespace PathQuery

def SelectedNode.traits (n : SelectedNode) : String × List String := (n.source,n.path)

def EmitsAlike (g h : SelectionGraph) : Prop :=
  ∀ id, (g.node? id).map SelectedNode.traits = (h.node? id).map SelectedNode.traits

section

variable {g h : SelectionGraph} (alike : EmitsAlike g h) {id : String}

include alike

theorem alikeMissing (missing : g.node? id = none) : h.node? id = none := by
  have same := alike id
  rw [missing] at same
  exact Option.map_eq_none_iff.mp same.symm

theorem alikeFound {n : SelectedNode} (found : g.node? id = some n) :
    ∃ m, h.node? id = some m ∧ m.source = n.source ∧ m.path = n.path := by
  have same := alike id
  rw [found] at same
  obtain ⟨m,other,traits⟩ := Option.map_eq_some_iff.mp same.symm
  exact ⟨m,other,congrArg Prod.fst traits,congrArg Prod.snd traits⟩

theorem wishesAlike (order : List String) : g.wishes order = h.wishes order := by
  have each : ∀ seen, wishesFrom g seen order = wishesFrom h seen order := by
    induction order with
    | nil => exact fun _ => rfl
    | cons id rest ih =>
        intro seen
        cases found : g.node? id with
        | none => simp only [wishesFrom,found,alikeMissing alike found,ih]
        | some n =>
            obtain ⟨m,other,source,_⟩ := alikeFound alike found
            have stem : stemOf m = stemOf n := congrArg fragment source
            simp only [wishesFrom,found,other,stem,ih]
  rw [SelectionGraph.wishes,SelectionGraph.wishes,each]

end

namespace Draft

theorem emitNodeKeeps (d : Draft) (v : String) :
    (d.emitNode v).graph = d.graph ∧ (d.emitNode v).comments = d.comments := by
  cases found : d.graph.node? v with
  | none => simp only [emitNode,found,and_self]
  | some n =>
      cases walked : (d.walkerOf v n).walk? d.names n.path with
      | none => simp only [emitNode,found,walked,and_self]
      | some walk =>
          obtain ⟨records,log,same⟩ := emitNodeElse found walked
          rw [same]
          exact ⟨rfl,rfl⟩

theorem emitNodesKeep (ids : List String) (d : Draft) :
    (ids.foldl emitNode d).graph = d.graph ∧ (ids.foldl emitNode d).comments = d.comments := by
  induction ids generalizing d with
  | nil => exact ⟨rfl,rfl⟩
  | cons v rest ih =>
      obtain ⟨graph,comments⟩ := emitNodeKeeps d v
      obtain ⟨later,after⟩ := ih (d.emitNode v)
      exact ⟨later.trans graph,after.trans comments⟩

variable {h : SelectionGraph}

theorem requestAllOther (d : Draft) (triples : List Triple) (depth : Int) (owner : Option String) :
    ({ d with graph := h } : Draft).requestAll triples depth owner =
      { d.requestAll triples depth owner with graph := h } := by
  unfold requestAll
  induction triples generalizing d with
  | nil => rfl
  | cons t rest ih => exact ih (d.request t depth owner).2

theorem emitNodeOther {d : Draft} (alike : EmitsAlike d.graph h) (v : String) :
    ({ d with graph := h } : Draft).emitNode v = { d.emitNode v with graph := h } := by
  cases found : d.graph.node? v with
  | none => simp only [emitNode,found,alikeMissing alike found]
  | some n =>
      obtain ⟨m,other,source,path⟩ := alikeFound alike found
      have walker : ({ d with graph := h } : Draft).walkerOf v m = d.walkerOf v n := by
        simp only [walkerOf,stemOf,source]
      simp only [emitNode,found,other,walker,path]
      cases (d.walkerOf v n).walk? d.names n.path with
      | none => rfl
      | some walk => simp only [requestAllOther]; rfl

theorem emitNodesOther {d : Draft} (alike : EmitsAlike d.graph h) (ids : List String) :
    ids.foldl emitNode { d with graph := h } = { ids.foldl emitNode d with graph := h } := by
  induction ids generalizing d with
  | nil => rfl
  | cons v rest ih =>
      rw [List.foldl_cons,List.foldl_cons,emitNodeOther alike]
      exact ih ((emitNodeKeeps d v).1 ▸ alike)

theorem emitAllOther {g : SelectionGraph} (alike : EmitsAlike g h) (plan : g.plan = h.plan) (full : Bool) :
    (start h full).emitAll = { (start g full).emitAll with graph := h } := by
  have start : Draft.start h full = { Draft.start g full with graph := h } := by
    simp only [Draft.start,← plan,wishesAlike alike]
  rw [start]
  exact emitNodesOther (d := Draft.start g full) alike g.plan.order

end Draft

end PathQuery
