import PathQuery.Pattern.Build
import PathQuery.Proofs.Pattern.Stretches
import PathQuery.Proofs.Traversal.Coverage

/-! The log of a pattern, laid out by nodes: in the order of the plan, and for each node first the bridges
into it and then the requests along its path, with the names that its places are given. -/
namespace PathQuery

def emissionId (n : Nat) : String := "e" ++ toString n

def requested (next : Nat) (depth : Int) (owner : Option String) : List Triple → List Emission
  | [] => []
  | t :: rest => ⟨emissionId next,t,max 0 depth,owner⟩ :: requested (next + 1) depth owner rest

theorem requestedTriples (next : Nat) (depth : Int) (owner : Option String) (triples : List Triple) :
    (requested next depth owner triples).map (·.triple) = triples := by
  induction triples generalizing next with
  | nil => rfl
  | cons t rest ih => rw [requested,List.map_cons,ih]

theorem requestedOwner {next : Nat} {depth : Int} {owner : Option String} {triples : List Triple} {e : Emission}
    (member : e ∈ requested next depth owner triples) : e.owner = owner := by
  induction triples generalizing next with
  | nil => nomatch member
  | cons t rest ih =>
      rcases List.mem_cons.mp member with rfl | member
      · rfl
      · exact ih member

theorem requestedIds (next : Nat) (depth : Int) (owner : Option String) (triples : List Triple) :
    (requested next depth owner triples).map (·.id) =
      (List.range' next triples.length).map emissionId := by
  induction triples generalizing next with
  | nil => rfl
  | cons t rest ih => simp [requested,ih,List.range'_succ]

theorem requestAllLog (d : Draft) (triples : List Triple) (depth : Int) (owner : Option String) :
    (d.requestAll triples depth owner).log =
      ⟨d.log.entries ++ requested d.log.next depth owner triples,d.log.next + triples.length⟩ := by
  unfold Draft.requestAll
  induction triples generalizing d with
  | nil => simp [requested]
  | cons t rest ih =>
      rw [List.foldl_cons,ih]
      simp only [Draft.request,EmissionLog.append,EmissionLog.skip,requested,List.append_assoc,
        List.singleton_append,List.length_cons,Nat.add_assoc,Nat.add_comm 1]
      rfl

theorem requestAllElse (d : Draft) (triples : List Triple) (depth : Int) (owner : Option String) :
    ∃ records log, d.requestAll triples depth owner = { d with records := records, log := log } := by
  unfold Draft.requestAll
  induction triples generalizing d with
  | nil => exact ⟨d.records,d.log,rfl⟩
  | cons t rest ih =>
      obtain ⟨records,log,same⟩ := ih (d.request t depth owner).2
      exact ⟨records,log,by rw [List.foldl_cons,same]; rfl⟩

namespace EmissionLog

theorem insertBeforeAt {front back : List Emission} {anchor e : Emission}
    (before : ∀ a ∈ front, a.id ≠ anchor.id) :
    insertBefore anchor.id e (front ++ anchor :: back) = front ++ e :: anchor :: back := by
  induction front with
  | nil => simp [insertBefore]
  | cons first rest ih =>
      rw [List.cons_append,insertBefore,if_neg (before first (by simp)),
        ih fun a member => before a (List.mem_cons_of_mem _ member),List.cons_append]

theorem findId {entries : List Emission} (distinct : (entries.map (·.id)).Nodup) {e : Emission}
    (member : e ∈ entries) : entries.find? (·.id = e.id) = some e := by
  induction entries with
  | nil => nomatch member
  | cons first rest ih =>
      obtain ⟨apart,later⟩ := List.nodup_cons.mp distinct
      rcases List.mem_cons.mp member with rfl | member
      · simp
      · rw [List.find?_cons_of_neg,ih later member]
        intro same
        exact apart (List.mem_map.mpr ⟨e,member,(of_decide_eq_true same).symm⟩)

theorem moveLast {log : EmissionLog} {front back : List Emission} {anchor e : Emission}
    (entries : log.entries = front ++ anchor :: back ++ [e]) (distinct : (log.entries.map (·.id)).Nodup) :
    (log.moveBefore e.id anchor.id).entries = front ++ e :: anchor :: back := by
  have found := findId distinct (e := e) (by simp [entries])
  have anchored := findId distinct (e := anchor) (by simp [entries])
  rw [entries,List.map_append,List.nodup_append] at distinct
  obtain ⟨inner,_,apart⟩ := distinct
  have other : ∀ a ∈ front ++ anchor :: back, a.id ≠ e.id := fun a member =>
    apart a.id (List.mem_map.mpr ⟨a,member,rfl⟩) e.id (by simp)
  rw [List.map_append,List.nodup_append] at inner
  unfold moveBefore
  rw [if_neg (Ne.symm (other anchor (by simp)))]
  simp only [found,anchored]
  rw [entries,List.eraseP_append_right _ (by simpa using other)]
  simp only [decide_true,List.eraseP_cons_of_pos,List.append_nil]
  refine insertBeforeAt fun a member => ?_
  exact inner.2.2 a.id (List.mem_map.mpr ⟨a,member,rfl⟩) anchor.id (by simp)

theorem insertBeforePerm {anchor : String} (e : Emission) {entries : List Emission}
    (there : ∃ a ∈ entries, a.id = anchor) : (insertBefore anchor e entries).Perm (e :: entries) := by
  induction entries with
  | nil => simp at there
  | cons first rest ih =>
      unfold insertBefore
      split
      · exact .refl _
      · next apart =>
        have later : ∃ a ∈ rest, a.id = anchor := by
          obtain ⟨a,member,same⟩ := there
          rcases List.mem_cons.mp member with rfl | member
          · exact absurd same apart
          · exact ⟨a,member,same⟩
        exact ((ih later).cons first).trans (.swap e first rest)

theorem takenOutPerm {id : String} {e : Emission} {entries : List Emission}
    (found : entries.find? (·.id = id) = some e) : (e :: entries.eraseP (·.id = id)).Perm entries := by
  induction entries with
  | nil => simp at found
  | cons first rest ih =>
      by_cases here : first.id = id
      · rw [List.find?_cons_of_pos (by simpa using here)] at found
        cases Option.some.inj found
        rw [List.eraseP_cons_of_pos (by simpa using here)]
      · rw [List.find?_cons_of_neg (by simpa using here)] at found
        rw [List.eraseP_cons_of_neg (by simpa using here)]
        exact (List.Perm.swap first e _).trans ((ih found).cons first)

theorem moveBeforePerm (log : EmissionLog) (id anchor : String) :
    (log.moveBefore id anchor).entries.Perm log.entries := by
  unfold moveBefore
  split
  · exact .refl _
  · next apart =>
    split
    · next e stop found anchored =>
      have named : stop.id = anchor := by simpa using List.find?_some anchored
      have taken := takenOutPerm found
      have kept : stop ∈ log.entries.eraseP (·.id = id) := by
        rcases List.mem_cons.mp (taken.mem_iff.mpr (List.mem_of_find?_eq_some anchored)) with same | kept
        · have own : e.id = id := by simpa using List.find?_some found
          exact absurd (own.symm.trans (same ▸ named)) apart
        · exact kept
      exact (insertBeforePerm e ⟨stop,kept,named⟩).trans taken
    · exact .refl _

theorem moveNext (log : EmissionLog) (id anchor : String) : (log.moveBefore id anchor).next = log.next := by
  unfold moveBefore
  split
  · rfl
  · split <;> rfl

end EmissionLog

abbrev Blocks := String → List Emission

def setBlock (blocks : Blocks) (v : String) (block : List Emission) : Blocks :=
  fun w => if w = v then block else blocks w

theorem setBlockSame (blocks : Blocks) (v : String) (block : List Emission) : setBlock blocks v block v = block :=
  if_pos rfl

theorem setBlockOther {v w : String} (other : w ≠ v) (blocks : Blocks) (block : List Emission) :
    setBlock blocks v block w = blocks w := if_neg other

structure Laid (d : Draft) (order : List String) (into along : Blocks) : Prop where
  once : order.Nodup
  entries : d.log.entries = order.flatMap fun v => into v ++ along v
  owned : ∀ v, ∀ e ∈ into v ++ along v, e.owner = some v
  ids : (d.log.entries.map (·.id)).Perm ((List.range d.log.next).map emissionId)
  firsts : ∀ v, d.firsts.find? v = (along v).head?.map (·.id)
  selected : ∀ v, (d.selected.find? v).isSome = true → along v ≠ []
  absent : ∀ v, v ∉ order → into v = [] ∧ along v = []

variable {d : Draft} {order : List String} {into along : Blocks}

theorem emissionIdInjective {a b : Nat} (same : emissionId a = emissionId b) : a = b := by
  have chars := congrArg String.toList same
  simp only [emissionId,String.toList_append] at chars
  exact numberInjective (String.toList_inj.mp (List.append_cancel_left chars))

theorem idsDistinct (n : Nat) : ((List.range n).map emissionId).Nodup :=
  List.pairwise_map.mpr (List.nodup_range.imp fun apart same => apart (emissionIdInjective same))

theorem laidDistinct (laid : Laid d order into along) : (d.log.entries.map (·.id)).Nodup :=
  laid.ids.nodup_iff.mpr (idsDistinct _)

theorem laidStart (g : SelectionGraph) (full : Bool) :
    Laid (Draft.start g full) [] (fun _ => []) (fun _ => []) where
  once := .nil
  entries := rfl
  owned := fun _ _ member => nomatch member
  ids := .nil
  firsts := fun _ => rfl
  selected := fun _ some => nomatch some
  absent := fun _ _ => ⟨rfl,rfl⟩

theorem flatMapCongr {first second : Blocks} (same : ∀ v ∈ order, first v = second v) :
    order.flatMap first = order.flatMap second := by
  rw [List.flatMap_def,List.flatMap_def,List.map_congr_left same]

theorem laidSkip (laid : Laid d order into along) {v : String} (fresh : v ∉ order) :
    Laid d (order ++ [v]) into along :=
  { laid with
    once := by
      refine List.nodup_append.mpr ⟨laid.once,by simp,?_⟩
      rintro w member _ last rfl
      exact fresh (List.mem_singleton.mp last ▸ member)
    entries := by
      obtain ⟨noBridge,noPath⟩ := laid.absent v fresh
      rw [laid.entries]
      simp [noBridge,noPath]
    absent := fun w apart => laid.absent w fun there => apart (List.mem_append_left _ there) }

theorem walkBegins {w : Walker} {names : Names Stretch} {path : List String} {walk : Walk}
    (walked : w.walk? names path = some walk) : ∃ t rest, walk.triples = t :: rest := by
  cases path with
  | nil => contradiction
  | cons cls rest =>
      cases Option.some.inj walked
      exact ⟨_,_,rfl⟩

theorem emittedLog {v : String} {n : SelectedNode} (found : d.graph.node? v = some n) {walk : Walk}
    (walked : (d.walkerOf v n).walk? d.names n.path = some walk) :
    (d.emitNode v).log = ⟨d.log.entries ++ requested d.log.next (d.depthOf v) (some v) walk.triples,
      d.log.next + walk.triples.length⟩ := by
  simp only [Draft.emitNode,found,walked,requestAllLog]

theorem laidEmit (laid : Laid d order into along) {v : String} (fresh : v ∉ order) {n : SelectedNode}
    (found : d.graph.node? v = some n) {walk : Walk}
    (walked : (d.walkerOf v n).walk? d.names n.path = some walk) :
    Laid (d.emitNode v) (order ++ [v]) into
      (setBlock along v (requested d.log.next (d.depthOf v) (some v) walk.triples)) where
  once := (laidSkip laid fresh).once
  entries := by
    have earlier : ∀ w ∈ order,
        into w ++ setBlock along v (requested d.log.next (d.depthOf v) (some v) walk.triples) w =
          into w ++ along w := by
      intro w member
      rw [setBlockOther]
      rintro rfl
      exact fresh member
    rw [emittedLog found walked,List.flatMap_append,flatMapCongr earlier,← laid.entries]
    simp [(laid.absent v fresh).1,setBlockSame]
  owned := by
    intro w e member
    by_cases same : w = v
    · subst same
      rw [setBlockSame,(laid.absent w fresh).1,List.nil_append] at member
      exact requestedOwner member
    · rw [setBlockOther same] at member
      exact laid.owned w e member
  ids := by
    rw [emittedLog found walked]
    simp only [List.map_append,requestedIds,List.range_add,List.range'_eq_map_range]
    exact laid.ids.append_right _
  firsts := by
    obtain ⟨t,rest,triples⟩ := walkBegins walked
    intro w
    simp only [Draft.emitNode,found,walked,Table.findInsert]
    by_cases same : v = w
    · subst same
      rw [if_pos rfl,setBlockSame,triples]
      rfl
    · rw [if_neg same,setBlockOther (Ne.symm same)]
      exact laid.firsts w
  selected := by
    obtain ⟨t,rest,triples⟩ := walkBegins walked
    intro w
    simp only [Draft.emitNode,found,walked,Table.findInsert]
    by_cases same : v = w
    · subst same
      rw [setBlockSame,triples]
      exact fun _ => List.cons_ne_nil _ _
    · rw [if_neg same,setBlockOther (Ne.symm same)]
      exact laid.selected w
  absent := by
    intro w apart
    have other : w ≠ v := fun same => apart (by simp [same])
    rw [setBlockOther other]
    exact laid.absent w fun there => apart (List.mem_append_left _ there)

theorem splitAt {v : String} (member : v ∈ order) (once : order.Nodup) :
    ∃ before after, order = before ++ v :: after ∧ v ∉ before ∧ v ∉ after := by
  obtain ⟨before,after,rfl⟩ := List.append_of_mem member
  obtain ⟨_,later,apart⟩ := List.nodup_append.mp once
  exact ⟨before,after,rfl,fun there => apart v there v (by simp) rfl,(List.nodup_cons.mp later).1⟩

theorem idsAppend {log : EmissionLog} (ids : (log.entries.map (·.id)).Perm ((List.range log.next).map emissionId))
    {e : Emission} (named : e.id = log.nextId) :
    ((log.skip.append e).entries.map (·.id)).Perm ((List.range (log.next + 1)).map emissionId) := by
  simp only [EmissionLog.append,EmissionLog.skip,List.map_append,List.range_succ,List.map_cons,List.map_nil,named]
  exact ids.append_right _

theorem insertedEntries (laid : Laid d order into along) {v : String} {first e : Emission} {rest : List Emission}
    (inside : v ∈ order) (path : along v = first :: rest) (named : e.id = d.log.nextId) :
    ((d.log.skip.append e).moveBefore e.id first.id).entries =
      order.flatMap (fun w => setBlock into v (into v ++ [e]) w ++ along w) := by
  obtain ⟨before,after,whole,notBefore,notAfter⟩ := splitAt inside laid.once
  have others : ∀ w, w ≠ v → setBlock into v (into v ++ [e]) w ++ along w = into w ++ along w :=
    fun w other => by rw [setBlockOther other]
  have split : (d.log.skip.append e).entries = (before.flatMap (fun w => into w ++ along w) ++ into v) ++
      first :: (rest ++ after.flatMap fun w => into w ++ along w) ++ [e] := by
    simp [EmissionLog.append,EmissionLog.skip,laid.entries,whole,path]
  have moved := EmissionLog.moveLast split ((idsAppend laid.ids named).nodup_iff.mpr (idsDistinct _))
  have earlier := flatMapCongr fun w member => others w fun same => notBefore (same ▸ member)
  have later := flatMapCongr fun w member => others w fun same => notAfter (same ▸ member)
  rw [moved,whole,List.flatMap_append,List.flatMap_cons,earlier,later]
  simp [setBlockSame,path]

theorem laidInsert (laid : Laid d order into along) {v : String} {first e : Emission} {rest : List Emission}
    (path : along v = first :: rest) (named : e.id = d.log.nextId) (owner : e.owner = some v) :
    Laid { d with log := (d.log.skip.append e).moveBefore e.id first.id } order
      (setBlock into v (into v ++ [e])) along := by
  have inside : v ∈ order := Decidable.byContradiction fun outside => by
    rw [(laid.absent v outside).2] at path
    contradiction
  exact
    { laid with
      entries := insertedEntries laid inside path named
      owned := by
        intro w f member
        by_cases same : w = v
        · subst same
          rw [setBlockSame,List.append_assoc,List.mem_append,List.singleton_append,List.mem_cons] at member
          rcases member with bridge | rfl | step
          · exact laid.owned w f (List.mem_append_left _ bridge)
          · exact owner
          · exact laid.owned w f (List.mem_append_right _ step)
        · rw [setBlockOther same] at member
          exact laid.owned w f member
      ids := by
        rw [EmissionLog.moveNext]
        exact ((EmissionLog.moveBeforePerm _ _ _).map _).trans (idsAppend laid.ids named)
      absent := by
        intro w apart
        have other : w ≠ v := fun same => apart (same ▸ inside)
        rw [setBlockOther other]
        exact laid.absent w apart }

theorem laidBridge (laid : Laid d order into along) (edge : SelectedEdge) :
    ∃ into, Laid (d.bridge edge) order into along := by
  unfold Draft.bridge
  split
  · next source target start stop =>
    have named : along edge.target ≠ [] := laid.selected edge.target (by simp [stop])
    obtain ⟨first,rest,path⟩ := List.exists_cons_of_ne_nil named
    have anchored : d.firsts.find? edge.target = some first.id := by simp [laid.firsts,path]
    simp only [Draft.request,Draft.comment,anchored]
    exact ⟨_,{ laidInsert laid path rfl rfl with }⟩
  · exact ⟨into,laid⟩

end PathQuery
