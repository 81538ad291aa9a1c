import PathQuery.Proofs.Attempts
import PathQuery.Proofs.Order.Selection
import PathQuery.Proofs.Pattern.Entries

/-! Patterns of selections that list the same nodes and edges in another order. Bridges may be added in another
order and so have other ids, but for every node the same entries are made. -/
namespace PathQuery

variable {g h : SelectionGraph} {central : String}

namespace Reordered

variable (re : Reordered g h) (centred : Centred g central)

include re centred

theorem plan : g.plan = h.plan := (re.shape centred).plan

theorem emitAll (full : Bool) :
    (Draft.start h full).emitAll = { (Draft.start g full).emitAll with graph := h } :=
  Draft.emitAllOther (fun id => by rw [re.node centred.distinct]) (re.plan centred) full

end Reordered

section

variable {d : Draft} (re : Reordered d.graph h) (distinct : d.graph.nodeIds.Nodup)

include re

theorem bridgedLinksOther (link : String × String) :
    link ∈ ({ d with graph := h } : Draft).bridgedLinks ↔ link ∈ d.bridgedLinks :=
  ((re.internalEdges.filter _).map _).symm.mem_iff

theorem crossedOther (link : String × String) :
    link ∈ ({ d with graph := h } : Draft).crossed ↔ link ∈ d.crossed := by
  have boundaries : link ∈ ({ d with graph := h } : Draft).boundaries ↔ link ∈ d.boundaries :=
    ((re.internalEdges.filter _).map _).symm.mem_iff
  rw [Draft.crossed,Draft.crossed,List.mem_append,List.mem_append,bridgedLinksOther re,boundaries]

theorem plainOther : ({ d with graph := h } : Draft).plainTransitions ({ d with graph := h } : Draft).bridgedLinks =
    d.plainTransitions d.bridgedLinks := by
  -- The transitions come in another order, and one that is there twice may keep another place; sorting undoes both.
  refine sortByPerm ((List.perm_ext_iff_of_nodup (eraseDupsNodup _) (eraseDupsNodup _)).mpr fun link => ?_)
  simp only [List.mem_eraseDups,List.mem_filter,Bool.not_eq_true',← Bool.not_eq_true,List.contains_iff_mem,
    bridgedLinksOther re,re.memTransitions]

theorem announcedOther : ({ d with graph := h } : Draft).announced = d.announced := by
  have bridged : ({ d with graph := h } : Draft).bridgedLinks.contains = d.bridgedLinks.contains := by
    funext link
    rw [Bool.eq_iff_iff,List.contains_iff_mem,List.contains_iff_mem,bridgedLinksOther re]
  rw [Draft.announced,Draft.announced,plainOther re,Draft.parentSteps,Draft.parentSteps,bridged]

include distinct

theorem nodeNameOther : ({ d with graph := h } : Draft).nodeName = d.nodeName := by
  funext id
  rw [Draft.nodeName,Draft.nodeName,re.node distinct]

theorem transitionTextOther : ({ d with graph := h } : Draft).transitionText = d.transitionText := by
  funext link arrow
  rw [Draft.transitionText,Draft.transitionText,nodeNameOther re distinct]

theorem remarkOther : ({ d with graph := h } : Draft).remark ({ d with graph := h } : Draft).crossed =
    d.remark d.crossed := by
  have crossed : ({ d with graph := h } : Draft).crossed.contains = d.crossed.contains := by
    funext link
    rw [Bool.eq_iff_iff,List.contains_iff_mem,List.contains_iff_mem,crossedOther re]
  have arrow : ({ d with graph := h } : Draft).arrowOf ({ d with graph := h } : Draft).crossed =
      d.arrowOf d.crossed := by
    funext link
    rw [Draft.arrowOf,Draft.arrowOf,crossed]
    rfl
  funext id there link
  rw [Draft.remark,Draft.remark,transitionTextOther re distinct,arrow]

theorem entriesOther (along : Blocks) : ({ d with graph := h } : Draft).entriesOf along = d.entriesOf along := by
  have bridge : ({ d with graph := h } : Draft).bridgeOf? = d.bridgeOf? := by
    funext edge
    rw [Draft.bridgeOf?,Draft.bridgeOf?,transitionTextOther re distinct]
    rfl
  have path : ({ d with graph := h } : Draft).pathEntry ({ d with graph := h } : Draft).crossed
      ({ d with graph := h } : Draft).announced = d.pathEntry d.crossed d.announced := by
    funext e
    have marker : ({ d with graph := h } : Draft).marker = d.marker := by
      rw [Draft.marker,Draft.marker,nodeNameOther re distinct]
    rw [Draft.pathEntry,Draft.pathEntry,marker,announcedOther re,remarkOther re distinct]
  funext v
  rw [Draft.entriesOf,Draft.entriesOf,bridge,path,re.bridgesInto]

end

structure Pattern.EntriesAlike (p q : Pattern) : Prop where
  entries : p.emissions.map p.entry = q.emissions.map q.entry
  recorded : p.records.contains = q.records.contains
  chains : p.chains = q.chains

structure WrittenAlike (p q : SelectPattern) : Prop extends p.toPattern.EntriesAlike q.toPattern where
  order : p.order = q.order
  columns : p.projections = q.projections
  selected : p.selected = q.selected

def Fault.blurred : Fault → Fault
  | .notText _ => .notText .null
  | fault => fault

theorem recordedEntries {p : SelectPattern} {full : Bool} (made : g.pattern full = .ok p) (t : Triple) :
    p.records.contains t = true ↔ t ∈ (p.emissions.map p.toPattern.entry).map (·.triple) := by
  rw [(patternSourced made).recorded,List.map_map,List.mem_map]
  rfl

theorem settledAlike {base : Draft} (re : Reordered base.graph h) (distinct : base.graph.nodeIds.Nodup)
    {along : Blocks} {p q : SelectPattern} {full : Bool} (made : g.pattern full = .ok p)
    (other : h.pattern full = .ok q) (first : Settled base along p)
    (second : Settled { base with graph := h } along q) : WrittenAlike p q := by
  have written : p.emissions.map p.toPattern.entry = q.emissions.map q.toPattern.entry := by
    rw [first.entries,second.entries,entriesOther re distinct]
  refine ⟨⟨written,?_,first.chains.trans second.chains.symm⟩,first.order.trans second.order.symm,
    first.columns.trans second.columns.symm,first.selected.trans second.selected.symm⟩
  funext t
  rw [Bool.eq_iff_iff,recordedEntries made,recordedEntries other,written]

theorem patternReordered (re : Reordered g h) (centred : Centred g central) (full : Bool) :
    Together WrittenAlike ((g.pattern full).mapError Fault.blurred) ((h.pattern full).mapError Fault.blurred) := by
  have faults : g.bridgeFault? = none ↔ h.bridgeFault? = none := by
    rw [faultlessIff,faultlessIff]
    exact forall_congr' fun e => imp_congr_left (re.memInternal e)
  cases faulty : g.bridgeFault? with
  | some fault =>
      obtain ⟨later,other⟩ := Option.ne_none_iff_exists'.mp fun sound => by simp [faults.mpr sound] at faulty
      obtain ⟨_,rfl⟩ := faultKind faulty
      obtain ⟨_,rfl⟩ := faultKind other
      rw [patternFaulty faulty,patternFaulty other]
      exact .failed _
  | none =>
      -- Nodes are emitted in the order of the plan, so up to here the two drafts differ in their graphs alone.
      obtain ⟨along,drawn⟩ := drawnEmitAll g full
      obtain ⟨p,made,first⟩ := patternSettled faulty full drawn.toLaid
      have laid : Laid (Draft.start h full).emitAll h.plan.order (fun _ => []) along := by
        rw [re.emitAll centred,← re.plan centred]
        exact { drawn.toLaid with }
      obtain ⟨q,other,second⟩ := patternSettled (faults.mp faulty) full laid
      rw [re.emitAll centred] at second
      have same : Reordered (Draft.start g full).emitAll.graph h := by rwa [drawn.graph]
      have distinct : (Draft.start g full).emitAll.graph.nodeIds.Nodup := by
        rw [drawn.graph]
        exact centred.distinct
      rw [made,other]
      exact .done (settledAlike same distinct made other first second)

end PathQuery
