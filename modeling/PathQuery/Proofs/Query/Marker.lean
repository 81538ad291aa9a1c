import PathQuery.Proofs.Pattern.Requests
import PathQuery.Proofs.Pattern.Splicing
import PathQuery.Proofs.Query.Body
import PathQuery.Proofs.Query.Mandatory
import PathQuery.Proofs.Query.Openings
import PathQuery.Proofs.Traversal.Precedence

/-! Where the marker of the central node stands. It parts the body at the start of that node's path: all scopes are
closed there, and what the nodes above have asked for is written. -/
namespace PathQuery

def Line.marker? : Line → Option String
  | marker text => some text
  | _ => none

theorem markersAppend (first second : List Line) : (first ++ second).filterMap Line.marker? =
    first.filterMap Line.marker? ++ second.filterMap Line.marker? := List.filterMap_append

theorem closingsUnmarked (scopes : List Scope) : (closings scopes).filterMap Line.marker? = [] := by
  simp [closings,List.filterMap_map,Function.comp_def,Line.marker?]

namespace Pattern

variable {p : Pattern}

theorem notesUnmarked (e : Emission) : (p.notes e).filterMap Line.marker? = [] := by
  unfold notes
  induction p.comments.findD e.id [] with
  | nil => rfl
  | cons text rest ih => simpa [Line.marker?] using ih

theorem markingMarks (e : Emission) (opened : List Scope) :
    (p.marking e opened).filterMap Line.marker? = (p.markerAt e).toList := by
  unfold marking
  cases p.markerAt e with
  | none => rfl
  | some text =>
      rw [markersAppend,leaving,closingsUnmarked]
      rfl

theorem markersFrom (opened : List Scope) (done : List Triple) {emissions : List Emission}
    (recorded : ∀ e ∈ emissions, p.records.contains e.triple = true) :
    (p.linesFrom opened done emissions).filterMap Line.marker? = emissions.filterMap p.markerAt := by
  induction emissions generalizing opened done with
  | nil => exact closingsUnmarked opened
  | cons e rest ih =>
      have later := fun opened done => ih opened done fun e member => recorded e (List.mem_cons_of_mem _ member)
      have opening : ∀ scopes : List Scope, (scopes.map .opening).filterMap Line.marker? = [] := fun scopes => by
        simp [List.filterMap_map,Function.comp_def,Line.marker?]
      rw [linesFrom,if_pos (recorded e List.mem_cons_self),markersAppend,markersAppend,notesUnmarked,markingMarks,
        List.nil_append]
      have here : (e :: rest).filterMap p.markerAt = (p.markerAt e).toList ++ rest.filterMap p.markerAt := by
        cases marked : p.markerAt e <;> simp [marked]
      rw [here]
      congr 1
      split
      · exact later _ _
      · rw [markersAppend,markersAppend,leaving,closingsUnmarked,opening]
        exact later _ _

theorem linesOnward (p : Pattern) (opened : List Scope) (done : List Triple) (emissions : List Emission) :
    ∃ lines after known, openAfter opened.length lines = some after.length ∧
      ∀ rest, p.linesFrom opened done (emissions ++ rest) = lines ++ p.linesFrom after known rest := by
  induction emissions generalizing opened done with
  | nil => exact ⟨[],opened,done,rfl,fun _ => rfl⟩
  | cons e more ih =>
      simp only [List.cons_append,linesFrom]
      split
      · have marking := openAfterJoin (openAfterNotes (p := p) opened.length e) (openAfterMarking (p := p) e opened)
        split
        · obtain ⟨lines,after,known,scopes,onward⟩ := ih (p.marked e opened) done
          exact ⟨_,after,known,openAfterJoin marking scopes,fun rest => by rw [onward,← List.append_assoc]⟩
        · have opening := openAfterJoin (openAfterLeaving (p.marked e opened) (p.chainOf e))
            (openAfterOpenings _ (entering (p.marked e opened) (p.chainOf e) e.depth))
          rw [← List.length_append] at opening
          obtain ⟨lines,after,known,scopes,onward⟩ := ih _ (e.triple :: done)
          have below : openAfter _ (.triple e.depth e.triple :: lines) = some after.length := scopes
          refine ⟨_,after,known,openAfterJoin marking (openAfterJoin opening below),fun rest => ?_⟩
          rw [onward]
          simp only [List.append_assoc,List.cons_append]
      · exact ih opened done

theorem markedLines {e : Emission} {text : String} (recorded : p.records.contains e.triple = true)
    (marked : p.markerAt e = some text) (free : p.chainOf e = []) (opened : List Scope) (done : List Triple)
    (rest : List Emission) : ∃ back, p.linesFrom opened done (e :: rest) =
      p.notes e ++ closings opened ++ [.blank] ++ .marker text :: back := by
  have shut : opened.drop (sharedScopes opened []) = opened := by simp [sharedScopes]
  rw [linesFrom,if_pos recorded,marking,marked,leaving,free,shut]
  simp only [List.append_assoc,List.cons_append,List.nil_append]
  exact ⟨_,rfl⟩

theorem partedAt {earlier rest : List Emission} {e : Emission} {text : String}
    (all : p.emissions = earlier ++ e :: rest) (recorded : p.records.contains e.triple = true)
    (marked : p.markerAt e = some text) (free : p.chainOf e = []) :
    ∃ front back, p.lines [] = front ++ .marker text :: back ∧ openAfter 0 front = some 0 ∧
      ∀ t, t ∈ writtenTriples front ↔ p.Awaits [] earlier t := by
  obtain ⟨lines,after,known,scopes,onward⟩ := linesOnward p [] [] earlier
  obtain ⟨back,here⟩ := markedLines recorded marked free after known rest
  have closing := openAfterClosings 0 after
  rw [Nat.zero_add] at closing
  refine ⟨lines ++ (p.notes e ++ closings after ++ [.blank]),back,?_,?_,fun t => ?_⟩
  · rw [Pattern.lines,all,onward,here,← List.append_assoc]
  · exact openAfterJoin scopes (openAfterJoin (openAfterJoin (openAfterNotes _ e) closing) rfl)
  · -- The lines of the emissions before are the same with nothing behind them.
    have alone := writtenFrom (p := p) [] [] earlier t
    rw [← List.append_nil earlier,onward,writtenAppend,linesFrom,closingsWriteNone,List.append_nil] at alone
    rw [writtenAppend,writtenAppend,writtenAppend,notesWriteNone,closingsWriteNone]
    simpa [writtenTriples,Line.triple?] using alone

end Pattern

def Line.IsLevel : Line → Prop
  | note depth _ => 0 ≤ depth
  | opening scope => 0 ≤ scope.depth
  | closing scope => 0 ≤ scope.depth
  | triple depth _ => 0 ≤ depth
  | _ => True

namespace Pattern

variable {p : Pattern}

theorem closingsLevel {scopes : List Scope} (level : ∀ s ∈ scopes, 0 ≤ s.depth) :
    ∀ line ∈ closings scopes, line.IsLevel := by
  intro line member
  obtain ⟨scope,there,rfl⟩ := List.mem_map.mp member
  exact level scope (List.mem_reverse.mp there)

theorem leavingLevel {opened : List Scope} (level : ∀ s ∈ opened, 0 ≤ s.depth) (chain : List String) :
    ∀ line ∈ leaving opened chain, line.IsLevel :=
  closingsLevel fun s member => level s (List.mem_of_mem_drop member)

theorem enteringLevel (opened : List Scope) (chain : List String) {depth : Int} (above : 0 ≤ depth) :
    ∀ s ∈ entering opened chain depth, 0 ≤ s.depth := by
  intro s member
  obtain ⟨id,_,rfl⟩ := List.mem_map.mp member
  exact above

theorem notesLevel {e : Emission} (above : 0 ≤ e.depth) : ∀ line ∈ p.notes e, line.IsLevel := by
  intro line member
  obtain ⟨text,_,member⟩ := List.mem_flatMap.mp member
  rcases List.mem_cons.mp member with rfl | member
  · trivial
  · rw [List.mem_singleton.mp member]
    exact above

theorem markingLevel {opened : List Scope} (level : ∀ s ∈ opened, 0 ≤ s.depth) (e : Emission) :
    ∀ line ∈ p.marking e opened, line.IsLevel := by
  intro line member
  unfold marking at member
  split at member
  · rcases List.mem_append.mp member with closing | member
    · exact leavingLevel level _ line closing
    · simp only [List.mem_cons,List.not_mem_nil,or_false] at member
      rcases member with rfl | rfl <;> trivial
  · nomatch member

theorem markedLevel {opened : List Scope} (level : ∀ s ∈ opened, 0 ≤ s.depth) (e : Emission) :
    ∀ s ∈ p.marked e opened, 0 ≤ s.depth := by
  unfold marked
  split
  · exact fun s member => level s (List.mem_of_mem_take member)
  · exact level

theorem levelFrom {opened : List Scope} {done : List Triple} {emissions : List Emission}
    (level : ∀ s ∈ opened, 0 ≤ s.depth) (above : ∀ e ∈ emissions, 0 ≤ e.depth) :
    ∀ line ∈ p.linesFrom opened done emissions, line.IsLevel := by
  induction emissions generalizing opened done with
  | nil => exact closingsLevel level
  | cons e rest ih =>
      have here := above e List.mem_cons_self
      have later := fun e member => above e (List.mem_cons_of_mem _ member)
      have still := markedLevel (p := p) level e
      have entered := enteringLevel (p.marked e opened) (p.chainOf e) here
      have onward : ∀ s ∈ (p.marked e opened).take (sharedScopes (p.marked e opened) (p.chainOf e)) ++
          entering (p.marked e opened) (p.chainOf e) e.depth, 0 ≤ s.depth :=
        List.forall_mem_append.mpr ⟨fun s member => still s (List.mem_of_mem_take member),entered⟩
      unfold linesFrom
      split
      · refine List.forall_mem_append.mpr ⟨List.forall_mem_append.mpr ⟨notesLevel here,markingLevel level e⟩,?_⟩
        split
        · exact ih still later
        · refine List.forall_mem_append.mpr ⟨List.forall_mem_append.mpr ⟨leavingLevel still _,?_⟩,
            List.forall_mem_cons.mpr ⟨here,ih onward later⟩⟩
          intro line member
          obtain ⟨scope,there,rfl⟩ := List.mem_map.mp member
          exact entered scope there
      · exact ih level later

end Pattern

theorem marginText (namespaces : NamespaceTable) {line : Line} (level : line.IsLevel) (other : line.marker? = none) :
    (line.text namespaces).head? ≠ some '#' := by
  have set : ∀ {depth : Int}, 0 ≤ depth → ∀ rest : List Char, (indent depth ++ rest).head? ≠ some '#' := by
    intro depth above rest
    obtain ⟨n,spaces⟩ : ∃ n, 2 * (depth + 1).toNat = n + 1 := ⟨2 * (depth + 1).toNat - 1,by omega⟩
    rw [indent,spaces,List.replicate_succ]
    simp
  cases line with
  | blank => exact fun none => nomatch none
  | marker text => contradiction
  | note depth text => exact set level _
  | opening scope => exact set level _
  | closing scope => exact set level _
  | triple depth t => exact set level _

theorem marginLines (namespaces : NamespaceTable) {lines : List Line} (level : ∀ line ∈ lines, line.IsLevel)
    (marks : ∀ text ∈ lines.filterMap Line.marker?, text.toList.head? = some '#') :
    (lines.map (Line.text namespaces)).filter (·.head? = some '#') =
      (lines.filterMap Line.marker?).map String.toList := by
  induction lines with
  | nil => rfl
  | cons line rest ih =>
      obtain ⟨here,later⟩ := List.forall_mem_cons.mp level
      rw [List.map_cons]
      cases mark : line.marker? with
      | none =>
          rw [List.filterMap_cons_none mark] at marks ⊢
          rw [List.filter_cons_of_neg (by simpa using marginText namespaces here mark),ih later marks]
      | some text =>
          rw [List.filterMap_cons_some mark] at marks ⊢
          obtain ⟨head,others⟩ := List.forall_mem_cons.mp marks
          obtain rfl : line = .marker text := by
            cases line <;> simp_all [Line.marker?]
          have shown : ((Line.marker text).text namespaces).head? = some '#' := head
          rw [List.filter_cons_of_pos (by simpa using shown),ih later others]
          rfl

namespace SelectionGraph

variable {g : SelectionGraph} {parents : Table String String} {central : Option String} {v : String}

def Free (central : Option String) (v : String) (chain : List String) : Prop := central = some v → chain = []

theorem freeApart (apart : central ≠ some v) (chain : List String) : Free central v chain :=
  fun here => absurd here apart

theorem findsFree {known after : Chains} {below chain : List String}
    (finds : Finds g parents central known below v chain after) (all : Hold (Free central) known) :
    Free central v chain ∧ Hold (Free central) after := by
  induction finds with
  | known found => exact ⟨all _ _ found,all⟩
  | around unknown waits => exact ⟨fun _ => rfl,all⟩
  | marked unknown fresh here => exact ⟨fun _ => rfl,holdInsert all fun _ => rfl⟩
  | top unknown fresh apart none => exact ⟨freeApart apart _,holdInsert all (freeApart apart _)⟩
  | under unknown fresh apart up _ ih => exact ⟨freeApart apart _,holdInsert ih.2 (freeApart apart _)⟩

theorem centralFree {c : String} (found : g.effectiveCentral = some c) : g.plan.chains.findD c [] = [] := by
  have all : Hold (Free g.effectiveCentral) g.plan.chains :=
    findsAllHold (chainsFromFinds .empty .empty g.plan.order) (fun _ _ _ _ _ finds => findsFree finds) (holdEmpty _)
      (holdEmpty _)
  rw [Table.findD]
  cases chain : g.plan.chains.find? c with
  | none => rfl
  | some ids => exact all c ids chain found

theorem orderAtCentral {c : String} (found : g.effectiveCentral = some c) :
    ∃ before after, g.plan.order = before ++ c :: after ∧ ∀ v, v ∈ before ↔ v ≠ c ∧ g.Leads v c := by
  refine ⟨(g.climb (sortedIds g.nodeIds) [.enter c]).left.filter (· ≠ c),
    (g.descent c).reached ++ (g.remainder c).reached,?_,fun v => ?_⟩
  · rw [orderParts found,ascent,List.append_assoc,List.append_assoc]
    rfl
  · rw [List.mem_filter,memLeft (effectiveCentralMem found)]
    simp [and_comm]

def centralLines (g : SelectionGraph) : List String :=
  ((g.effectiveCentral.bind g.node?).filter (·.path ≠ [])).toList.map (centralComment ·.name)

def FirstAsked (g : SelectionGraph) (full : Bool) (v : String) (t : Triple) : Prop :=
  (∃ e ∈ g.pathEmissions full v, e.triple = t) ∧
    (g.draftAfter full (g.plan.order.takeWhile (· ≠ v))).records.contains t = false

end SelectionGraph

variable {g : SelectionGraph} {full : Bool} {p : SelectPattern}

theorem emissionsAfter {before after : List String} (whole : g.plan.order = before ++ after) :
    (g.draftAfter full before).log.entries = before.flatMap (g.pathEmissions full) := by
  have once : (before ++ after).Nodup := whole ▸ SelectionGraph.orderNodup g
  obtain ⟨along,drawn⟩ := drawnAfter g full (List.nodup_append.mp once).1
  obtain ⟨all,done,kept⟩ := drawnEmitNodes drawn once
  have same : after.foldl Draft.emitNode (g.draftAfter full before) = (Draft.start g full).emitAll := by
    have order : (Draft.start g full).plan.order = before ++ after := whole
    rw [Draft.emitAll,order,List.foldl_append]
    rfl
  rw [same,← whole] at done
  rw [drawn.entries]
  exact flatMapCongr fun v there => (kept v there).symm.trans (congrFun (alongEmissions done) v)

theorem firstAskedIff {before after : List String} {v : String} (whole : g.plan.order = before ++ v :: after)
    (fresh : v ∉ before) {t : Triple} : g.FirstAsked full v t ↔
      (∃ e ∈ g.pathEmissions full v, e.triple = t) ∧ ∀ w ∈ before, ∀ e ∈ g.pathEmissions full w, e.triple ≠ t := by
  have earlier : g.plan.order.takeWhile (· ≠ v) = before := by
    rw [whole,List.takeWhile_append_of_pos (fun w there => by simpa using ne_of_mem_of_not_mem there fresh)]
    simp
  refine and_congr_right fun _ => ?_
  rw [earlier,← Bool.not_eq_true,SelectionGraph.draftAfter,
    (grownEmitNodes (grownStart g full) before).recorded,← SelectionGraph.draftAfter,emissionsAfter whole]
  simp only [List.mem_flatMap]
  grind

theorem markersOnce {p : Pattern} (distinct : (p.emissions.map (·.id)).Nodup) {e : Emission} (member : e ∈ p.emissions)
    {text : String} (central : p.central = some ⟨e.id,text⟩) : p.emissions.filterMap p.markerAt = [text] := by
  have own : p.markerAt e = some text := by simp [Pattern.markerAt,central]
  obtain ⟨front,back,all⟩ := List.append_of_mem member
  rw [all,List.map_append,List.map_cons,List.nodup_append,List.nodup_cons] at distinct
  obtain ⟨_,⟨later,_⟩,apart⟩ := distinct
  have others : ∀ f ∈ front ++ back, p.markerAt f = none := by
    intro f there
    have other : e.id ≠ f.id := by
      rcases List.mem_append.mp there with before | after
      · exact (apart f.id (List.mem_map.mpr ⟨f,before,rfl⟩) e.id (by simp)).symm
      · exact fun same => later (List.mem_map.mpr ⟨f,after,same.symm⟩)
    simp [Pattern.markerAt,central,other]
  obtain ⟨before,after⟩ := List.forall_mem_append.mp others
  rw [all,List.filterMap_append,List.filterMap_cons_some own,List.filterMap_eq_nil_iff.mpr before,
    List.filterMap_eq_nil_iff.mpr after,List.nil_append]

theorem recordedAll (made : g.pattern full = .ok p) : ∀ e ∈ p.emissions, p.records.contains e.triple = true :=
  fun e member => ((patternSourced made).recorded e.triple).mpr ⟨e,member,rfl⟩

variable {into : Blocks} {c : String} {n : SelectedNode}

theorem centralMarker (composed : Composed (Draft.start g full).emitAll (g.pathEmissions full) into p) :
    p.central = g.effectiveCentral.bind fun c => (g.pathEmissions full c).head?.map fun e =>
      ⟨e.id,centralComment (((g.node? c).map (·.name)).getD c)⟩ := by
  have drawn := drawnPaths g full
  have central : (Draft.start g full).emitAll.plan.central = g.effectiveCentral := congrArg TraversalPlan.central drawn.plan
  rw [composed.central,Draft.marker,central]
  refine congrArg (g.effectiveCentral.bind ·) (funext fun c => ?_)
  rw [drawn.firsts,Draft.nodeName,drawn.graph]
  cases (g.pathEmissions full c).head? <;> rfl

theorem centralFirst (composed : Composed (Draft.start g full).emitAll (g.pathEmissions full) into p)
    (found : g.effectiveCentral = some c) (node : g.node? c = some n) {first : Emission} {rest : List Emission}
    (emitted : g.pathEmissions full c = first :: rest) : p.central = some ⟨first.id,centralComment n.name⟩ := by
  rw [centralMarker composed,found,Option.bind_some,node,Option.map_some,Option.getD_some,emitted,List.head?_cons,
    Option.map_some]

theorem markersOfPattern (made : g.pattern full = .ok p) : p.emissions.filterMap p.markerAt = g.centralLines := by
  obtain ⟨into,composed⟩ := patternPaths made
  unfold SelectionGraph.centralLines
  cases found : g.effectiveCentral with
  | none =>
      have central : p.central = none := by rw [centralMarker composed,found,Option.bind_none]
      simp [Pattern.markerAt,central]
  | some c =>
      obtain ⟨n,node⟩ := SelectionGraph.nodeOfId (SelectionGraph.effectiveCentralMem found)
      rw [Option.bind_some,node,Option.filter_some]
      by_cases path : n.path = []
      · have pathless : g.pathEmissions full c = [] :=
          (drawnPaths g full).pathless c fun m other => Option.some.inj (node.symm.trans other) ▸ path
        have central : p.central = none := by
          rw [centralMarker composed,found,Option.bind_some,pathless,List.head?_nil,Option.map_none]
        simp [Pattern.markerAt,central,path]
      · obtain ⟨first,rest,emitted⟩ := pathBegins full node path
        have member : first ∈ p.emissions := by
          rw [composed.spliced.emissions]
          exact List.mem_flatMap.mpr ⟨c,SelectionGraph.memOrder.mpr (SelectionGraph.idOfNode node),by simp [emitted]⟩
        have central := centralFirst composed found node emitted
        rw [markersOnce (composed.ids.nodup_iff.mpr (idsDistinct _)) member central]
        simp [path]

def aheadOf (g : SelectionGraph) (full : Bool) (into : Blocks) (before : List String) (c : String) : List Emission :=
  before.flatMap (fun v => into v ++ g.pathEmissions full v) ++ into c

theorem memAhead {before : List String} (ahead : ∀ v, v ∈ before ↔ v ≠ c ∧ g.Leads v c) {e : Emission} :
    e ∈ aheadOf g full into before c ↔
      (∃ v, g.Leads v c ∧ e ∈ into v) ∨ ∃ v, v ≠ c ∧ g.Leads v c ∧ e ∈ g.pathEmissions full v := by
  simp only [aheadOf,List.mem_append,List.mem_flatMap,ahead]
  constructor
  · rintro (⟨v,⟨other,leads⟩,bridge | path⟩ | bridge)
    · exact .inl ⟨v,leads,bridge⟩
    · exact .inr ⟨v,other,leads,path⟩
    · exact .inl ⟨c,.refl,bridge⟩
  · rintro (⟨v,leads,bridge⟩ | ⟨v,other,leads,path⟩)
    · by_cases here : v = c
      · exact .inr (here ▸ bridge)
      · exact .inl ⟨v,⟨here,leads⟩,.inl bridge⟩
    · exact .inl ⟨v,⟨other,leads⟩,.inr path⟩

theorem joinedInto (spliced : Spliced g full p into) (v : String) (t : Triple) :
    (∃ e ∈ into v, e.triple = t) ↔ ∃ edge ∈ p.bridgesInto g v, p.Joins edge t := by
  constructor
  · rintro ⟨e,bridge,rfl⟩
    obtain ⟨edge,inside,_,joins⟩ := forallRight (spliced.bridges v) bridge
    exact ⟨edge,inside,joins⟩
  · rintro ⟨edge,inside,joins⟩
    obtain ⟨e,bridge,_,further⟩ := forallRight (spliced.bridges v).flip inside
    exact ⟨e,bridge,joinsOnce further joins⟩

theorem askedAhead (spliced : Spliced g full p into) {before : List String}
    (ahead : ∀ v, v ∈ before ↔ v ≠ c ∧ g.Leads v c) (t : Triple) :
    (∃ e ∈ aheadOf g full into before c, e.triple = t) ↔
      (∃ v, g.Leads v c ∧ ∃ edge ∈ p.bridgesInto g v, p.Joins edge t) ∨
        ∃ v, v ≠ c ∧ g.Leads v c ∧ ∃ e ∈ g.pathEmissions full v, e.triple = t := by
  simp only [← joinedInto spliced,memAhead ahead]
  constructor
  · rintro ⟨e,⟨v,leads,bridge⟩ | ⟨v,other,leads,path⟩,same⟩
    · exact .inl ⟨v,leads,e,bridge,same⟩
    · exact .inr ⟨v,other,leads,e,path,same⟩
  · rintro (⟨v,leads,e,bridge,same⟩ | ⟨v,other,leads,e,path,same⟩)
    · exact ⟨e,.inl ⟨v,leads,bridge⟩,same⟩
    · exact ⟨e,.inr ⟨v,other,leads,path⟩,same⟩

theorem firstAskedAhead (spliced : Spliced g full p into) {before : List String}
    (ahead : ∀ v, v ∈ before ↔ v ≠ c ∧ g.Leads v c) {t : Triple}
    (fresh : ∀ w ∈ before, ∀ e ∈ g.pathEmissions full w, e.triple ≠ t) :
    (∃ e ∈ aheadOf g full into before c, e.triple = t) ↔
      ∃ v, g.Leads v c ∧ ∃ edge ∈ p.bridgesInto g v, p.Joins edge t := by
  refine (askedAhead spliced ahead t).trans (or_iff_left ?_)
  rintro ⟨v,other,leads,e,path,same⟩
  exact fresh v ((ahead v).mpr ⟨other,leads⟩) e path same

theorem outsideAtCentral {blocks : Blocks} (blocked : Blocked g p blocks) (found : g.effectiveCentral = some c)
    {before after : List String} (order : p.order = before ++ c :: after) {t : Triple} (asks : p.Requests c t)
    (recorded : p.records.contains t = true) (first : ∀ u ∈ before, ∀ e ∈ blocks u, e.triple ≠ t) :
    p.WritesOutside t := by
  have ⟨e,member,_,same⟩ := asks
  refine writesOutsideIff.mpr ⟨⟨List.not_mem_nil,recorded,e,member,same⟩,?_⟩
  rw [firstRequester blocked order asks,SelectionGraph.centralFree found]
  rintro u there ⟨f,inside,owner,asked⟩
  exact first u there f (ownBlock blocked inside owner).2 asked

/-- The two parts of a body around the marker of the central node. No scope is open between them. In the first part
stands what the paths of the nodes above ask for, and the bridges into these nodes and into the central node. What
the path of the central node is the first to ask for stands in the second, outside all scopes, unless one of these
bridges asks for it too. -/
structure Parted (g : SelectionGraph) (full : Bool) (p : SelectPattern) (c : String) (front back : List Line) : Prop where
  shut : openAfter 0 front = some 0
  once : (writtenTriples (front ++ back)).Nodup
  ahead : ∀ t, t ∈ writtenTriples front ↔ (∃ v, g.Leads v c ∧ ∃ edge ∈ p.bridgesInto g v, p.Joins edge t) ∨
    ∃ v, v ≠ c ∧ g.Leads v c ∧ ∃ e ∈ g.pathEmissions full v, e.triple = t
  own : ∀ t, g.FirstAsked full c t → (t ∈ writtenTriples back ∧ p.WritesOutside t ↔
    ∀ v, g.Leads v c → ∀ edge ∈ p.bridgesInto g v, ¬ p.Joins edge t)

theorem patternParted (made : g.pattern full = .ok p) (found : g.effectiveCentral = some c)
    (node : g.node? c = some n) (path : n.path ≠ []) :
    ∃ front back, p.lines [] = front ++ .marker (centralComment n.name) :: back ∧ Parted g full p c front back := by
  obtain ⟨into,composed⟩ := patternPaths made
  have spliced := composed.spliced
  have blocked := composed.blocked
  obtain ⟨before,after,whole,ahead⟩ := SelectionGraph.orderAtCentral found
  have order : p.order = before ++ c :: after := blocked.order.trans whole
  obtain ⟨first,rest,emitted⟩ := pathBegins full node path
  have all : p.emissions = aheadOf g full into before c ++
      first :: (rest ++ after.flatMap fun v => into v ++ g.pathEmissions full v) := by
    rw [spliced.emissions,whole,List.flatMap_append,List.flatMap_cons,emitted,aheadOf]
    simp
  have recorded := recordedAll made
  have marked : p.markerAt first = some (centralComment n.name) := by
    simp [Pattern.markerAt,centralFirst composed found node emitted]
  have free : p.chainOf first = [] :=
    (ownChain blocked (List.mem_append_right _ (emitted ▸ List.mem_cons_self))).trans (SelectionGraph.centralFree found)
  obtain ⟨front,back,lines,shut,written⟩ := Pattern.partedAt all (recorded first (by simp [all])) marked free
  have awaited : ∀ t, t ∈ writtenTriples front ↔ ∃ e ∈ aheadOf g full into before c, e.triple = t := by
    refine fun t => (written t).trans ⟨fun ⟨_,_,asked⟩ => asked,?_⟩
    rintro ⟨e,member,rfl⟩
    exact ⟨List.not_mem_nil,recorded e (all ▸ List.mem_append_left _ member),e,member,rfl⟩
  have total : writtenTriples (p.lines []) = writtenTriples (front ++ back) := by
    rw [lines,writtenAppend,writtenAppend]
    rfl
  have once : (writtenTriples (front ++ back)).Nodup := total ▸ writtenOnce _ _
  refine ⟨front,back,lines,shut,once,fun t => (awaited t).trans (askedAhead spliced ahead t),fun t asked => ?_⟩
  obtain ⟨⟨e,own,rfl⟩,fresh⟩ := (firstAskedIff whole fun there => ((ahead c).mp there).1 rfl).mp asked
  have bridged := (awaited e.triple).trans (firstAskedAhead spliced ahead fresh)
  have member : e ∈ p.emissions := by
    rw [blocked.emissions,order]
    exact List.mem_flatMap.mpr ⟨c,by simp,List.mem_append_right _ own⟩
  have there : e.triple ∈ writtenTriples (front ++ back) :=
    total ▸ (p.toPattern.writtenLines [] _).mpr ⟨List.not_mem_nil,recorded e member,e,member,rfl⟩
  rw [writtenAppend,List.mem_append] at there
  rw [writtenAppend,List.nodup_append] at once
  constructor
  · rintro ⟨below,_⟩ v leads edge inside joins
    exact once.2.2 _ (bridged.mpr ⟨v,leads,edge,inside,joins⟩) _ below rfl
  · intro loose
    have apart : e.triple ∉ writtenTriples front := fun above => by
      obtain ⟨v,leads,edge,inside,joins⟩ := bridged.mp above
      exact loose v leads edge inside joins
    have owner : e.owner = some c := blocked.owned c e (List.mem_append_right _ own)
    refine ⟨there.resolve_left apart,outsideAtCentral blocked found order ⟨e,member,owner,rfl⟩ (recorded e member) ?_⟩
    exact fun u before f inside same => apart ((awaited _).mpr ⟨f,List.mem_append_left _
      (List.mem_flatMap.mpr ⟨u,before,inside⟩),same⟩)

theorem marginOfPattern (made : g.pattern full = .ok p) (namespaces : NamespaceTable) :
    (p.bodyLines namespaces).filter (·.head? = some '#') = g.centralLines.map String.toList := by
  have markers : (p.lines []).filterMap Line.marker? = g.centralLines :=
    (Pattern.markersFrom [] [] (recordedAll made)).trans (markersOfPattern made)
  obtain ⟨requests,requested⟩ := patternRequested made
  have above : ∀ e ∈ p.emissions, 0 ≤ e.depth := by
    intro e member
    obtain ⟨i,inside,rfl⟩ := List.mem_mapIdx.mp (requested.mem_iff.mp member)
    exact le_max_left 0 _
  have level : ∀ line ∈ p.lines [], line.IsLevel := Pattern.levelFrom (fun _ none => nomatch none) above
  rw [Pattern.bodyLines,marginLines namespaces level,markers]
  rw [markers]
  intro text member
  obtain ⟨n,_,rfl⟩ := List.mem_map.mp member
  exact centralOpens n.name

/-- The marker is the only line at the margin with a hash, and is there just if the central node has a path. It parts
the body: no scope is open, what the paths of the nodes above ask for is written before, and what the path of the
central node is the first to ask for after it, outside all scopes, but for what is asked for by a bridge into the
central node or into one above it: a bridge stands in front of the path that it leads to. -/
theorem centralParts (g : SelectionGraph) (full : Bool) :
    ((∃ p, g.pattern full = .ok p) ↔ ∀ e ∈ g.internalEdges, e.bridgeFault? = none) ∧
    ∀ p, g.pattern full = .ok p →
      (∀ namespaces, (p.bodyLines namespaces).filter (·.head? = some '#') = g.centralLines.map String.toList) ∧
      ∀ c n, g.effectiveCentral = some c → g.node? c = some n → n.path ≠ [] →
        ∃ front back, p.lines [] = front ++ .marker (centralComment n.name) :: back ∧ Parted g full p c front back :=
  ⟨patternMadeIff full,fun _ made => ⟨marginOfPattern made,fun _ _ found node path => patternParted made found node path⟩⟩

def bridgedPath : SelectionGraph :=
  { nodes := [fieldNode "s" ["urn:A"] false,fieldNode "c" ["urn:A","urn:p","urn:B"] false]
    edges := [⟨"s","c",.text "urn:p",false⟩]
    central := some "c"
    count := [] }

theorem bridgedPathAhead : bridgedPath.effectiveCentral = some "c" ∧
    bridgedPath.FirstAsked false "c" (linkTriple "s_root" "urn:p" "c_node") ∧
    ∃ p front back, bridgedPath.pattern false = .ok p ∧ p.lines [] = front ++ .marker (centralComment "c") :: back ∧
      linkTriple "s_root" "urn:p" "c_node" ∈ writtenTriples front ∧
      linkTriple "s_root" "urn:p" "c_node" ∉ writtenTriples back := by
  have evaluated : (bridgedPath.pattern false).map (·.lines []) =
      .ok ([.triple 0 (typeTriple "s_root" "urn:A"),.blank,.note 1 "# s <<- c",
        .triple 1 (linkTriple "s_root" "urn:p" "c_node"),.blank] ++
          .marker (centralComment "c") :: [.triple 1 (typeTriple "c_node" "urn:B")]) := by decide +kernel
  obtain ⟨p,made,lines⟩ := mapOk evaluated
  have first : bridgedPath.FirstAsked false "c" (linkTriple "s_root" "urn:p" "c_node") :=
    ⟨by decide +kernel,by decide +kernel⟩
  exact ⟨by decide +kernel,first,p,_,_,made,lines,by decide +kernel,by decide +kernel⟩

end PathQuery
