import PathQuery.Proofs.Pattern.Entries
import PathQuery.Proofs.Pattern.Sharing

/-! The triples along a path spell the path. From them the path can be read back, but for the carets before
classes: no two variables next to each other are one, so that each link shows which way it goes. -/
namespace PathQuery

inductive Onward : String → List String → List Triple → String → Prop where
  | here {x : String} : Onward x [] [] x
  | value {x y predicate : String} (apart : x ≠ y) : Onward x [predicate] [linkTriple x predicate y] y
  | step {x y last predicate cls : String} {rest : List String} {triples : List Triple} (apart : x ≠ y)
      (further : Onward y rest triples last) : Onward x (predicate :: cls :: rest)
        (linkTriple x predicate y :: typeTriple y (classIri cls) :: triples) last

inductive Spells : List String → List Triple → String → Prop where
  | root {x last cls : String} {rest : List String} {triples : List Triple} (further : Onward x rest triples last) :
      Spells (cls :: rest) (typeTriple x (classIri cls) :: triples) last

def Triple.linkFrom? (x : String) (t : Triple) : Option (String × String) :=
  match t.subject,t.predicate,t.object with
  | .var s,.iri predicate,.var o =>
      if s = x then some (predicate,o) else if o = x then some ("^" ++ predicate,s) else none
  | _,_,_ => none

def Triple.typing? (t : Triple) : Option (String × String) :=
  match t.subject,t.predicate,t.object with
  | .var x,.iri predicate,.iri cls => if predicate = rdfType then some (x,cls) else none
  | _,_,_ => none

def readOnward (x : String) : List Triple → Option (List String × String)
  | [] => some ([],x)
  | [link] => do
      let (predicate,y) ← link.linkFrom? x
      some ([predicate],y)
  | link :: type :: rest => do
      let (predicate,y) ← link.linkFrom? x
      let (z,cls) ← type.typing?
      let (tokens,last) ← readOnward y rest
      if z = y then some (predicate :: cls :: tokens,last) else none

def readPath : List Triple → Option (List String × String)
  | [] => none
  | type :: rest => do
      let (x,cls) ← type.typing?
      let (tokens,last) ← readOnward x rest
      some (cls :: tokens,last)

def plainOnward : List String → List String
  | [] => []
  | [predicate] => [predicate]
  | predicate :: cls :: rest => predicate :: classIri cls :: plainOnward rest

def plainPath : List String → List String
  | [] => []
  | cls :: rest => classIri cls :: plainOnward rest

variable {x y last : String} {path : List String} {triples : List Triple}

theorem splitInverseWhole (token : String) :
    token = if (splitInverse token).2 then "^" ++ (splitInverse token).1 else (splitInverse token).1 := by
  unfold splitInverse
  split
  · next rest caret =>
    have chars : token.toList = ("^" ++ String.ofList rest).toList := by simp [caret]
    exact String.toList_inj.mp chars
  · rfl

theorem linkRead (apart : x ≠ y) (token : String) : (linkTriple x token y).linkFrom? x = some (token,y) := by
  have whole := splitInverseWhole token
  unfold linkTriple
  generalize splitInverse token = parts at whole
  obtain ⟨predicate,inverse⟩ := parts
  cases inverse <;> cases whole
  · simp [Triple.linkFrom?]
  · simp [Triple.linkFrom?,apart.symm]

theorem typeRead (x cls : String) : (typeTriple x cls).typing? = some (x,cls) := by
  simp [typeTriple,Triple.typing?]

theorem onwardRead (onward : Onward x path triples last) : readOnward x triples = some (plainOnward path,last) := by
  induction onward with
  | here => rfl
  | value apart => simp [readOnward,linkRead apart,plainOnward]
  | step apart further ih => simp [readOnward,linkRead apart,typeRead,ih,plainOnward]

theorem spelledRead (spells : Spells path triples last) : readPath triples = some (plainPath path,last) := by
  cases spells with
  | root further => simp [readPath,typeRead,onwardRead further,plainPath]

namespace Walker

variable {w : Walker}

theorem stretchApart {before after : Names Stretch} {stop other : Stop} {behind tokens : List String}
    (apart : before.Apart) (known : before.given.find? (w.stretch other behind) = some x)
    (gives : before.Gives (w.stretch stop tokens) y after) (longer : behind.length < tokens.length) : x ≠ y := by
  refine Names.givesApart apart gives known fun same => ?_
  have lengths : behind.length = tokens.length := congrArg (List.length ∘ Stretch.tokens) same
  omega

theorem onwardSpells (w : Walker) (names : Names Stretch) (current : String) (behind : List String) (step : Nat)
    (ahead : List String) : ∀ stop tokens, names.Apart → names.given.find? (w.stretch stop tokens) = some current →
      tokens.length ≤ behind.length →
      Onward current ahead (w.onward names current behind step ahead).triples
        (w.onward names current behind step ahead).current := by
  -- The variable that the walk has come to is that of a stretch no longer than what lies behind.
  fun_induction Walker.onward w names current behind step ahead with
  | case1 names current behind step => exact fun _ _ _ _ _ => .here
  | case2 names current behind step predicate value after named =>
      intro stop tokens apart known short
      refine .value (stretchApart apart known (Names.nameGives named) ?_)
      rw [List.length_append,List.length_singleton]
      omega
  | case3 names current behind step predicate cls rest tokens wish next after named walk ih =>
      intro stop earlier apart known short
      have gives := Names.nameGives named
      have size : tokens.length = behind.length + 2 := by simp [tokens]
      have further := ih .inner tokens (gives.apart apart) gives.given (Nat.le_refl _)
      exact .step (stretchApart apart known gives (by omega)) further

theorem walkMade (w : Walker) (names : Names Stretch) (filled : path ≠ []) :
    ∃ walk, w.walk? names path = some walk := by
  cases path with
  | nil => contradiction
  | cons cls rest => exact ⟨_,rfl⟩

theorem walkSpells {names : Names Stretch} (apart : names.Apart) {walk : Walk}
    (walked : w.walk? names path = some walk) : Spells path walk.triples walk.current := by
  cases path with
  | nil => contradiction
  | cons cls rest =>
      rcases named : names.name (w.stretch .root [classIri cls]) (w.stem ++ "_root") "root" with ⟨root,after⟩
      have gives := Names.nameGives named
      simp only [walk?,named,Option.some.injEq] at walked
      subst walked
      exact .root (onwardSpells w after root [cls] 1 rest .root [classIri cls] (gives.apart apart) gives.given
        (Nat.le_refl _))

end Walker

variable {g : SelectionGraph} {full : Bool} {d : Draft} {v : String} {n : SelectedNode} {p : SelectPattern}

def SelectionGraph.draftAfter (g : SelectionGraph) (full : Bool) (ids : List String) : Draft :=
  ids.foldl Draft.emitNode (Draft.start g full)

theorem emitNodesSelected {ids : List String} (apart : v ∉ ids) :
    (ids.foldl Draft.emitNode d).selected.find? v = d.selected.find? v := by
  induction ids generalizing d with
  | nil => rfl
  | cons w rest ih =>
      obtain ⟨other,later⟩ := not_or.mp (mt List.mem_cons.mpr apart)
      rw [List.foldl_cons,ih later]
      cases found : d.graph.node? w with
      | none => simp only [Draft.emitNode,found]
      | some n =>
          cases walked : (d.walkerOf w n).walk? d.names n.path with
          | none => simp only [Draft.emitNode,found,walked]
          | some walk => simp only [Draft.emitNode,found,walked,Table.findInsert,if_neg (Ne.symm other)]

theorem patternSelects (made : g.pattern full = .ok p) : p.selected = (Draft.start g full).emitAll.selected := by
  obtain ⟨along,drawn⟩ := drawnEmitAll g full
  obtain ⟨q,other,settled⟩ := patternSettled (soundMade made) full drawn.toLaid
  cases made.symm.trans other
  exact settled.selected

theorem emitAllTurns {before after : List String} (whole : g.plan.order = before ++ v :: after) :
    (Draft.start g full).emitAll = after.foldl Draft.emitNode ((g.draftAfter full before).emitNode v) := by
  have order : (Draft.start g full).plan.order = before ++ v :: after := whole
  rw [Draft.emitAll,order,List.foldl_append,List.foldl_cons]
  rfl

theorem patternTogether {before after : List String} (whole : g.plan.order = before ++ v :: after)
    {along : Blocks}
    (emitted : Drawn g full ((g.draftAfter full before).emitNode v) (before ++ [v]) (fun _ => []) along)
    (made : g.pattern full = .ok p) : ∃ front back, p.emissions = front ++ along v ++ back := by
  have order : before ++ [v] ++ after = g.plan.order := by rw [whole,List.append_assoc,List.singleton_append]
  obtain ⟨added,done,kept⟩ := drawnEmitNodes emitted (order ▸ SelectionGraph.orderNodup g)
  rw [order,← emitAllTurns whole] at done
  obtain ⟨d,into,drawn,rfl⟩ := patternFollows done made
  have block : added v = along v := kept v (by simp)
  refine ⟨before.flatMap (fun w => into w ++ added w) ++ into v,after.flatMap fun w => into w ++ added w,?_⟩
  have entries : d.finish.emissions = g.plan.order.flatMap fun w => into w ++ added w := drawn.entries
  rw [entries,whole,List.flatMap_append,List.flatMap_cons,block]
  simp only [List.append_assoc]

/-- When the turn of a node comes, a request is added for each token of its path, all of them for the node. The
triples asked for spell the path, from which it is read back, and their end is what is selected for the node. In
the finished pattern the requests still stand together. -/
theorem pathsSpelledOut (full : Bool) (found : g.node? v = some n) (path : n.path ≠ []) :
    ∃ before after emitted last, g.plan.order = before ++ v :: after ∧
      ((g.draftAfter full before).emitNode v).log.entries = (g.draftAfter full before).log.entries ++ emitted ∧
      emitted.length = n.path.length ∧ (∀ e ∈ emitted, e.owner = some v) ∧
      Spells n.path (emitted.map (·.triple)) last ∧
      readPath (emitted.map (·.triple)) = some (plainPath n.path,last) ∧
      ((g.draftAfter full before).emitNode v).selected.find? v = some last ∧
      ∀ p, g.pattern full = .ok p → p.selected.find? v = some last ∧
        ∃ front back, p.emissions = front ++ emitted ++ back := by
  have there : v ∈ g.plan.order := SelectionGraph.memOrder.mpr (SelectionGraph.idOfNode found)
  have once : g.plan.order.Nodup := SelectionGraph.orderNodup g
  obtain ⟨before,after,whole,notBefore,notAfter⟩ := splitAt there once
  have earlier : before.Nodup := (List.nodup_append.mp (whole ▸ once)).1
  obtain ⟨along,drawn,_⟩ : ∃ along, Drawn g full (g.draftAfter full before) before (fun _ => []) along ∧ _ :=
    drawnEmitNodes (drawnStart g full) earlier
  have atNode : (g.draftAfter full before).graph.node? v = some n := drawn.graph.symm ▸ found
  obtain ⟨walk,walked⟩ :=
    Walker.walkMade ((g.draftAfter full before).walkerOf v n) (g.draftAfter full before).names path
  have spells := Walker.walkSpells drawn.apart walked
  have emitted := drawnEmit drawn notBefore atNode walked
  have selected : ((g.draftAfter full before).emitNode v).selected.find? v = some walk.current := by
    simp only [Draft.emitNode,atNode,walked,Table.findInsert,if_pos]
  refine ⟨before,after,requested _ _ (some v) walk.triples,walk.current,whole,
    congrArg EmissionLog.entries (emittedLog atNode walked),?_,fun e member => requestedOwner member,?_,?_,selected,
    fun p made => ⟨?_,?_⟩⟩
  · rw [← List.length_map (·.triple),requestedTriples]
    exact (Walker.walkTraces walked).traces.length
  · rwa [requestedTriples]
  · rw [requestedTriples]
    exact spelledRead spells
  · rw [patternSelects made,emitAllTurns whole,emitNodesSelected notAfter,selected]
  · have together := patternTogether whole emitted made
    rwa [setBlockSame] at together

def turnedField : SelectionGraph :=
  { nodes := [fieldNode "c" ["urn:X"] false,fieldNode "m" ["^urn:X","^urn:p","urn:Y","urn:q"] false]
    edges := [⟨"c","m",.null,false⟩]
    central := some "c"
    count := [] }

theorem turnedFieldSpelledOut : ∃ p emitted last front back, turnedField.pattern false = .ok p ∧
    p.emissions = front ++ emitted ++ back ∧ emitted.length = 4 ∧
    readPath (emitted.map (·.triple)) = some (["urn:X","^urn:p","urn:Y","urn:q"],last) ∧
    p.selected.find? "m" = some last := by
  have found : turnedField.node? "m" = some (fieldNode "m" ["^urn:X","^urn:p","urn:Y","urn:q"] false) := by decide
  obtain ⟨p,made⟩ := patternMade (show turnedField.bridgeFault? = none by decide) false
  obtain ⟨_,_,emitted,last,_,_,length,_,_,read,_,finished⟩ := pathsSpelledOut false found (by decide)
  obtain ⟨selected,front,back,together⟩ := finished p made
  have plain : plainPath ["^urn:X","^urn:p","urn:Y","urn:q"] = ["urn:X","^urn:p","urn:Y","urn:q"] := by
    decide +kernel
  exact ⟨p,emitted,last,front,back,made,together,length,plain ▸ read,selected⟩

end PathQuery
