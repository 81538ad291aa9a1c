import PathQuery.Proofs.Query.Scope
import PathQuery.Proofs.Traversal.Chains
import PathQuery.Proofs.Traversal.Coverage

/-! A body played back line by line: only the innermost open scope is ever closed, none is left open, and
every triple that is asked for stands once, inside the scopes of the chain for which it was first asked. -/
namespace PathQuery

/-- Each triple with the ids of the scopes that are open around it, outermost first. There is none for
lines that close another scope than the innermost open one, or leave one open. -/
def replay (opened : List Scope) : List Line → Option (List (Triple × List String))
  | [] => if opened = [] then some [] else none
  | .opening scope :: rest => replay (opened ++ [scope]) rest
  | .closing scope :: rest =>
      if opened.getLast? = some scope then replay opened.dropLast rest else none
  | .triple _ t :: rest => (replay opened rest).map ((t,opened.map Scope.id) :: ·)
  | .blank :: rest => replay opened rest
  | .note _ _ :: rest => replay opened rest
  | .marker _ :: rest => replay opened rest

theorem replayOpenings (opened scopes : List Scope) (rest : List Line) :
    replay opened (scopes.map .opening ++ rest) = replay (opened ++ scopes) rest := by
  induction scopes generalizing opened with
  | nil => simp
  | cons scope more ih =>
      rw [List.map_cons,List.cons_append,replay,ih,List.append_assoc,List.singleton_append]

theorem replayClosings (opened scopes : List Scope) (rest : List Line) :
    replay (opened ++ scopes) (closings scopes ++ rest) = replay opened rest := by
  -- The scopes are closed from the last one on.
  suffices ∀ shut : List Scope,
      replay (opened ++ shut.reverse) (shut.map .closing ++ rest) = replay opened rest by
    simpa [closings] using this scopes.reverse
  intro shut
  induction shut with
  | nil => simp
  | cons last outer ih =>
      rw [List.reverse_cons,← List.append_assoc,List.map_cons,List.cons_append,replay,
        List.getLast?_concat,if_pos rfl,List.dropLast_concat,ih]

theorem replayLeaving (opened : List Scope) (chain : List String) (rest : List Line) :
    replay opened (leaving opened chain ++ rest) =
      replay (opened.take (sharedScopes opened chain)) rest := by
  have parts := List.take_append_drop (sharedScopes opened chain) opened
  calc replay opened (leaving opened chain ++ rest)
      = replay (opened.take (sharedScopes opened chain) ++ opened.drop (sharedScopes opened chain))
          (closings (opened.drop (sharedScopes opened chain)) ++ rest) := by rw [parts,leaving]
    _ = replay (opened.take (sharedScopes opened chain)) rest := replayClosings _ _ _

theorem sharedIds (opened : List Scope) (chain : List String) :
    (opened.take (sharedScopes opened chain)).map Scope.id = chain.take (sharedScopes opened chain) := by
  fun_induction sharedScopes opened chain with
  | case1 scope opened chain ih => simp [ih]
  | case2 => simp
  | case3 => simp

theorem followedIds (opened : List Scope) (chain : List String) (depth : Int) :
    (opened.take (sharedScopes opened chain) ++ entering opened chain depth).map Scope.id = chain := by
  rw [List.map_append,sharedIds,entering,List.map_map]
  simp [Function.comp_def]

theorem replayRename (names : Renaming) (opened : List Scope) (lines : List Line) :
    replay opened (lines.map (Line.rename names)) =
      (replay opened lines).map (List.map fun placed => (placed.1.rename names,placed.2)) := by
  induction lines generalizing opened with
  | nil =>
      simp only [List.map_nil,replay]
      split <;> rfl
  | cons line rest ih =>
      cases line with
      | closing scope =>
          simp only [List.map_cons,Line.rename,replay]
          split
          · exact ih _
          · rfl
      | triple depth t =>
          simp only [List.map_cons,Line.rename,replay,ih,Option.map_map]
          rfl
      | opening scope => exact ih _
      | blank => exact ih _
      | note depth text => exact ih _
      | marker text => exact ih _

theorem replaySolid (opened : List Scope) (lines : List Line) :
    replay opened (lines.filter Line.isSolid) = replay opened lines := by
  induction lines generalizing opened with
  | nil => rfl
  | cons line rest ih =>
      cases line with
      | closing scope =>
          rw [List.filter_cons_of_pos rfl,replay,replay,ih]
      | triple depth t =>
          rw [List.filter_cons_of_pos rfl,replay,replay,ih]
      | opening scope => exact ih _
      | blank => exact ih _
      | note depth text => exact ih _
      | marker text => exact ih _

theorem replayWritten {opened : List Scope} {lines : List Line} {placed : List (Triple × List String)}
    (played : replay opened lines = some placed) : writtenTriples lines = placed.map Prod.fst := by
  induction lines generalizing opened placed with
  | nil =>
      unfold replay at played
      split at played
      · cases played
        rfl
      · cases played
  | cons line rest ih =>
      cases line with
      | triple depth t =>
          obtain ⟨later,there,same⟩ := Option.map_eq_some_iff.mp played
          cases same
          exact congrArg (t :: ·) (ih there)
      | closing scope =>
          unfold replay at played
          split at played
          · exact ih played
          · cases played
      | opening scope => exact ih played
      | blank => exact ih played
      | note depth text => exact ih played
      | marker text => exact ih played

namespace Pattern

variable {p : Pattern}

theorem replayNotes (e : Emission) (opened : List Scope) (rest : List Line) :
    replay opened (p.notes e ++ rest) = replay opened rest := by
  unfold notes
  induction p.comments.findD e.id [] with
  | nil => rfl
  | cons text more ih => exact ih

theorem replayMarking (e : Emission) (opened : List Scope) (rest : List Line) :
    replay opened (p.marking e opened ++ rest) = replay (p.marked e opened) rest := by
  unfold marking marked
  cases p.markerAt e with
  | none => rfl
  | some comment =>
      simp only [List.append_assoc]
      exact replayLeaving opened (p.chainOf e) _

def awaited (p : Pattern) (known : List Triple) (emissions : List Emission) : List Triple :=
  ((emissions.map (·.triple)).filter fun t => p.records.contains t && !known.contains t).eraseDups

def firstChain (p : Pattern) (emissions : List Emission) (t : Triple) : List String :=
  ((emissions.find? fun e => e.triple = t).map p.chainOf).getD []

theorem memAwaited {known : List Triple} {emissions : List Emission} {t : Triple} :
    t ∈ p.awaited known emissions ↔ p.Awaits known emissions t := by
  simp only [awaited,Awaits,List.mem_eraseDups,List.mem_filter,List.mem_map,Bool.and_eq_true,
    Bool.not_eq_true',List.contains_eq_mem,decide_eq_false_iff_not]
  constructor
  · rintro ⟨asked,recorded,fresh⟩
    exact ⟨fresh,recorded,asked⟩
  · rintro ⟨fresh,recorded,asked⟩
    exact ⟨asked,recorded,fresh⟩

theorem awaitedSkip {known : List Triple} {e : Emission} {rest : List Emission}
    (idle : p.records.contains e.triple = false ∨ e.triple ∈ known) :
    p.awaited known (e :: rest) = p.awaited known rest := by
  unfold awaited
  rw [List.map_cons,List.filter_cons_of_neg]
  rcases idle with unrecorded | there
  · simp [unrecorded]
  · simp [there]

theorem awaitedTake {known : List Triple} {e : Emission} {rest : List Emission}
    (recorded : p.records.contains e.triple = true) (fresh : e.triple ∉ known) :
    p.awaited known (e :: rest) = e.triple :: p.awaited (e.triple :: known) rest := by
  unfold awaited
  rw [List.map_cons,List.filter_cons_of_pos (by simp [recorded,fresh]),List.eraseDups_cons,
    List.filter_filter]
  congr 3
  funext t
  by_cases same : t = e.triple <;> simp [same]

theorem firstChainOther {e : Emission} {rest : List Emission} {t : Triple} (other : e.triple ≠ t) :
    p.firstChain (e :: rest) t = p.firstChain rest t := by
  rw [firstChain,List.find?_cons_of_neg (by simpa using other)]
  rfl

theorem replayLinesFrom (opened : List Scope) (done : List Triple) (emissions : List Emission) :
    replay opened (p.linesFrom opened done emissions) =
      some ((p.awaited done emissions).map fun t => (t,p.firstChain emissions t)) := by
  induction emissions generalizing opened done with
  | nil =>
      have closed := replayClosings [] opened []
      rw [List.nil_append,List.append_nil] at closed
      simp [linesFrom,closed,replay,awaited]
  | cons e rest ih =>
      -- What is written later is asked for by another emission than this one.
      have later : ∀ {known : List Triple}, (∀ t, p.Awaits known rest t → e.triple ≠ t) →
          (p.awaited known rest).map (fun t => (t,p.firstChain rest t)) =
            (p.awaited known rest).map fun t => (t,p.firstChain (e :: rest) t) := by
        intro known other
        refine List.map_congr_left fun t member => ?_
        rw [firstChainOther (other t (memAwaited.mp member))]
      unfold linesFrom
      split
      · next recorded =>
        rw [List.append_assoc,replayNotes,replayMarking]
        split
        · next again =>
          have there : e.triple ∈ done := List.contains_iff_mem.mp again
          rw [ih,awaitedSkip (.inr there),later]
          rintro t ⟨fresh,_⟩ rfl
          exact fresh there
        · next new =>
          have fresh : e.triple ∉ done := fun there => new (List.contains_iff_mem.mpr there)
          rw [List.append_assoc,replayLeaving,replayOpenings,replay,followedIds,ih,
            awaitedTake recorded fresh,later]
          · simp [firstChain]
          · rintro t ⟨known,_⟩ rfl
            exact known List.mem_cons_self
      · next unrecorded =>
        rw [ih,awaitedSkip (.inl (by simpa using unrecorded)),later]
        rintro t ⟨_,recorded,_⟩ rfl
        exact unrecorded recorded

theorem replayLines (p : Pattern) (excluded : List Triple) :
    replay [] (p.lines excluded) =
      some ((p.awaited excluded p.emissions).map fun t => (t,p.firstChain p.emissions t)) :=
  replayLinesFrom [] excluded p.emissions

end Pattern

theorem writtenOnce (p : Pattern) (excluded : List Triple) : (writtenTriples (p.lines excluded)).Nodup := by
  rw [replayWritten (Pattern.replayLines _ _),List.map_map]
  exact (List.map_id _).symm ▸ eraseDupsNodup _

end PathQuery
