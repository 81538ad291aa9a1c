import PathQuery.Proofs.Pattern.Entries
import PathQuery.Proofs.Pattern.Growth

/-! The names of a pattern's variables open with a small letter and end in one of four words, up to the number
behind it. Names that end in another word are free for other uses. -/
namespace PathQuery

def isTailChar (c : Char) : Bool := c.isDigit || c == '_'

def lastWord (s : List Char) : List Char := ((s.reverse.dropWhile isTailChar).takeWhile Char.isAlpha).reverse

theorem lastWordOf {word : List Char} (letters : word.all Char.isAlpha = true) (filled : word ≠ [])
    (front : List Char) {tail : List Char} (numbers : tail.all isTailChar = true) :
    lastWord (front ++ '_' :: word ++ tail) = word := by
  have backwards : (front ++ '_' :: word ++ tail).reverse =
      tail.reverse ++ (word.reverse ++ '_' :: front.reverse) := by simp
  have inside : ∀ c ∈ tail.reverse, isTailChar c = true := fun c member =>
    List.all_eq_true.mp numbers c (List.mem_reverse.mp member)
  have inWord : ∀ c ∈ word.reverse, c.isAlpha = true := fun c member =>
    List.all_eq_true.mp letters c (List.mem_reverse.mp member)
  have stop : Stops isTailChar (word.reverse ++ '_' :: front.reverse) := by
    intro c head
    rw [List.head?_append_of_ne_nil _ (by simpa using filled)] at head
    have letter := inWord c (List.mem_of_head? head)
    have other : c ≠ '_' := by
      rintro rfl
      contradiction
    have digit : c.isDigit = false := by
      rw [Bool.eq_false_iff]
      intro digit
      rw [letterCode] at letter
      rw [digitCode] at digit
      omega
    simp [isTailChar,digit,other]
  rw [lastWord,backwards,dropWhileRun inside stop,takeWhileRun inWord (stopsCons (by decide) _),
    List.reverse_reverse]

def nodeWords : List (List Char) := ["root".toList,"step".toList,"node".toList,"value".toList]

structure IsNodeName (s : List Char) : Prop where
  opens : s.head?.any Char.isLower = true
  ends : lastWord s ∈ nodeWords

def IsEnding (s : List Char) : Prop :=
  ∃ word ∈ nodeWords, ∃ tail : List Char, tail.all isTailChar = true ∧ s = word ++ tail

theorem headAppend {a : List Char} (opens : a.head?.any Char.isLower = true) (b : List Char) :
    (a ++ b).head?.any Char.isLower = true := by
  cases a with
  | nil => contradiction
  | cons c rest => exact opens

theorem nameEnding {front ending : List Char} (opens : front.head?.any Char.isLower = true)
    (ends : IsEnding ending) : IsNodeName (front ++ '_' :: ending) := by
  refine ⟨headAppend opens _,?_⟩
  obtain ⟨word,member,tail,numbers,rfl⟩ := ends
  have letters : ∀ w ∈ nodeWords, w.all Char.isAlpha = true ∧ w ≠ [] := by decide
  have last := lastWordOf (letters word member).1 (letters word member).2 front numbers
  rw [List.append_assoc,List.cons_append] at last
  rwa [last]

theorem digitsTail (n : Nat) : (Nat.toDigits 10 n).all isTailChar = true := by
  refine List.all_eq_true.mpr fun c member => ?_
  simp [isTailChar,Nat.isDigit_of_mem_toDigits (by decide) (by decide) member]

theorem numberTail (n : Nat) : (toString n).toList.all isTailChar = true := by
  rw [Nat.toString_eq_repr,Nat.toList_repr]
  exact digitsTail n

theorem endingWord (word : List Char) (member : word ∈ nodeWords) : IsEnding word :=
  ⟨word,member,[],rfl,(List.append_nil word).symm⟩

theorem endingNumber (word : List Char) (member : word ∈ nodeWords) (n : Nat) :
    IsEnding (word ++ '_' :: (toString n).toList) :=
  ⟨word,member,'_' :: (toString n).toList,by simpa [isTailChar] using numberTail n,rfl⟩

theorem endingMore {ending more : List Char} (ends : IsEnding ending) (numbers : more.all isTailChar = true) :
    IsEnding (ending ++ more) := by
  obtain ⟨word,member,tail,before,rfl⟩ := ends
  exact ⟨word,member,tail ++ more,by rw [List.all_append,before,numbers]; rfl,List.append_assoc _ _ _⟩

theorem stepEnding (step : Nat) : IsEnding (Walker.stepWord step).toList := by
  rw [Walker.stepWord,String.toList_append]
  exact endingNumber "step".toList (by decide) step

theorem nodeNameNumbered {wish suffix : String} (wished : IsNodeName wish.toList) (ends : IsEnding suffix.toList)
    (n : Nat) : IsNodeName (numbered wish ("_" ++ suffix ++ "_") n).toList := by
  cases n with
  | zero => exact wished
  | succ n =>
      have whole : (numbered wish ("_" ++ suffix ++ "_") (n + 1)).toList =
          wish.toList ++ '_' :: (suffix.toList ++ '_' :: (toString (n + 2)).toList) := by
        simp [numbered]
      rw [whole]
      exact nameEnding wished.opens (endingMore ends (by simpa [isTailChar] using numberTail (n + 2)))

def Table.NodeNames {κ : Type} (t : Table κ String) : Prop := ∀ name ∈ t.values, IsNodeName name.toList

variable {κ : Type} [DecidableEq κ]

theorem nodeNamesInsert {t : Table κ String} (names : t.NodeNames) {name : String}
    (here : IsNodeName name.toList) (key : κ) : (t.insert key name).NodeNames := by
  intro other member
  rcases Table.valuesInsert member with rfl | old
  · exact here
  · exact names other old

theorem nameIsNodeName {names : Names κ} (given : names.given.NodeNames) (key : κ) {wish suffix : String}
    (wished : IsNodeName wish.toList) (ends : IsEnding suffix.toList) :
    (names.name key wish suffix).2.given.NodeNames := by
  unfold Names.name
  split
  · exact given
  · refine nodeNamesInsert given ?_ key
    obtain ⟨n,found⟩ := firstFreeCandidate (fun a b => a == b) (numbered wish ("_" ++ suffix ++ "_")) 0
      names.given.values
    rw [Names.fresh,found]
    exact nodeNameNumbered wished ends n

theorem onwardNodeNames {w : Walker} (stem : w.stem.toList.head?.any Char.isLower = true)
    (selected : IsNodeName w.selected.toList) {names : Names Stretch} (given : names.given.NodeNames)
    (current : String) (behind : List String) (step : Nat) (ahead : List String) :
    (w.onward names current behind step ahead).names.given.NodeNames := by
  fun_induction Walker.onward w names current behind step ahead with
  | case1 => exact given
  | case2 names current behind step predicate value after named =>
      have further := nameIsNodeName given (w.stretch .value (behind ++ [predicate])) selected
        (endingWord "value".toList (by decide))
      rwa [named] at further
  | case3 names current behind step predicate cls rest tokens wish next after named walk ih =>
      have wished : IsNodeName wish.toList := by
        simp only [wish]
        split
        · exact selected
        · have whole : (w.stem ++ "_" ++ Walker.stepWord step).toList =
              w.stem.toList ++ '_' :: (Walker.stepWord step).toList := by simp
          rw [whole]
          exact nameEnding stem (stepEnding step)
      have further := nameIsNodeName given (w.stretch .inner tokens) wished (stepEnding step)
      rw [named] at further
      exact ih further

theorem walkNodeNames {w : Walker} (stem : w.stem.toList.head?.any Char.isLower = true)
    (selected : IsNodeName w.selected.toList) {names : Names Stretch} (given : names.given.NodeNames)
    {path : List String} {walk : Walk} (walked : w.walk? names path = some walk) : walk.names.given.NodeNames := by
  cases path with
  | nil => contradiction
  | cons cls rest =>
      cases Option.some.inj walked
      have wished : IsNodeName (w.stem ++ "_root").toList := by
        rw [String.toList_append]
        exact nameEnding stem (endingWord "root".toList (by decide))
      exact onwardNodeNames stem selected (nameIsNodeName given (w.stretch .root [classIri cls]) wished
        (endingWord "root".toList (by decide))) _ _ _ _

theorem stemOpens (node : SelectedNode) : (stemOf node).toList.head?.any Char.isLower = true :=
  (fragmentShape node.source).opens

theorem stemNode (node : SelectedNode) : IsNodeName (stemOf node ++ "_node").toList := by
  rw [String.toList_append]
  exact nameEnding (stemOpens node) (endingWord "node".toList (by decide))

theorem wishesNodeNames (g : SelectionGraph) (order : List String) : (g.wishes order).NodeNames := by
  have each : ∀ seen, ∀ entry ∈ wishesFrom g seen order, IsNodeName entry.2.toList := by
    intro seen
    fun_induction wishesFrom g seen order with
    | case1 => simp
    | case2 seen id rest absent ih => exact ih
    | case3 seen id rest node found stem before wish ih =>
        intro entry member
        rcases List.mem_cons.mp member with rfl | member
        · simp only [wish]
          split
          · exact stemNode node
          · have whole : (stem ++ "_node_" ++ toString (before + 1)).toList =
                (stemOf node).toList ++ '_' :: ("node".toList ++ '_' :: (toString (before + 1)).toList) := by
              simp [stem]
            rw [whole]
            exact nameEnding (stemOpens node) (endingNumber "node".toList (by decide) _)
        · exact ih entry member
  intro name member
  obtain ⟨entry,there,rfl⟩ := Table.valuesOfList member
  exact each [] entry there

structure NodeNamed (d : Draft) : Prop where
  wishes : d.wishes.NodeNames
  given : d.names.given.NodeNames
  selected : d.selected.NodeNames
  asked : ∀ t, d.records.contains t = true → ∀ x ∈ t.varNames, IsNodeName x.toList

variable {g : SelectionGraph} {d : Draft}

theorem nodeNamedRequest (named : NodeNamed d) {t : Triple} (fit : ∀ x ∈ t.varNames, IsNodeName x.toList)
    (depth : Int) (owner : Option String) : NodeNamed (d.request t depth owner).2 :=
  { named with
    asked := by
      intro other recorded
      rw [Draft.request,Table.containsInsert,Bool.or_eq_true,decide_eq_true_eq] at recorded
      rcases recorded with rfl | old
      · exact fit
      · exact named.asked other old }

theorem nodeNamedEmit (named : NodeNamed d) (id : String) : NodeNamed (d.emitNode id) := by
  unfold Draft.emitNode
  split
  · exact named
  · next node found =>
    split
    · exact named
    · next walk walked =>
      have selected : IsNodeName (d.walkerOf id node).selected.toList := by
        simp only [Draft.walkerOf,Table.findD]
        cases wish : d.wishes.find? id with
        | none => exact stemNode node
        | some name => exact named.wishes name (Table.findValue wish)
      have given := walkNodeNames (w := d.walkerOf id node) (stemOpens node) selected named.given walked
      have walks := Walker.walkTraces walked
      obtain ⟨records,log,same⟩ := requestAllElse d walk.triples (d.depthOf id) (some id)
      have recorded : ∀ t, records.contains t = true ↔ t ∈ walk.triples ∨ d.records.contains t = true := by
        intro t
        rw [← requestAllRecords d walk.triples (d.depthOf id) (some id) t,same]
      rw [same]
      refine ⟨named.wishes,given,nodeNamesInsert named.selected ?_ id,?_⟩
      · exact given _ (Table.findValue walks.last)
      · intro t there x inside
        rcases (recorded t).mp there with new | old
        · obtain ⟨_,_,_,found⟩ := walks.traces.own t new x inside
          exact given x (Table.findValue found)
        · exact named.asked t old x inside

theorem nodeNamedBridge (named : NodeNamed d) (edge : SelectedEdge) : NodeNamed (d.bridge edge) := by
  unfold Draft.bridge
  split
  · next source target start stop =>
    have requested := nodeNamedRequest named (t := linkTriple source edge.bridgePredicate target)
      (fun x member => by
        rcases linkNames.mp member with rfl | rfl
        · exact named.selected _ (Table.findValue start)
        · exact named.selected _ (Table.findValue stop)) (d.depthOf edge.target) (some edge.target)
    simp only
    split <;> exact { requested with }
  · exact named

theorem nodeNamedAnnotate (named : NodeNamed d) {bridged : List (String × String)} {after : Draft}
    (done : d.annotate bridged = .ok after) : NodeNamed after := by
  obtain ⟨comments,rfl⟩ := annotateElse done
  exact { named with }

theorem patternNodeNamed {full : Bool} {p : SelectPattern} (made : g.pattern full = .ok p) :
    p.selected.NodeNames ∧ ∀ t ∈ p.records.keys, ∀ x ∈ t.varNames, IsNodeName x.toList := by
  have start : NodeNamed (Draft.start g full) :=
    ⟨wishesNodeNames g _,(fun _ none => nomatch none),(fun _ none => nomatch none),fun _ none => nomatch none⟩
  have emitted : NodeNamed (Draft.start g full).emitAll :=
    List.foldlRecOn _ Draft.emitNode start fun d named id _ => nodeNamedEmit named id
  have resolved : NodeNamed (Draft.start g full).emitAll.resolveBridges.1 :=
    List.foldlRecOn _ Draft.bridge emitted fun d named edge _ => nodeNamedBridge named edge
  obtain ⟨bridged,d,annotated,rfl⟩ := patternSteps made
  have named := nodeNamedAnnotate resolved annotated
  exact ⟨named.selected,fun t member => named.asked t (Table.containsIff.mpr member)⟩

end PathQuery
