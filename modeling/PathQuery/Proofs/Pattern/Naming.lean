import PathQuery.Pattern.Draft
import PathQuery.Proofs.Text.Fragment
import PathQuery.Query.Count

/-! Every name that is given out for a variable is a word, and every triple along a path takes its
classes and predicates from that path. -/
namespace PathQuery

theorem firstFreeCandidate (blocks : String → String → Bool) (candidate : Nat → String) (n : Nat)
    (taken : List String) : ∃ k, firstFree blocks candidate n taken = candidate k := by
  fun_induction firstFree blocks candidate n taken with
  | case1 n taken blocked ih => exact ih
  | case2 n taken free => exact ⟨n,rfl⟩

theorem numberedWord {wish joint : String} (word : IsWord wish.toList) (mark : IsWord joint.toList)
    (n : Nat) : IsWord (numbered wish joint n).toList := by
  cases n with
  | zero => exact word
  | succ n => exact nameAppend (nameAppend word mark) (numberWord (n + 2))

theorem uniqueAliasWord {base : String} (word : IsWord base.toList) (taken : List String) :
    IsWord (uniqueAlias base taken).toList := by
  obtain ⟨k,found⟩ := firstFreeCandidate aliasBlocks (numbered base "_") 0 taken
  rw [uniqueAlias,found]
  exact numberedWord word (by decide) k

def Table.Words {κ : Type} (t : Table κ String) : Prop := ∀ name ∈ t.values, IsWord name.toList

namespace Table

theorem wordsEmpty {κ : Type} : Words (empty : Table κ String) := fun _ member => nomatch member

variable {κ : Type} [DecidableEq κ]

theorem wordsInsert {t : Table κ String} (words : t.Words) {name : String} (word : IsWord name.toList)
    (key : κ) : (t.insert key name).Words := by
  intro other member
  rcases valuesInsert member with rfl | old
  · exact word
  · exact words other old

theorem wordsFind {t : Table κ String} (words : t.Words) {key : κ} {name : String}
    (found : t.find? key = some name) : IsWord name.toList := words name (findValue found)

end Table

theorem freshWord {κ : Type} [DecidableEq κ] (names : Names κ) {wish suffix : String}
    (word : IsWord wish.toList) (ending : IsWord suffix.toList) :
    IsWord (names.fresh wish suffix).toList := by
  obtain ⟨k,found⟩ := firstFreeCandidate (fun a b => a == b) (numbered wish ("_" ++ suffix ++ "_")) 0
    names.given.values
  rw [Names.fresh,found]
  exact numberedWord word (nameAppend (nameAppend (by decide) ending) (by decide)) k

theorem nameWord {κ : Type} [DecidableEq κ] {names : Names κ} (words : names.given.Words) (key : κ)
    {wish suffix : String} (word : IsWord wish.toList) (ending : IsWord suffix.toList) :
    IsWord (names.name key wish suffix).1.toList ∧ (names.name key wish suffix).2.given.Words := by
  unfold Names.name
  split
  · next name found => exact ⟨Table.wordsFind words found,words⟩
  · exact ⟨freshWord names word ending,Table.wordsInsert words (freshWord names word ending) key⟩

theorem evensCons {α : Type} (a : α) (rest : List α) : evens (a :: rest) = a :: odds rest := by
  cases rest <;> rfl

inductive WalkTriple (classes tokens : List String) : Triple → Prop where
  | kind {name cls : String} (word : IsWord name.toList) (member : cls ∈ classes) :
      WalkTriple classes tokens (typeTriple name (classIri cls))
  | link {source target token : String} (start : IsWord source.toList) (stop : IsWord target.toList)
      (member : token ∈ tokens) : WalkTriple classes tokens (linkTriple source token target)

theorem walkTripleMono {classes tokens wider more : List String} {t : Triple}
    (known : WalkTriple classes tokens t) (kinds : ∀ cls ∈ classes, cls ∈ wider)
    (links : ∀ token ∈ tokens, token ∈ more) : WalkTriple wider more t := by
  cases known with
  | kind word member => exact .kind word (kinds _ member)
  | link start stop member => exact .link start stop (links _ member)

structure Walker.Worded (w : Walker) : Prop where
  stem : IsWord w.stem.toList
  selected : IsWord w.selected.toList

structure Walk.Worded (walk : Walk) (classes tokens : List String) : Prop where
  names : walk.names.given.Words
  current : IsWord walk.current.toList
  triples : ∀ t ∈ walk.triples, WalkTriple classes tokens t

theorem stepWordWord (step : Nat) : IsWord (Walker.stepWord step).toList :=
  nameAppend (by decide) (numberWord step)

theorem onwardWorded {w : Walker} (worded : w.Worded) {names : Names Stretch} {current : String}
    (behind : List String) (step : Nat) {ahead : List String} (words : names.given.Words)
    (here : IsWord current.toList) :
    (w.onward names current behind step ahead).Worded (odds ahead) ahead := by
  fun_induction Walker.onward w names current behind step ahead with
  | case1 names current behind step => exact ⟨words,here,fun _ member => nomatch member⟩
  | case2 names current behind step predicate value names' given =>
      obtain ⟨stop,kept⟩ :=
        nameWord words (w.stretch .value (behind ++ [predicate])) worded.selected (by decide : IsWord "value".toList)
      rw [given] at stop kept
      refine ⟨kept,stop,?_⟩
      intro t member
      rw [List.mem_singleton.mp member]
      exact .link here stop (by simp)
  | case3 names current behind step predicate cls rest tokens wish next names' given walk ih =>
      have wished : IsWord wish.toList := by
        simp only [wish]
        split
        · exact worded.selected
        · exact nameAppend (nameAppend worded.stem (by decide)) (stepWordWord step)
      obtain ⟨stop,kept⟩ := nameWord words (w.stretch .inner tokens) wished (stepWordWord step)
      rw [given] at stop kept
      obtain ⟨last,end_,further⟩ := ih kept stop
      refine ⟨last,end_,?_⟩
      intro t member
      rcases List.mem_cons.mp member with rfl | member
      · exact .link here stop (by simp)
      · rcases List.mem_cons.mp member with rfl | member
        · exact .kind stop (by simp [odds,evensCons])
        · refine walkTripleMono (further t member) ?_ ?_
          · intro c there
            rw [odds,List.drop_one,List.tail_cons,evensCons]
            exact List.mem_cons_of_mem _ there
          · intro token there
            exact List.mem_cons_of_mem _ (List.mem_cons_of_mem _ there)

theorem walkWorded {w : Walker} (worded : w.Worded) {names : Names Stretch} {path : List String}
    {walk : Walk} (words : names.given.Words) (walked : w.walk? names path = some walk) :
    walk.Worded (evens path) path := by
  cases path with
  | nil => contradiction
  | cons cls rest =>
      cases Option.some.inj walked
      obtain ⟨start,kept⟩ := nameWord words (w.stretch .root [classIri cls])
        (nameAppend worded.stem (by decide : IsWord "_root".toList)) (by decide : IsWord "root".toList)
      obtain ⟨last,end_,further⟩ := onwardWorded worded [cls] 1 kept start
      refine ⟨last,end_,?_⟩
      intro t member
      rcases List.mem_cons.mp member with rfl | member
      · exact .kind start (by simp [evensCons])
      · refine walkTripleMono (further t member) ?_ ?_
        · intro c there
          rw [evensCons]
          exact List.mem_cons_of_mem _ there
        · exact fun token there => List.mem_cons_of_mem _ there

theorem onwardStops (w : Walker) (names : Names Stretch) (current : String) (behind : List String)
    (step : Nat) (ahead : List String) :
    (w.onward names current behind step ahead).current = current ∨
      ∃ t ∈ (w.onward names current behind step ahead).triples,
        (w.onward names current behind step ahead).current ∈ t.varNames := by
  fun_induction Walker.onward w names current behind step ahead with
  | case1 => exact .inl rfl
  | case2 names current behind step predicate value names' given =>
      exact .inr ⟨_,List.mem_singleton.mpr rfl,linkNames.mpr (.inr rfl)⟩
  | case3 names current behind step predicate cls rest tokens wish next names' given walk ih =>
      rcases ih with here | ⟨t,later,inside⟩
      · exact .inr ⟨linkTriple current predicate next,by simp,here ▸ linkNames.mpr (.inr rfl)⟩
      · exact .inr ⟨t,List.mem_cons_of_mem _ (List.mem_cons_of_mem _ later),inside⟩

theorem walkStops {w : Walker} {names : Names Stretch} {path : List String} {walk : Walk}
    (walked : w.walk? names path = some walk) : ∃ t ∈ walk.triples, walk.current ∈ t.varNames := by
  cases path with
  | nil => contradiction
  | cons cls rest =>
      cases Option.some.inj walked
      rcases onwardStops w (names.name (w.stretch .root [classIri cls]) (w.stem ++ "_root") "root").2
        (names.name (w.stretch .root [classIri cls]) (w.stem ++ "_root") "root").1 [cls] 1 rest with
        here | ⟨t,later,inside⟩
      · exact ⟨_,List.mem_cons_self,List.mem_singleton.mpr here⟩
      · exact ⟨t,List.mem_cons_of_mem _ later,inside⟩

theorem stemOfWord (node : SelectedNode) : IsWord (stemOf node).toList := fragmentWord node.source

theorem wishesFromWords (g : SelectionGraph) (seen order : List String) :
    ∀ entry ∈ wishesFrom g seen order, IsWord entry.2.toList := by
  fun_induction wishesFrom g seen order with
  | case1 => simp
  | case2 seen id rest absent ih => exact ih
  | case3 seen id rest node found stem before wish ih =>
      intro entry member
      rcases List.mem_cons.mp member with rfl | member
      · have word := stemOfWord node
        simp only [wish]
        split
        · exact nameAppend word (by decide)
        · exact nameAppend (nameAppend word (by decide)) (numberWord _)
      · exact ih entry member

theorem ofListWords {entries : List (String × String)}
    (words : ∀ entry ∈ entries, IsWord entry.2.toList) : (Table.ofList entries).Words := by
  intro name member
  obtain ⟨entry,there,rfl⟩ := Table.valuesOfList member
  exact words entry there

theorem wishesWords (g : SelectionGraph) (order : List String) : (g.wishes order).Words :=
  ofListWords (wishesFromWords g [] order)

theorem walkerWorded {d : Draft} (words : d.wishes.Words) (id : String) (node : SelectedNode) :
    (d.walkerOf id node).Worded := by
  refine ⟨stemOfWord node,?_⟩
  simp only [Draft.walkerOf,Table.findD]
  cases found : d.wishes.find? id with
  | none => exact nameAppend (stemOfWord node) (by decide)
  | some wish => exact Table.wordsFind words found

end PathQuery
