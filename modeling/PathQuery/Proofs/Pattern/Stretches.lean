import PathQuery.Pattern.Walk
import PathQuery.Proofs.Pattern.Allocation

/-! The variables along a path. Each place that has one stands for the stretch of the path up to it, and it
has the name that is given to that stretch. -/
namespace PathQuery

def HasVariable (path : List String) (i : Nat) : Prop := i < path.length ∧ (i % 2 = 0 ∨ i + 1 = path.length)

instance (path : List String) (i : Nat) : Decidable (HasVariable path i) := by
  unfold HasVariable; infer_instance

def stopAt (i : Nat) : Stop := if i = 0 then .root else if i % 2 = 0 then .inner else .value

def tokensUpTo (path : List String) (i : Nat) : List String :=
  if i = 0 then (path.take 1).map classIri else path.take (i + 1)

def Triple.endAt (i : Nat) (token : String) (t : Triple) : Option String :=
  if i % 2 = 0 ∨ (splitInverse token).2 = true then t.subject.name? else t.object.name?

def variableAt (path : List String) (triples : List Triple) (i : Nat) : Option String := do
  let token ← path[i]?
  let t ← triples[i]?
  t.endAt i token

theorem tokensUpToLength {path : List String} {i : Nat} (inside : i < path.length) :
    (tokensUpTo path i).length = i + 1 := by
  unfold tokensUpTo
  split
  · next first =>
    rw [List.length_map,List.length_take]
    omega
  · rw [List.length_take]
    omega

theorem tokensUpToAppend {behind : List String} {i : Nat} (inside : i < behind.length) (ahead : List String) :
    tokensUpTo (behind ++ ahead) i = tokensUpTo behind i := by
  unfold tokensUpTo
  split
  · next first => rw [List.take_append_of_le_length (by omega)]
  · rw [List.take_append_of_le_length (by omega)]

theorem linkFarEnd (i : Nat) (source token target : String) (link : i % 2 = 1) :
    (linkTriple source token target).endAt i token = some target := by
  have odd : ¬ i % 2 = 0 := by omega
  unfold linkTriple Triple.endAt
  rcases splitInverse token with ⟨iri,inverse⟩
  cases inverse <;> simp [odd,Term.name?]

theorem typeSubject (i : Nat) (name token : String) (iri : String) (cls : i % 2 = 0) :
    (typeTriple name iri).endAt i token = some name := by
  simp [Triple.endAt,typeTriple,cls,Term.name?]

namespace Walker

variable {w : Walker}

def stretchAt (w : Walker) (path : List String) (i : Nat) : Stretch :=
  w.stretch (stopAt i) (tokensUpTo path i)

theorem stretchAtAppend {behind : List String} {i : Nat} (inside : i < behind.length) (ahead : List String) :
    w.stretchAt (behind ++ ahead) i = w.stretchAt behind i := by
  rw [stretchAt,tokensUpToAppend inside,stretchAt]

theorem stretchAtEq {other : Walker} {first second : List String} {i j : Nat} (here : i < first.length)
    (there : j < second.length) : w.stretchAt first i = other.stretchAt second j ↔
      w.context = other.context ∧ w.owner = other.owner ∧ i = j ∧ tokensUpTo first i = tokensUpTo second j := by
  simp only [stretchAt,stretch,Stretch.mk.injEq]
  constructor
  · rintro ⟨context,_,tokens,owner⟩
    have lengths := congrArg List.length tokens
    rw [tokensUpToLength here,tokensUpToLength there] at lengths
    exact ⟨context,owner,by omega,tokens⟩
  · rintro ⟨context,owner,rfl,tokens⟩
    exact ⟨context,rfl,tokens,owner⟩

def Owns (w : Walker) (names : Names Stretch) (x : String) : Prop :=
  ∃ stretch, stretch.context = w.context ∧ stretch.owner = w.owner ∧ names.given.find? stretch = some x

theorem ownsKept {before after : Names Stretch} (keeps : Names.Keeps before after) {x : String}
    (owns : w.Owns before x) : w.Owns after x := by
  obtain ⟨stretch,context,owner,found⟩ := owns
  exact ⟨stretch,context,owner,keeps _ _ found⟩

structure Continues (w : Walker) (before : Names Stretch) (behind ahead : List String) (walk : Walk) :
    Prop where
  keeps : Names.Keeps before walk.names
  apart : before.Apart → walk.names.Apart
  length : walk.triples.length = ahead.length
  named : ∀ k, HasVariable (behind ++ ahead) (behind.length + k) → ∃ token t x,
    ahead[k]? = some token ∧ walk.triples[k]? = some t ∧ t.endAt (behind.length + k) token = some x ∧
      walk.names.given.find? (w.stretchAt (behind ++ ahead) (behind.length + k)) = some x
  last : walk.names.given.find?
    (w.stretchAt (behind ++ ahead) ((behind ++ ahead).length - 1)) = some walk.current
  own : ∀ t ∈ walk.triples, ∀ x ∈ t.varNames, w.Owns walk.names x

theorem linkOwn {names : Names Stretch} {source token target : String} (start : w.Owns names source)
    (stop : w.Owns names target) : ∀ x ∈ (linkTriple source token target).varNames, w.Owns names x := by
  intro x member
  rcases linkNames.mp member with rfl | rfl
  · exact start
  · exact stop

theorem typeOwn {names : Names Stretch} {name iri : String} (here : w.Owns names name) :
    ∀ x ∈ (typeTriple name iri).varNames, w.Owns names x := by
  intro x member
  have : x = name := by simpa [typeTriple,Triple.varNames,Triple.terms,Term.name?] using member
  exact this ▸ here

variable {names after : Names Stretch} {current next predicate cls : String} {behind ahead : List String}

theorem continuesEnd (here : names.given.find? (w.stretchAt behind (behind.length - 1)) = some current) :
    w.Continues names behind [] ⟨names,current,[]⟩ where
  keeps := fun _ _ found => found
  apart := id
  length := rfl
  named := by
    intro k place
    have inside := place.1
    rw [List.append_nil] at inside
    omega
  last := by rwa [List.append_nil]
  own := fun _ member => nomatch member

theorem valuePlace (odd : behind.length % 2 = 1) (predicate : String) :
    w.stretchAt (behind ++ [predicate]) behind.length = w.stretch .value (behind ++ [predicate]) := by
  have notFirst : behind.length ≠ 0 := by omega
  have whole : (behind ++ [predicate]).take (behind.length + 1) = behind ++ [predicate] :=
    List.take_of_length_le (by simp)
  simp [stretchAt,stopAt,tokensUpTo,notFirst,odd,whole]

theorem continuesValue (odd : behind.length % 2 = 1) (start : w.Owns names current)
    (gives : names.Gives (w.stretch .value (behind ++ [predicate])) next after) :
    w.Continues names behind [predicate] ⟨after,next,[linkTriple current predicate next]⟩ where
  keeps := gives.keeps
  apart := gives.apart
  length := rfl
  named := by
    intro k place
    have only : k = 0 := by
      have inside := place.1
      simp at inside
      omega
    subst only
    refine ⟨predicate,_,next,rfl,rfl,linkFarEnd _ _ _ _ odd,?_⟩
    rw [Nat.add_zero,valuePlace odd]
    exact gives.given
  last := by
    rw [List.length_append,List.length_singleton,Nat.add_sub_cancel,valuePlace odd]
    exact gives.given
  own := by
    intro t member
    rw [List.mem_singleton.mp member]
    exact linkOwn (ownsKept gives.keeps start) ⟨_,rfl,rfl,gives.given⟩

theorem classPlace (odd : behind.length % 2 = 1) (predicate cls : String) :
    w.stretchAt (behind ++ [predicate,cls]) (behind.length + 1) = w.stretch .inner (behind ++ [predicate,cls]) := by
  have even : (behind.length + 1) % 2 = 0 := by omega
  have whole : (behind ++ [predicate,cls]).take (behind.length + 1 + 1) = behind ++ [predicate,cls] :=
    List.take_of_length_le (by simp)
  simp [stretchAt,stopAt,tokensUpTo,even,whole]

theorem continuesClass (odd : behind.length % 2 = 1) (start : w.Owns names current)
    (gives : names.Gives (w.stretch .inner (behind ++ [predicate,cls])) next after) {walk : Walk}
    (further : w.Continues after (behind ++ [predicate,cls]) ahead walk) :
    w.Continues names behind (predicate :: cls :: ahead)
      { walk with
        triples := linkTriple current predicate next :: typeTriple next (classIri cls) :: walk.triples } := by
  have reached : w.Owns walk.names next := ownsKept further.keeps ⟨_,rfl,rfl,gives.given⟩
  have whole : behind ++ [predicate,cls] ++ ahead = behind ++ predicate :: cls :: ahead := by simp
  refine
    { keeps := Names.keepsTrans gives.keeps further.keeps
      apart := fun known => further.apart (gives.apart known)
      length := congrArg (· + 2) further.length
      named := ?_
      last := whole ▸ further.last
      own := ?_ }
  · intro k place
    match k with
    | 0 =>
        -- A link that does not end the path has no variable of its own.
        have ends := place.2
        simp at ends
        omega
    | 1 =>
        refine ⟨cls,_,next,rfl,rfl,typeSubject _ _ _ _ (by omega),further.keeps _ _ ?_⟩
        rw [← whole,stretchAtAppend (by simp),classPlace odd]
        exact gives.given
    | k + 2 =>
        have shift : (behind ++ [predicate,cls]).length + k = behind.length + (k + 2) := by
          simp only [List.length_append,List.length_cons,List.length_nil]
          omega
        have later := further.named k (by rwa [whole,shift])
        rwa [whole,shift] at later
  · intro t member
    rcases List.mem_cons.mp member with rfl | member
    · exact linkOwn (ownsKept (Names.keepsTrans gives.keeps further.keeps) start) reached
    · rcases List.mem_cons.mp member with rfl | member
      · exact typeOwn reached
      · exact further.own t member

theorem onwardContinues (w : Walker) (names : Names Stretch) (current : String) (behind : List String)
    (step : Nat) (ahead : List String) (odd : behind.length % 2 = 1)
    (here : names.given.find? (w.stretchAt behind (behind.length - 1)) = some current) :
    w.Continues names behind ahead (w.onward names current behind step ahead) := by
  have start : w.Owns names current := ⟨_,rfl,rfl,here⟩
  fun_induction Walker.onward w names current behind step ahead with
  | case1 names current behind step => exact continuesEnd here
  | case2 names current behind step predicate value after named =>
      exact continuesValue odd start (Names.nameGives named)
  | case3 names current behind step predicate cls rest tokens wish next after named walk ih =>
      have gives := Names.nameGives named
      have size : tokens.length = behind.length + 2 := by simp [tokens]
      have reached : after.given.find? (w.stretchAt tokens (tokens.length - 1)) = some next := by
        rw [size,show behind.length + 2 - 1 = behind.length + 1 by omega,classPlace odd]
        exact gives.given
      exact continuesClass odd start gives (ih (by omega) reached ⟨_,rfl,rfl,reached⟩)

structure Traces (w : Walker) (names : Names Stretch) (path : List String) (triples : List Triple) :
    Prop where
  length : triples.length = path.length
  named : ∀ i, HasVariable path i → ∃ x,
    variableAt path triples i = some x ∧ names.given.find? (w.stretchAt path i) = some x
  own : ∀ t ∈ triples, ∀ x ∈ t.varNames, w.Owns names x

theorem tracesKept {before after : Names Stretch} (keeps : Names.Keeps before after) {path : List String}
    {triples : List Triple} (traces : w.Traces before path triples) : w.Traces after path triples where
  length := traces.length
  named := by
    intro i has
    obtain ⟨x,here,found⟩ := traces.named i has
    exact ⟨x,here,keeps _ _ found⟩
  own := fun t member x inside => ownsKept keeps (traces.own t member x inside)

structure Walks (w : Walker) (before : Names Stretch) (path : List String) (walk : Walk) : Prop where
  keeps : Names.Keeps before walk.names
  apart : before.Apart → walk.names.Apart
  traces : w.Traces walk.names path walk.triples
  last : walk.names.given.find? (w.stretchAt path (path.length - 1)) = some walk.current

theorem walkTraces {names : Names Stretch} {path : List String} {walk : Walk}
    (walked : w.walk? names path = some walk) : w.Walks names path walk := by
  cases path with
  | nil => contradiction
  | cons cls rest =>
      rcases named : names.name (w.stretch .root [classIri cls]) (w.stem ++ "_root") "root" with ⟨root,after⟩
      have gives := Names.nameGives named
      simp only [walk?,named,Option.some.injEq] at walked
      subst walked
      obtain ⟨later,further,length,named,last,own⟩ := onwardContinues w after root [cls] 1 rest rfl gives.given
      refine ⟨Names.keepsTrans gives.keeps later,fun known => further (gives.apart known),
        ⟨congrArg (· + 1) length,?_,?_⟩,last⟩
      · intro i has
        match i with
        | 0 => exact ⟨root,typeSubject 0 root cls (classIri cls) rfl,later _ _ gives.given⟩
        | i + 1 =>
            have shift : [cls].length + i = i + 1 := Nat.add_comm 1 i
            obtain ⟨token,t,x,atToken,atTriple,ended,known⟩ := named i (shift ▸ has)
            rw [shift] at ended known
            refine ⟨x,?_,known⟩
            simp only [variableAt,List.getElem?_cons_succ,atToken,atTriple]
            exact ended
      · intro t member
        rcases List.mem_cons.mp member with rfl | member
        · exact typeOwn (ownsKept later ⟨_,rfl,rfl,gives.given⟩)
        · exact own t member

end Walker

end PathQuery
