import PathQuery.Proofs.Pattern.Allocation

/-! What a run of calls for names is answered with. Two calls get the same name just when they have the same key,
and the first call for a key finds its name after no more failed tries than there are calls before it. -/
namespace PathQuery.Names

structure Call (κ : Type) where
  key : κ
  wish : String
  suffix : String

variable {κ : Type}

def Call.tries (call : Call κ) : Nat → String := numbered call.wish ("_" ++ call.suffix ++ "_")

def Call.Settles (call : Call κ) (taken : List String) (name : String) : Prop :=
  ∃ n ≤ taken.length, call.tries n = name ∧ name ∉ taken ∧ ∀ m < n, call.tries m ∈ taken

theorem freshSettles (names : Names κ) (call : Call κ) :
    call.Settles names.given.values (names.fresh call.wish call.suffix) := by
  have once : ∀ i j name, (call.tries i == name) = true → (call.tries j == name) = true → i = j :=
    fun i j name here there => numberedInjective ((beq_iff_eq.mp here).trans (beq_iff_eq.mp there).symm)
  obtain ⟨n,_,soon,found,_,before⟩ := firstFreeUnblocked (fun a b => a == b) call.tries once 0 names.given.values
  rw [Nat.zero_add] at soon
  refine ⟨n,soon,found.symm,freshIsNew names call.wish call.suffix,?_⟩
  intro m sooner
  obtain ⟨name,there,same⟩ := before m (Nat.zero_le m) sooner
  exact beq_iff_eq.mp same ▸ there

theorem settlesLonger {call : Call κ} {taken longer : List String} {name : String}
    (settles : call.Settles taken name) (same : ∀ x, x ∈ longer ↔ x ∈ taken) (more : taken.length ≤ longer.length) :
    call.Settles longer name := by
  obtain ⟨n,soon,tried,free,failed⟩ := settles
  exact ⟨n,Nat.le_trans soon more,tried,fun there => free ((same name).mp there),
    fun m sooner => (same _).mpr (failed m sooner)⟩

variable [DecidableEq κ]

def answers : Names κ → List (Call κ) → List (Call κ × String)
  | _, [] => []
  | names, call :: rest =>
      let (name,after) := names.name call.key call.wish call.suffix
      (call,name) :: after.answers rest

theorem answersCalls (names : Names κ) (calls : List (Call κ)) : (names.answers calls).map Prod.fst = calls := by
  induction calls generalizing names with
  | nil => rfl
  | cons call rest ih => exact congrArg (call :: ·) (ih _)

structure Remembers (names : Names κ) (told : List (Call κ × String)) : Prop where
  entries : names.given.entries.Sublist (told.map fun a => (a.1.key,a.2))
  found : ∀ a ∈ told, names.given.find? a.1.key = some a.2
  apart : names.Apart

variable {names : Names κ} {told : List (Call κ × String)}

theorem remembersEmpty : Remembers (empty : Names κ) [] := ⟨.slnil,nofun,apartEmpty⟩

theorem remembersStep (kept : Remembers names told) (call : Call κ) {name : String} {after : Names κ}
    (named : names.name call.key call.wish call.suffix = (name,after)) : Remembers after (told ++ [(call,name)]) := by
  have gives := nameGives named
  refine ⟨?_,?_,gives.apart kept.apart⟩
  · rw [List.map_append]
    unfold Names.name at named
    split at named
    · cases named
      exact kept.entries.trans (List.sublist_append_left _ _)
    · next absent =>
      cases named
      have unknown : call.key ∉ names.given.entries.map Prod.fst := by
        rw [← Table.lookupIsSome,show Table.lookup call.key names.given.entries = none from absent]
        decide
      rw [Table.insert,Table.putFresh unknown]
      exact kept.entries.append (List.Sublist.refl _)
  · intro a member
    rcases List.mem_append.mp member with old | new
    · exact gives.keeps _ _ (kept.found a old)
    · rw [List.mem_singleton.mp new]
      exact gives.given

theorem firstSettles (kept : Remembers names told) {call : Call κ} (first : ∀ a ∈ told, a.1.key ≠ call.key)
    {name : String} {after : Names κ} (named : names.name call.key call.wish call.suffix = (name,after)) :
    call.Settles (told.map Prod.snd) name := by
  have values : names.given.values.Sublist (told.map Prod.snd) := by
    have seconds := kept.entries.map Prod.snd
    rwa [List.map_map] at seconds
  have taken : ∀ x, x ∈ told.map Prod.snd ↔ x ∈ names.given.values := by
    intro x
    constructor
    · intro there
      obtain ⟨a,member,rfl⟩ := List.mem_map.mp there
      exact Table.findValue (kept.found a member)
    · exact fun there => values.subset there
  unfold Names.name at named
  split at named
  · -- A key with a name was asked for before.
    next old found =>
    obtain ⟨a,member,same⟩ := List.mem_map.mp (kept.entries.subset (Table.findMem found))
    exact absurd (congrArg Prod.fst same) (first a member)
  · cases named
    exact settlesLonger (freshSettles names call) taken values.length_le

theorem remembersRun (kept : Remembers names told) (calls : List (Call κ)) :
    (∃ after, Remembers after (told ++ names.answers calls)) ∧
    ∀ before call name later, names.answers calls = before ++ (call,name) :: later →
      (∀ a ∈ told ++ before, a.1.key ≠ call.key) → call.Settles ((told ++ before).map Prod.snd) name := by
  -- A call that is first for its key is so among all that is told, not only among the calls from here on.
  induction calls generalizing names told with
  | nil =>
      refine ⟨⟨names,by rwa [answers,List.append_nil]⟩,?_⟩
      intro before call name later parts
      exact absurd parts.symm (by simp [answers])
  | cons head rest ih =>
      rcases named : names.name head.key head.wish head.suffix with ⟨x,next⟩
      have parted : names.answers (head :: rest) = (head,x) :: next.answers rest := by
        rw [answers,named]
      obtain ⟨⟨after,known⟩,settles⟩ := ih (remembersStep kept head named)
      rw [parted]
      refine ⟨⟨after,by rwa [List.append_cons]⟩,?_⟩
      intro before call name later parts first
      cases before with
      | nil =>
          obtain ⟨⟨rfl,rfl⟩,_⟩ := List.cons.inj parts
          rw [List.append_nil] at first ⊢
          exact firstSettles kept first named
      | cons a before =>
          obtain ⟨rfl,rests⟩ := List.cons.inj parts
          rw [List.append_cons] at first ⊢
          exact settles before call name later rests first

/-- Each call of a run is answered. Calls have one answer just when they have one key, whatever they wish for, and
the first call for a key has its search come to an end at the first try that no answer before it took. -/
theorem namesSettled (calls : List (Call κ)) :
    let told := (empty : Names κ).answers calls
    told.map Prod.fst = calls ∧
    (∀ a ∈ told, ∀ b ∈ told, a.2 = b.2 ↔ a.1.key = b.1.key) ∧
    ∀ before call name later, told = before ++ (call,name) :: later →
      (∀ a ∈ before, a.1.key ≠ call.key) → call.Settles (before.map Prod.snd) name := by
  intro told
  obtain ⟨⟨after,known⟩,settles⟩ := remembersRun remembersEmpty calls
  refine ⟨answersCalls empty calls,?_,settles⟩
  intro a first b second
  have here := known.found a first
  have there := known.found b second
  constructor
  · intro same
    exact known.apart _ _ _ here (same ▸ there)
  · intro same
    rw [same,there] at here
    exact (Option.some.inj here).symm

example : ((empty : Names Nat).answers
    [⟨0,"x","root"⟩,⟨1,"x","root"⟩,⟨2,"x_root_2","root"⟩,⟨0,"y","root"⟩]).map Prod.snd =
      ["x","x_root_2","x_root_2_root_2","x"] := by decide +kernel

end PathQuery.Names
