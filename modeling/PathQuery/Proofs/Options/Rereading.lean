import PathQuery.Proofs.Text.Lines

/-! Query options that are written and read again. All of them come back, unless the namespace table has a prefix or
an IRI that was a text of blanks: what is left of it when it is trimmed is turned down. -/
namespace PathQuery

namespace NamespaceEntry

def toValue (e : NamespaceEntry) : Value := .mapping [("prefix",.text e.label),("iri",.text e.iri)]

def filled (e : NamespaceEntry) : Bool := e.label ≠ "" && e.iri ≠ ""

structure Trimmed (e : NamespaceEntry) : Prop where
  label : Text.strip e.label = e.label
  iri : Text.strip e.iri = e.iri

instance (e : NamespaceEntry) : Decidable e.Trimmed :=
  decidable_of_iff (Text.strip e.label = e.label ∧ Text.strip e.iri = e.iri)
    ⟨fun both => ⟨both.1,both.2⟩,fun trimmed => ⟨trimmed.label,trimmed.iri⟩⟩

end NamespaceEntry

namespace NamespaceTable

theorem entryTrimmed {value : Value} {e : NamespaceEntry} (read : entryOf value = .ok e) : e.Trimmed := by
  obtain ⟨⟨label,iri⟩,_,read⟩ := bindOk.mp read
  simp only at read
  split at read
  · cases read
    exact ⟨stripAgain _,stripAgain _⟩
  · contradiction

theorem entryReread {e : NamespaceEntry} (trimmed : e.Trimmed) :
    entryOf e.toValue = if e.filled then .ok e else refuse (.namespaceIncomplete e.toValue) := by
  have read : entryOf e.toValue = if (Value.text e.label).holds && (Value.text e.iri).holds then
      .ok ⟨Text.strip e.label,Text.strip e.iri⟩ else refuse (.namespaceIncomplete e.toValue) := rfl
  rw [read,trimmed.label,trimmed.iri]
  simp [Value.holds,NamespaceEntry.filled]

theorem entriesReread {entries : List NamespaceEntry} (trimmed : ∀ e ∈ entries, e.Trimmed) :
    (entries.map NamespaceEntry.toValue).mapM entryOf = match entries.find? (fun e => !e.filled) with
      | none => .ok entries
      | some e => refuse (.namespaceIncomplete e.toValue) := by
  induction entries with
  | nil => rfl
  | cons e rest ih =>
      obtain ⟨here,later⟩ := List.forall_mem_cons.mp trimmed
      rw [List.map_cons,List.mapM_cons,entryReread here,ih later]
      cases whole : e.filled with
      | true =>
          rw [List.find?_cons_of_neg (by simp [whole])]
          cases rest.find? (fun e => !e.filled) <;> rfl
      | false =>
          rw [List.find?_cons_of_pos (by simp [whole])]
          rfl

theorem heldItems {value : Value} {items : List Value} (held : value.holds = true)
    (read : value.toItems = .ok items) : items ≠ [] := by
  cases value with
  | list _ => cases read; simpa [Value.holds] using held
  | text s => cases read; simpa [Value.holds] using held
  | mapping _ => cases read; simpa [Value.holds] using held
  | _ => contradiction

theorem tableReread {t : NamespaceTable} (trimmed : ∀ e ∈ t.entries, e.Trimmed) :
    NamespaceTable.ofValue t.toValue = match t.entries.find? (fun e => !e.filled) with
      | none => .ok t
      | some e => refuse (.namespaceIncomplete e.toValue) := by
  have read : NamespaceTable.ofValue t.toValue =
      (t.entries.map NamespaceEntry.toValue).mapM entryOf >>= fun entries => .ok ⟨entries⟩ := rfl
  rw [read,entriesReread trimmed]
  cases t.entries.find? (fun e => !e.filled) <;> rfl

structure Settled (t : NamespaceTable) : Prop where
  some : t.entries ≠ []
  trimmed : ∀ e ∈ t.entries, e.Trimmed

theorem tableSettled {value : Value} {t : NamespaceTable} (held : value.holds = true)
    (read : NamespaceTable.ofValue value = .ok t) : t.Settled := by
  obtain ⟨items,listed,read⟩ := bindOk.mp read
  obtain ⟨entries,each,same⟩ := bindOk.mp read
  cases same
  refine ⟨fun none => heldItems held listed ?_,fun e member => ?_⟩
  · exact List.eq_nil_of_length_eq_zero ((mapMEach each).length_eq.trans (congrArg List.length none))
  · obtain ⟨item,_,made⟩ := mapMOk each member
    exact entryTrimmed made

end NamespaceTable

namespace QueryOptions

def settings (o : QueryOptions) (table : NamespaceTable) : Settings :=
  ⟨o.includeZeroCounts,o.fullPrefixes,o.orderVariable,some o.orderDirection.label,
    Value.ofOption (fun n : Nat => .integer n) o.limit,table⟩

structure Settled (o : QueryOptions) : Prop where
  order : ∀ name ∈ o.orderVariable, IsWord name.toList
  limit : ∀ n ∈ o.limit, 0 < n
  namespaces : o.namespaces.Settled

theorem directionReread (d : OrderDirection) : directionOf (some d.label) = .ok d := by
  cases d <;> decide

theorem variableReread {name : String} (word : IsWord name.toList) : variableOf name = .ok (some name) := by
  have visible : ∀ c ∈ name.toList, Text.isBlank c = false := fun c member => wordCharVisible (word.2 c member)
  have marks : name.toList.dropWhile (· == '?') = name.toList := by
    obtain ⟨c,rest,same⟩ := List.exists_cons_of_ne_nil word.1
    have other : c ≠ '?' := fun mark => wordLacks word (by decide) (mark ▸ same ▸ List.mem_cons_self)
    rw [same,List.dropWhile_cons_of_neg (by simpa using other)]
  simp only [variableOf]
  rw [Text.trimOfVisible visible,marks,if_neg (by simpa using word.1),
    if_pos (List.all_eq_true.mpr word.2),String.ofList_toList]

theorem limitReread {limit : Option Nat} (positive : ∀ n ∈ limit, 0 < n) :
    limitOf (Value.ofOption (fun n : Nat => .integer n) limit) = .ok limit := by
  cases limit with
  | none => rfl
  | some n =>
      have some_ : 0 < n := positive n rfl
      simp [Value.ofOption,limitOf,Value.toInteger,some_]

theorem settingsReread {o : QueryOptions} (settled : o.Settled) (table : NamespaceTable) :
    ofSettings (o.settings table) = .ok { o with namespaces := table } := by
  have direction := directionReread o.orderDirection
  have limit := limitReread settled.limit
  obtain ⟨zero,full,name,_,_,_⟩ := o
  cases name with
  | none => simp [ofSettings,settings,direction,limit,bind,Except.bind]
  | some name =>
      have order := variableReread (settled.order name rfl)
      simp [ofSettings,settings,direction,order,limit,bind,Except.bind]

theorem writtenRead {o : QueryOptions} (some_ : o.namespaces.entries ≠ []) :
    QueryOptions.ofValue o.toValue =
      (NamespaceTable.ofValue o.namespaces.toValue).bind fun table => ofSettings (o.settings table) := by
  have held : o.namespaces.toValue.holds = true := by simpa [NamespaceTable.toValue,Value.holds] using some_
  have word : wordOf (Value.ofOption .text o.orderVariable) = o.orderVariable := by cases o.orderVariable <;> rfl
  have last : (o.settings .standard).set "namespaces" o.namespaces.toValue =
      (NamespaceTable.ofValue o.namespaces.toValue).bind fun table => .ok (o.settings table) := if_pos held
  calc QueryOptions.ofValue o.toValue
      = ((Settings.set { o.settings .standard with
            orderVariable := wordOf (Value.ofOption .text o.orderVariable) }
          "namespaces" o.namespaces.toValue).bind pure).bind ofSettings := rfl
    _ = (((o.settings .standard).set "namespaces" o.namespaces.toValue).bind pure).bind ofSettings := by
        rw [word]
        rfl
    _ = _ := by
        rw [last]
        cases NamespaceTable.ofValue o.namespaces.toValue <;> rfl

theorem limitPositive {value : Value} {limit : Option Nat} (read : limitOf value = .ok limit) :
    ∀ n ∈ limit, 0 < n := by
  unfold limitOf at read
  split at read
  · cases read
    exact nofun
  · split at read
    · cases read
      intro n given
      split at given
      · cases given
        omega
      · contradiction
    · contradiction
    · cases read
      exact nofun

theorem setSettled {s next : Settings} {name : String} {value : Value} (settled : s.namespaces.Settled)
    (read : s.set name value = .ok next) : next.namespaces.Settled := by
  unfold Settings.set at read
  split at read
  · obtain ⟨flag,_,same⟩ := bindOk.mp read
    cases same
    exact settled
  · obtain ⟨flag,_,same⟩ := bindOk.mp read
    cases same
    exact settled
  · cases read
    exact settled
  · cases read
    exact settled
  · cases read
    exact settled
  · split at read
    · next held =>
      obtain ⟨table,listed,same⟩ := bindOk.mp read
      cases same
      exact NamespaceTable.tableSettled held listed
    · cases read
      exact settled
  · cases read
    exact settled

theorem standardSettled : NamespaceTable.standard.Settled :=
  ⟨by decide,by decide +kernel⟩

theorem settingsSettled {s : Settings} {o : QueryOptions} (namespaces : s.namespaces.Settled)
    (made : ofSettings s = .ok o) : o.Settled := by
  have order := orderVariableWord made
  obtain ⟨direction,_,made⟩ := bindOk.mp made
  split at made <;>
    (obtain ⟨name,_,made⟩ := bindOk.mp made
     obtain ⟨limit,read,made⟩ := bindOk.mp made
     cases made
     exact ⟨order,limitPositive read,namespaces⟩)

theorem optionsSettled {value : Value} {o : QueryOptions} (read : QueryOptions.ofValue value = .ok o) : o.Settled := by
  unfold QueryOptions.ofValue at read
  split at read
  · cases read
    exact ⟨nofun,nofun,standardSettled⟩
  · obtain ⟨settings,folded,made⟩ := bindOk.mp read
    refine settingsSettled ?_ made
    exact foldlMKeeps (P := fun s : Settings => s.namespaces.Settled) (fun s field next kept => setSettled kept)
      standardSettled folded
  · contradiction

/-- Options that were read come back from what is written of them just if no prefix and no IRI of their table is
empty. Otherwise the first entry with an empty one is turned down. -/
theorem rereadOptionsIff {value : Value} {o : QueryOptions} (read : QueryOptions.ofValue value = .ok o) :
    (QueryOptions.ofValue o.toValue = .ok o ↔ ∀ e ∈ o.namespaces.entries, e.label ≠ "" ∧ e.iri ≠ "") ∧
      ∀ e ∈ o.namespaces.entries.find? (fun e => !e.filled),
        QueryOptions.ofValue o.toValue = refuse (.namespaceIncomplete e.toValue) := by
  have settled := optionsSettled read
  have table := NamespaceTable.tableReread settled.namespaces.trimmed
  rw [writtenRead settled.namespaces.some,table]
  cases found : o.namespaces.entries.find? (fun e => !e.filled) with
  | none =>
      have whole : ∀ e ∈ o.namespaces.entries, e.label ≠ "" ∧ e.iri ≠ "" := fun e member => by
        simpa [NamespaceEntry.filled] using List.find?_eq_none.mp found e member
      exact ⟨iff_of_true (settingsReread settled _) whole,nofun⟩
  | some e =>
      have lacking : e.label = "" ∨ e.iri = "" := by
        simpa [NamespaceEntry.filled] using List.find?_some found
      refine ⟨iff_of_false nofun fun whole => ?_,?_⟩
      · obtain ⟨label,iri⟩ := whole e (List.mem_of_find?_eq_some found)
        exact lacking.elim label iri
      · rintro _ ⟨⟩
        rfl

end QueryOptions

def savedOptions : Value := .mapping
  [("queryLimit",.text " 0_7 "),("includeZeroCountResults",.text " ON "),("limit",.decimal (.finite false 7318349394477056 (-50))),
    ("orderByVariableName",.text " ??name"),("orderByDirection",.text "asc "),
    ("namespaces",.list [.list [.text " ex ",.text "http://a.org/"],.text "pq"])]

theorem savedOptionsReread : ∃ o, QueryOptions.ofValue savedOptions = .ok o ∧ o.limit = some 6 ∧
    QueryOptions.ofValue o.toValue = .ok o := by
  have evaluated : (QueryOptions.ofValue savedOptions).map (fun o => decide (o.limit = some 6 ∧
      ∀ e ∈ o.namespaces.entries, e.label ≠ "" ∧ e.iri ≠ "")) = .ok true := by decide +kernel
  obtain ⟨o,read,holds⟩ := mapOk evaluated
  obtain ⟨limit,whole⟩ := of_decide_eq_true holds
  exact ⟨o,read,limit,(QueryOptions.rereadOptionsIff read).1.mpr whole⟩

theorem blankPrefixRefused : ∃ o,
    QueryOptions.ofValue (.mapping [("namespaces",.list [.list [.text " ",.text "http://a.org/"]])]) = .ok o ∧
      QueryOptions.ofValue o.toValue =
        refuse (.namespaceIncomplete (.mapping [("prefix",.text ""),("iri",.text "http://a.org/")])) := by
  refine ⟨⟨false,false,none,.descending,none,⟨[⟨"","http://a.org/"⟩]⟩⟩,?_,?_⟩ <;> decide +kernel

end PathQuery
