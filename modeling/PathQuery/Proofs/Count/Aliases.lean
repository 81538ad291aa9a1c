import PathQuery.Proofs.Count.Source
import PathQuery.Proofs.Pattern.Columns
import PathQuery.Proofs.Pattern.Vocabulary

/-! The names of counts. The search for one looks at the columns only, but no variable of a pattern ends in the
words that these names end in. -/
namespace PathQuery

def rawOf (name : String) : String := name ++ "_raw"

def TakenAlias (taken : List String) (name : String) : Prop := name ∈ taken ∨ rawOf name ∈ taken

theorem rawInjective : Function.Injective rawOf := by
  intro one other same
  have chars := congrArg String.toList same
  rw [rawOf,rawOf,String.toList_append,String.toList_append] at chars
  exact String.toList_inj.mp (List.append_cancel_right chars)

theorem aliasBlocksIff {candidate name : String} :
    aliasBlocks candidate name = true ↔ name = candidate ∨ name = rawOf candidate := by
  simp [aliasBlocks,rawOf]

theorem numberedNotRaw (base : String) (i j : Nat) : numbered base "_" j ≠ rawOf (numbered base "_" i) := by
  intro same
  have chars : (numbered base "_" j).toList = (numbered base "_" i).toList ++ "_raw".toList := by
    rw [same,rawOf,String.toList_append]
  cases j with
  | zero =>
      have lengths := congrArg List.length chars
      have longer : base.toList.length ≤ (numbered base "_" i).toList.length := by
        cases i with
        | zero => exact Nat.le_refl _
        | succ i => simp [numbered]
      simp [numbered] at lengths longer
      omega
  | succ j =>
      -- The one ends in a digit, the other in a letter.
      have last := congrArg List.getLast? chars
      have digits : (numbered base "_" (j + 1)).toList = (base ++ "_").toList ++ Nat.toDigits 10 (j + 2) := by
        rw [numbered,String.toList_append,Nat.toString_eq_repr,Nat.toList_repr]
      have filled : Nat.toDigits 10 (j + 2) ≠ [] := Nat.toDigits_ne_nil
      rw [digits,List.getLast?_append_of_ne_nil _ filled,List.getLast?_append_of_ne_nil _ (by decide)] at last
      have digit := Nat.isDigit_of_mem_toDigits (b := 10) (by decide) (by decide) (List.mem_of_getLast? last)
      exact absurd digit (by decide)

theorem aliasBlocksOnce (base : String) (i j : Nat) (name : String)
    (here : aliasBlocks (numbered base "_" i) name = true) (there : aliasBlocks (numbered base "_" j) name = true) :
    i = j := by
  rcases aliasBlocksIff.mp here with rfl | rfl <;> rcases aliasBlocksIff.mp there with same | same
  · exact numberedInjective same
  · exact absurd same (numberedNotRaw base j i)
  · exact absurd same.symm (numberedNotRaw base i j)
  · exact numberedInjective (rawInjective same)

theorem aliasFound (base : String) (taken : List String) : ∃ n ≤ taken.length,
    uniqueAlias base taken = numbered base "_" n ∧ ¬ TakenAlias taken (numbered base "_" n) ∧
      ∀ m < n, TakenAlias taken (numbered base "_" m) := by
  obtain ⟨n,_,bound,found,free,before⟩ :=
    firstFreeUnblocked aliasBlocks (numbered base "_") (aliasBlocksOnce base) 0 taken
  refine ⟨n,by omega,found,?_,fun m earlier => ?_⟩
  · rintro (there | there)
    · exact absurd (aliasBlocksIff.mpr (.inl rfl)) (Bool.eq_false_iff.mp (free _ there))
    · exact absurd (aliasBlocksIff.mpr (.inr rfl)) (Bool.eq_false_iff.mp (free _ there))
  · obtain ⟨name,member,blocked⟩ := before m (Nat.zero_le m) earlier
    rcases aliasBlocksIff.mp blocked with rfl | rfl
    · exact .inl member
    · exact .inr member

def IsAlias (name : String) : Prop := lastWord name.toList = "count".toList

def IsRaw (name : String) : Prop := lastWord name.toList = "raw".toList

theorem aliasEnds (counted : String) (taken : List String) : IsAlias (uniqueAlias (counted ++ "_count") taken) := by
  obtain ⟨n,_,found,_,_⟩ := aliasFound (counted ++ "_count") taken
  rw [found,IsAlias]
  cases n with
  | zero =>
      have whole : (numbered (counted ++ "_count") "_" 0).toList = counted.toList ++ '_' :: "count".toList ++ [] := by
        simp [numbered]
      rw [whole]
      exact lastWordOf (by decide) (by decide) _ rfl
  | succ n =>
      have whole : (numbered (counted ++ "_count") "_" (n + 1)).toList =
          counted.toList ++ '_' :: "count".toList ++ '_' :: (toString (n + 2)).toList := by
        simp [numbered]
      rw [whole]
      exact lastWordOf (by decide) (by decide) _ (by simpa [isTailChar] using numberTail (n + 2))

theorem rawEnds (name : String) : IsRaw (rawOf name) := by
  have whole : (rawOf name).toList = name.toList ++ '_' :: "raw".toList ++ [] := by simp [rawOf]
  rw [IsRaw,whole]
  exact lastWordOf (by decide) (by decide) _ rfl

structure FreshAliases (taken aliases : List String) : Prop where
  apart : (aliases ++ aliases.map rawOf).Nodup
  free : ∀ x ∈ aliases ++ aliases.map rawOf, x ∉ taken
  shaped : ∀ name ∈ aliases, IsAlias name

theorem freshAliasesCons {taken aliases : List String} {name : String} (shape : IsAlias name)
    (free : ¬ TakenAlias taken name) (later : FreshAliases (name :: rawOf name :: taken) aliases) :
    FreshAliases taken (name :: aliases) := by
  obtain ⟨here,raw⟩ := not_or.mp free
  have other : name ≠ rawOf name := by
    intro same
    have ends : IsRaw name := same ▸ rawEnds name
    exact absurd (shape.symm.trans ends) (by decide)
  have turned : ((name :: aliases) ++ (name :: aliases).map rawOf).Perm
      (name :: rawOf name :: (aliases ++ aliases.map rawOf)) := List.perm_middle.cons name
  refine ⟨turned.nodup_iff.mpr ?_,fun x member => ?_,?_⟩
  · refine List.nodup_cons.mpr ⟨?_,List.nodup_cons.mpr ⟨?_,later.apart⟩⟩
    · intro member
      rcases List.mem_cons.mp member with same | member
      · exact other same
      · exact later.free name member (by simp)
    · exact fun member => later.free _ member (by simp)
  · rcases List.mem_cons.mp (turned.mem_iff.mp member) with rfl | member
    · exact here
    · rcases List.mem_cons.mp member with rfl | member
      · exact raw
      · exact fun there => later.free x member (by simp [there])
  · exact fun x member => (List.mem_cons.mp member).elim (fun same => same ▸ shape) (later.shaped x)

structure CountNames (zero : Bool) (taken : List String) (counts : Counts) (aliases : List String) : Prop
    extends FreshAliases taken aliases where
  raws : counts.blocks.map (·.raw) = aliases.map rawOf
  columns : counts.projections.map (·.name) = if zero then aliases else aliases.map rawOf
  unmarked : ∀ c ∈ counts.projections, c.central = false

theorem talliesNamed (depths : Table String Int) (zero : Bool) (taken : List String) (tallies : List Tally) :
    ∃ aliases, CountNames zero taken (Counts.ofTallies depths zero taken tallies) aliases := by
  induction tallies generalizing taken with
  | nil =>
      refine ⟨[],⟨List.nodup_nil,(fun _ none => nomatch none),fun _ none => nomatch none⟩,rfl,?_,?_⟩
      · cases zero <;> rfl
      · exact fun _ none => nomatch none
  | cons t rest ih =>
      obtain ⟨_,_,found,free,_⟩ := aliasFound (t.counted ++ "_count") taken
      obtain ⟨aliases,fresh,raws,columns,unmarked⟩ := ih
        (uniqueAlias (t.counted ++ "_count") taken :: rawOf (uniqueAlias (t.counted ++ "_count") taken) :: taken)
      have apart := freshAliasesCons (aliasEnds t.counted taken) (found ▸ free) fresh
      refine ⟨_,apart,congrArg (List.cons _) raws,?_,?_⟩
      · cases zero
        · exact congrArg (List.cons _) columns
        · exact congrArg (List.cons _) columns
      · intro c member
        rcases List.mem_cons.mp member with rfl | later
        · cases zero <;> rfl
        · exact unmarked c later

variable {g : SelectionGraph} {o : QueryOptions} {outer : SelectPattern} {counts : Counts}

theorem partsNamed (done : g.parts o = .ok (outer,counts)) :
    ∃ aliases, CountNames o.includeZeroCounts (outer.projections.map (·.name)) counts aliases := by
  obtain ⟨tallies,same,_⟩ := talliesSource (partsDone done).2
  rw [show counts = _ from same]
  exact talliesNamed _ _ _ _

theorem nodeNameElse {x : String} (node : IsNodeName x.toList) : ¬ IsAlias x ∧ ¬ IsRaw x := by
  refine ⟨fun ends => ?_,fun ends => ?_⟩
  · exact absurd (ends ▸ node.ends) (by decide)
  · exact absurd (ends ▸ node.ends) (by decide)

theorem columnsApart (done : g.parts o = .ok (outer,counts)) :
    ((outer.projections ++ counts.projections).map (·.name)).Nodup := by
  obtain ⟨aliases,named⟩ := partsNamed done
  rw [List.map_append,named.columns]
  have shown : (if o.includeZeroCounts then aliases else aliases.map rawOf).Sublist (aliases ++ aliases.map rawOf) := by
    split
    · exact List.sublist_append_left _ _
    · exact List.sublist_append_right _ _
  refine List.nodup_append.mpr ⟨columnsOnce (partsDone done).1,shown.nodup named.apart,?_⟩
  rintro x first y second rfl
  exact named.free x (shown.subset second) first

/-- No count is named as any variable that a pattern has, in a column or not, and the search for its name ends. -/
theorem aliasesFresh (done : g.parts o = .ok (outer,counts)) :
    ((outer.projections ++ counts.projections).map (·.name)).Nodup ∧
    (∃ aliases : List String, counts.blocks.map (·.raw) = aliases.map rawOf ∧
      counts.projections.map (·.name) = (if o.includeZeroCounts then aliases else aliases.map rawOf) ∧
      (aliases ++ aliases.map rawOf).Nodup ∧
      ∀ x ∈ aliases ++ aliases.map rawOf, (∀ t ∈ outer.records.keys, x ∉ t.varNames) ∧
        ∀ k members sub, (CountClosures.ofGraph g).members.find? k = some members →
          g.countPattern (g.fullPrefixes o) members ((CountClosures.ofGraph g).parents.find? k) k = .ok sub →
          ∀ t ∈ sub.records.keys, x ∉ t.varNames) ∧
    ∀ base taken, ∃ n ≤ taken.length, uniqueAlias base taken = numbered base "_" n ∧
      ¬ TakenAlias taken (numbered base "_" n) ∧ ∀ m < n, TakenAlias taken (numbered base "_" m) := by
  obtain ⟨aliases,named⟩ := partsNamed done
  refine ⟨columnsApart done,⟨aliases,named.raws,named.columns,named.apart,fun x member => ?_⟩,aliasFound⟩
  have ends : IsAlias x ∨ IsRaw x := by
    rcases List.mem_append.mp member with shown | raw
    · exact .inl (named.shaped x shown)
    · obtain ⟨name,_,rfl⟩ := List.mem_map.mp raw
      exact .inr (rawEnds name)
  have other : ¬ IsNodeName x.toList := fun node =>
    ends.elim (nodeNameElse node).1 (nodeNameElse node).2
  refine ⟨fun t recorded inside => other ?_,fun k members sub _ made t recorded inside => other ?_⟩
  · exact (patternNodeNamed (partsDone done).1).2 t recorded x inside
  · exact (patternNodeNamed made).2 t recorded x inside

def alikeCounts : SelectionGraph :=
  { nodes := [⟨"a","a",some ⟨"a","",false,.field,"",none,["urn:X"]⟩⟩,
      ⟨"b","b",some ⟨"b","",false,.field,"",none,["urn:X","urn:p","urn:Y"]⟩⟩,
      ⟨"B","B",some ⟨"B","",false,.field,"",none,["urn:X","urn:q","urn:Z"]⟩⟩]
    edges := [⟨"a","b",.null,false⟩,⟨"a","B",.null,false⟩]
    central := some "a"
    count := ["b","B"] }

theorem alikeCountsFresh : ∃ outer counts, alikeCounts.parts .standard = .ok (outer,counts) ∧
    counts.blocks.map (·.raw) = ["b_node_count_raw","b_node_count_2_raw"] ∧
    ((outer.projections ++ counts.projections).map (·.name)).Nodup ∧
    ∀ t ∈ outer.records.keys, "b_node_count_raw" ∉ t.varNames ∧ "b_node_count_2_raw" ∉ t.varNames := by
  have evaluated : (alikeCounts.parts .standard).map (fun parts => parts.2.blocks.map (·.raw)) =
      .ok ["b_node_count_raw","b_node_count_2_raw"] := by decide +kernel
  obtain ⟨⟨outer,counts⟩,done,raws⟩ := mapOk evaluated
  obtain ⟨apart,⟨aliases,same,_,_,fresh⟩,_⟩ := aliasesFresh done
  have here : ∀ x ∈ counts.blocks.map (·.raw), ∀ t ∈ outer.records.keys, x ∉ t.varNames := fun x member =>
    (fresh x (List.mem_append_right _ (same ▸ member))).1
  change counts.blocks.map (·.raw) = _ at raws
  rw [raws] at here
  exact ⟨outer,counts,done,raws,apart,fun t recorded =>
    ⟨here _ (by simp) t recorded,here _ (by simp) t recorded⟩⟩

end PathQuery
