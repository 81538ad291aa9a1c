import PathQuery.Pattern.Names

/-! Names given out by key: a key keeps its name, and no two keys share one. -/
namespace PathQuery

theorem numberInjective {a b : Nat} (same : toString a = toString b) : a = b := by
  have digits : Nat.toDigits 10 a = Nat.toDigits 10 b := by
    have chars := congrArg String.toList same
    rwa [Nat.toString_eq_repr,Nat.toString_eq_repr,Nat.toList_repr,Nat.toList_repr] at chars
  have read := congrArg (fun text => Nat.ofDigitChars 10 text 0) digits
  simpa using read

theorem numberedInjective {wish joint : String} {i j : Nat}
    (same : numbered wish joint i = numbered wish joint j) : i = j := by
  have longer : ∀ n, wish ≠ wish ++ joint ++ toString (n + 2) := by
    intro n short
    have lengths := congrArg (fun s => s.toList.length) short
    have written : (toString (n + 2)).toList ≠ [] := by
      rw [Nat.toString_eq_repr,Nat.toList_repr]
      exact Nat.toDigits_ne_nil
    have := List.length_pos_iff.mpr written
    simp only [String.toList_append,List.length_append] at lengths
    omega
  cases i with
  | zero =>
      cases j with
      | zero => rfl
      | succ j => exact absurd same (longer j)
  | succ i =>
      cases j with
      | zero => exact absurd same.symm (longer i)
      | succ j =>
          have ends : toString (i + 2) = toString (j + 2) := by
            have chars := congrArg String.toList same
            simp only [numbered,String.toList_append] at chars
            exact String.toList_inj.mp (List.append_cancel_left chars)
          have := numberInjective ends
          omega

theorem firstFreeUnblocked (blocks : String → String → Bool) (candidate : Nat → String)
    (once : ∀ i j name, blocks (candidate i) name = true → blocks (candidate j) name = true → i = j)
    (n : Nat) (taken : List String) :
    ∃ k, n ≤ k ∧ k ≤ n + taken.length ∧ firstFree blocks candidate n taken = candidate k ∧
      (∀ name ∈ taken, blocks (candidate k) name = false) ∧
      ∀ m, n ≤ m → m < k → ∃ name ∈ taken, blocks (candidate m) name = true := by
  fun_induction firstFree blocks candidate n taken with
  | case1 n taken blocked ih =>
      obtain ⟨k,later,soon,found,free,before⟩ := ih
      refine ⟨k,by omega,by omega,found,?_,?_⟩
      · intro name member
        cases here : blocks (candidate n) name with
        | false => exact free name (by simp [unblocked,member,here])
        | true =>
            cases there : blocks (candidate k) name with
            | false => rfl
            | true =>
                have := once n k name here there
                omega
      · intro m start stop
        rcases Nat.eq_or_lt_of_le start with rfl | further
        · obtain ⟨name,member,apart⟩ := List.length_filter_lt_length_iff_exists.mp blocked
          exact ⟨name,member,by simpa using apart⟩
        · obtain ⟨name,member,apart⟩ := before m further stop
          exact ⟨name,(List.mem_filter.mp member).1,apart⟩
  | case2 n taken free =>
      have kept : (unblocked blocks (candidate n) taken).length = taken.length :=
        Nat.le_antisymm (List.length_filter_le _ _) (Nat.not_lt.mp free)
      have all := List.length_filter_eq_length_iff.mp kept
      refine ⟨n,Nat.le_refl n,Nat.le_add_right _ _,rfl,fun name member => by simpa using all name member,?_⟩
      intro m start stop
      omega

namespace Names

theorem freshIsNew {κ : Type} (names : Names κ) (wish suffix : String) :
    names.fresh wish suffix ∉ names.given.values := by
  obtain ⟨k,_,_,found,free,_⟩ := firstFreeUnblocked (fun a b => a == b) (numbered wish ("_" ++ suffix ++ "_"))
    (fun i j name here there => numberedInjective ((beq_iff_eq.mp here).trans (beq_iff_eq.mp there).symm))
    0 names.given.values
  intro taken
  rw [fresh,found] at taken
  simpa using free _ taken

variable {κ : Type} [DecidableEq κ]

def Apart (names : Names κ) : Prop :=
  ∀ a b x, names.given.find? a = some x → names.given.find? b = some x → a = b

def Keeps (before after : Names κ) : Prop :=
  ∀ key x, before.given.find? key = some x → after.given.find? key = some x

theorem keepsTrans {first second third : Names κ} (a : Keeps first second) (b : Keeps second third) :
    Keeps first third := fun key x found => b key x (a key x found)

theorem apartEmpty : (empty : Names κ).Apart := fun _ _ _ found => nomatch found

theorem nameGiven (names : Names κ) (key : κ) (wish suffix : String) :
    (names.name key wish suffix).2.given.find? key = some (names.name key wish suffix).1 := by
  unfold name
  split
  · next x found => exact found
  · simp [Table.findInsert]

theorem nameKeeps (names : Names κ) (key : κ) (wish suffix : String) :
    Keeps names (names.name key wish suffix).2 := by
  intro other x found
  unfold name
  split
  · exact found
  · next absent =>
    rw [Table.findInsert,if_neg]
    · exact found
    · rintro rfl
      rw [absent] at found
      contradiction

theorem nameApart {names : Names κ} (apart : names.Apart) (key : κ) (wish suffix : String) :
    (names.name key wish suffix).2.Apart := by
  unfold name
  split
  · exact apart
  · intro a b x first second
    have unused : ∀ {other}, names.given.find? other = some (names.fresh wish suffix) → False :=
      fun found => freshIsNew names wish suffix (Table.findValue found)
    simp only [Table.findInsert] at first second
    split at first <;> split at second
    · next here there => exact here.symm.trans there
    · cases Option.some.inj first
      exact (unused second).elim
    · cases Option.some.inj second
      exact (unused first).elim
    · exact apart a b x first second

structure Gives (before : Names κ) (key : κ) (x : String) (after : Names κ) : Prop where
  given : after.given.find? key = some x
  keeps : Keeps before after
  apart : before.Apart → after.Apart

theorem nameGives {before after : Names κ} {key : κ} {wish suffix x : String}
    (named : before.name key wish suffix = (x,after)) : before.Gives key x after := by
  have given := nameGiven before key wish suffix
  have keeps := nameKeeps before key wish suffix
  have apart := fun known : before.Apart => nameApart known key wish suffix
  rw [named] at given keeps apart
  exact ⟨given,keeps,apart⟩

theorem givesApart {before after : Names κ} {key other : κ} {x y : String} (apart : before.Apart)
    (gives : before.Gives key y after) (known : before.given.find? other = some x) (differ : other ≠ key) : x ≠ y := by
  rintro rfl
  exact differ (gives.apart apart other key x (gives.keeps other x known) gives.given)

end Names

end PathQuery
