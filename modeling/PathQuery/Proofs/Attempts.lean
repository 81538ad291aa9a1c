import Mathlib.Data.List.Forall2

/-! Steps that may fail, one after the other and over a list. -/
namespace PathQuery

variable {ε α β : Type}

instance decideSame [DecidableEq ε] [DecidableEq α] : DecidableEq (Except ε α)
  | .ok a,.ok b => decidable_of_iff (a = b) (by simp)
  | .error a,.error b => decidable_of_iff (a = b) (by simp)
  | .ok _,.error _ => isFalse (by simp)
  | .error _,.ok _ => isFalse (by simp)

theorem bindOk {first : Except ε α} {next : α → Except ε β} {b : β} :
    first.bind next = .ok b ↔ ∃ a, first = .ok a ∧ next a = .ok b := by
  cases first with
  | error fault => simp [Except.bind]
  | ok a => simp [Except.bind]

theorem mapOk {first : Except ε α} {after : α → β} {b : β} (done : first.map after = .ok b) :
    ∃ a, first = .ok a ∧ after a = b := by
  cases first with
  | error fault => cases done
  | ok a => exact ⟨a,rfl,Except.ok.inj done⟩

theorem forallRight {R : α → β → Prop} {first : List α} {second : List β} (each : List.Forall₂ R first second)
    {b : β} (member : b ∈ second) : ∃ a ∈ first, R a b := by
  induction each with
  | nil => nomatch member
  | @cons a b _ _ here _ ih =>
      rcases List.mem_cons.mp member with rfl | member
      · exact ⟨a,by simp,here⟩
      · obtain ⟨a,there,later⟩ := ih member
        exact ⟨a,List.mem_cons_of_mem _ there,later⟩

theorem mapMEach {step : α → Except ε β} {items : List α} {results : List β}
    (done : items.mapM step = .ok results) : List.Forall₂ (fun a b => step a = .ok b) items results := by
  induction items generalizing results with
  | nil =>
      cases done
      exact .nil
  | cons item rest ih =>
      rw [List.mapM_cons] at done
      obtain ⟨first,here,others⟩ := bindOk.mp done
      obtain ⟨more,later,same⟩ := bindOk.mp others
      cases same
      exact .cons here (ih later)

theorem mapMOk {step : α → Except ε β} {items : List α} {results : List β}
    (done : items.mapM step = .ok results) {b : β} (member : b ∈ results) :
    ∃ a ∈ items, step a = .ok b := forallRight (mapMEach done) member

theorem mapMDone {step : α → Except ε β} {items : List α} (each : ∀ a ∈ items, ∃ b, step a = .ok b) :
    ∃ results, items.mapM step = .ok results := by
  induction items with
  | nil => exact ⟨[],rfl⟩
  | cons item rest ih =>
      obtain ⟨b,here⟩ := each item (by simp)
      obtain ⟨more,later⟩ := ih fun a member => each a (List.mem_cons_of_mem _ member)
      refine ⟨b :: more,?_⟩
      rw [List.mapM_cons,here,later]
      rfl

theorem mapMGiven {γ : Type} {write : γ → α} {step : α → Except ε β} {result : γ → β} {items : List γ}
    (each : ∀ c ∈ items, step (write c) = .ok (result c)) :
    (items.map write).mapM step = .ok (items.map result) := by
  induction items with
  | nil => rfl
  | cons item rest ih =>
      obtain ⟨here,later⟩ := List.forall_mem_cons.mp each
      rw [List.map_cons,List.mapM_cons,here,ih later]
      rfl

theorem foldlMKeeps {P : β → Prop} {step : β → α → Except ε β} (keeps : ∀ b a next, P b → step b a = .ok next → P next)
    {start last : β} {items : List α} (first : P start) (done : items.foldlM step start = .ok last) : P last := by
  induction items generalizing start with
  | nil =>
      cases done
      exact first
  | cons item rest ih =>
      rw [List.foldlM_cons] at done
      obtain ⟨next,here,later⟩ := bindOk.mp done
      exact ih (keeps start item next first here) later

theorem bindFailed {first : Except ε α} {next : α → Except ε β} {fault : ε} :
    first.bind next = .error fault ↔ first = .error fault ∨ ∃ a, first = .ok a ∧ next a = .error fault := by
  cases first with
  | error fault => simp [Except.bind]
  | ok a => simp [Except.bind]

theorem mapMFailed {step : α → Except ε β} {items : List α} {fault : ε} : items.mapM step = .error fault ↔
    ∃ before a after, items = before ++ a :: after ∧ (∀ b ∈ before, ∃ done, step b = .ok done) ∧
      step a = .error fault := by
  induction items with
  | nil => simp [pure,Except.pure]
  | cons item rest ih =>
      rw [List.mapM_cons]
      refine bindFailed.trans ?_
      constructor
      · rintro (here | ⟨b,here,later⟩)
        · exact ⟨[],item,rest,rfl,List.forall_mem_nil _,here⟩
        · rcases bindFailed.mp later with later | ⟨_,_,none⟩
          · obtain ⟨before,a,after,rfl,each,failed⟩ := ih.mp later
            exact ⟨item :: before,a,after,rfl,List.forall_mem_cons.mpr ⟨⟨b,here⟩,each⟩,failed⟩
          · contradiction
      · rintro ⟨before,a,after,same,each,failed⟩
        cases before with
        | nil =>
            cases same
            exact .inl failed
        | cons first before =>
            cases same
            obtain ⟨⟨b,here⟩,each⟩ := List.forall_mem_cons.mp each
            exact .inr ⟨b,here,bindFailed.mpr (.inl (ih.mpr ⟨before,a,after,rfl,each,failed⟩))⟩

theorem foldlMFailed {step : β → α → Except ε β} {start : β} {items : List α} {fault : ε} :
    items.foldlM step start = .error fault ↔ ∃ before a after b, items = before ++ a :: after ∧
      before.foldlM step start = .ok b ∧ step b a = .error fault := by
  induction items generalizing start with
  | nil => simp [pure,Except.pure]
  | cons item rest ih =>
      rw [List.foldlM_cons]
      refine bindFailed.trans ?_
      constructor
      · rintro (here | ⟨next,here,later⟩)
        · exact ⟨[],item,rest,start,rfl,rfl,here⟩
        · obtain ⟨before,a,after,b,rfl,done,failed⟩ := ih.mp later
          refine ⟨item :: before,a,after,b,rfl,?_,failed⟩
          rw [List.foldlM_cons]
          exact bindOk.mpr ⟨next,here,done⟩
      · rintro ⟨before,a,after,b,same,done,failed⟩
        cases before with
        | nil =>
            cases same
            cases done
            exact .inl failed
        | cons first before =>
            cases same
            rw [List.foldlM_cons] at done
            obtain ⟨next,here,done⟩ := bindOk.mp done
            exact .inr ⟨next,here,ih.mpr ⟨before,a,after,b,rfl,done,failed⟩⟩

theorem mapErrorOk {δ : Type} {f : ε → δ} {first : Except ε α} {a : α} (done : first.mapError f = .ok a) :
    first = .ok a := by
  cases first with
  | error fault => contradiction
  | ok b => exact congrArg _ (Except.ok.inj done)

theorem mapErrorFailed {δ : Type} {f : ε → δ} {first : Except ε α} {told : δ}
    (failed : first.mapError f = .error told) : ∃ fault, first = .error fault ∧ f fault = told := by
  cases first with
  | error fault => exact ⟨fault,rfl,Except.error.inj failed⟩
  | ok b => contradiction

theorem mapErrorBind {δ : Type} (f : ε → δ) (first : Except ε α) (next : α → Except ε β) :
    (first >>= next).mapError f = first.mapError f >>= fun a => (next a).mapError f := by
  cases first <;> rfl

theorem mapErrorMapM {δ : Type} (f : ε → δ) (step : α → Except ε β) (items : List α) :
    (items.mapM step).mapError f = items.mapM fun a => (step a).mapError f := by
  induction items with
  | nil => rfl
  | cons item rest ih =>
      rw [List.mapM_cons,List.mapM_cons,mapErrorBind]
      refine congrArg _ (funext fun b => ?_)
      rw [mapErrorBind,ih]
      rfl

inductive Together (R : α → β → Prop) : Except ε α → Except ε β → Prop where
  | failed (fault : ε) : Together R (.error fault) (.error fault)
  | done {a : α} {b : β} (related : R a b) : Together R (.ok a) (.ok b)

theorem togetherCases {R : α → β → Prop} {first : Except ε α} {second : Except ε β}
    (both : Together R first second) :
    (∃ fault, first = .error fault ∧ second = .error fault) ∨
      ∃ a b, first = .ok a ∧ second = .ok b ∧ R a b := by
  cases both with
  | failed fault => exact .inl ⟨fault,rfl,rfl⟩
  | done related => exact .inr ⟨_,_,rfl,rfl,related⟩

theorem togetherOfMap {γ : Type} {f : α → γ} {g : β → γ} {first : Except ε α} {second : Except ε β}
    (same : first.map f = second.map g) : Together (fun a b => f a = g b) first second := by
  cases first with
  | error fault =>
      cases second with
      | error other =>
          cases same
          exact .failed fault
      | ok b => contradiction
  | ok a =>
      cases second with
      | error other => contradiction
      | ok b => exact .done (Except.ok.inj same)

theorem togetherBind {γ δ : Type} {R : α → β → Prop} {S : γ → δ → Prop} {first : Except ε α} {second : Except ε β}
    (both : Together R first second) {next : α → Except ε γ} {later : β → Except ε δ}
    (each : ∀ a b, R a b → Together S (next a) (later b)) : Together S (first >>= next) (second >>= later) := by
  cases both with
  | failed fault => exact .failed fault
  | done related => exact each _ _ related

theorem togetherMapM {γ : Type} {R : β → γ → Prop} {first : α → Except ε β} {second : α → Except ε γ}
    {items : List α} (each : ∀ a ∈ items, Together R (first a) (second a)) :
    Together (List.Forall₂ R) (items.mapM first) (items.mapM second) := by
  induction items with
  | nil => exact .done .nil
  | cons item rest ih =>
      have here := each item (by simp)
      have later := ih fun a member => each a (List.mem_cons_of_mem _ member)
      rw [List.mapM_cons,List.mapM_cons]
      generalize first item = a, second item = b, rest.mapM first = others, rest.mapM second = more at here later
      cases here with
      | failed fault => exact .failed fault
      | done related =>
          cases later with
          | failed fault => exact .failed fault
          | done rest => exact .done (.cons related rest)

end PathQuery
