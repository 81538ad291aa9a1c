/-! Sorting by insertion, and sets of ids as strictly increasing lists. -/
namespace PathQuery

def insertBy {α : Type} (before : α → α → Bool) (x : α) : List α → List α
  | [] => [x]
  | y :: rest => if before x y then x :: y :: rest else y :: insertBy before x rest

def sortBy {α : Type} (before : α → α → Bool) (items : List α) : List α :=
  items.foldr (insertBy before) []

def insertId (x : String) : List String → List String
  | [] => [x]
  | y :: rest => if x = y then y :: rest else if x < y then x :: y :: rest else y :: insertId x rest

def sortedIds (ids : List String) : List String := ids.foldr insertId []

def pairBefore (a b : String × String) : Bool :=
  decide (a.1 < b.1) || (a.1 == b.1 && decide (a.2 ≤ b.2))

theorem memInsertBy {α : Type} {before : α → α → Bool} {x y : α} {items : List α} :
    y ∈ insertBy before x items ↔ y = x ∨ y ∈ items := by
  induction items with
  | nil => simp [insertBy]
  | cons z rest ih =>
      unfold insertBy
      split
      · simp
      · simp only [List.mem_cons,ih]
        constructor
        · rintro (h | h | h) <;> simp [h]
        · rintro (h | h | h) <;> simp [h]

theorem memSortBy {α : Type} {before : α → α → Bool} {x : α} {items : List α} :
    x ∈ sortBy before items ↔ x ∈ items := by
  induction items with
  | nil => simp [sortBy]
  | cons y rest ih =>
      have step : sortBy before (y :: rest) = insertBy before y (sortBy before rest) := rfl
      rw [step,memInsertBy,ih,List.mem_cons]

theorem memInsertId {x y : String} {ids : List String} : y ∈ insertId x ids ↔ y = x ∨ y ∈ ids := by
  induction ids with
  | nil => simp [insertId]
  | cons z rest ih =>
      unfold insertId
      split
      · next same => subst same; simp
      · split
        · simp
        · simp only [List.mem_cons,ih]
          constructor
          · rintro (h | h | h) <;> simp [h]
          · rintro (h | h | h) <;> simp [h]

theorem memSortedIds {x : String} {ids : List String} : x ∈ sortedIds ids ↔ x ∈ ids := by
  induction ids with
  | nil => simp [sortedIds]
  | cons y rest ih =>
      have step : sortedIds (y :: rest) = insertId y (sortedIds rest) := rfl
      rw [step,memInsertId,ih,List.mem_cons]

end PathQuery
