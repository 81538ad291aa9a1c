/-! Tables that keep their keys in the order of first insertion. -/
namespace PathQuery

structure Table (κ α : Type) where
  entries : List (κ × α)
  deriving DecidableEq, Repr

namespace Table

variable {κ α : Type} [DecidableEq κ]

def empty : Table κ α := ⟨[]⟩

instance : Inhabited (Table κ α) := ⟨empty⟩

def keys (t : Table κ α) : List κ := t.entries.map Prod.fst

def values (t : Table κ α) : List α := t.entries.map Prod.snd

def lookup (key : κ) : List (κ × α) → Option α
  | [] => none
  | entry :: rest => if entry.1 = key then some entry.2 else lookup key rest

def put (key : κ) (value : α) : List (κ × α) → List (κ × α)
  | [] => [(key,value)]
  | entry :: rest => if entry.1 = key then (key,value) :: rest else entry :: put key value rest

def find? (t : Table κ α) (key : κ) : Option α := lookup key t.entries

def findD (t : Table κ α) (key : κ) (default : α) : α := (t.find? key).getD default

def contains (t : Table κ α) (key : κ) : Bool := (t.find? key).isSome

def insert (t : Table κ α) (key : κ) (value : α) : Table κ α := ⟨put key value t.entries⟩

def insertNew (t : Table κ α) (key : κ) (value : α) : Table κ α :=
  if t.contains key then t else t.insert key value

def ofList (entries : List (κ × α)) : Table κ α :=
  entries.foldl (fun t entry => t.insert entry.1 entry.2) empty

theorem lookupPut (key other : κ) (value : α) (entries : List (κ × α)) :
    lookup other (put key value entries) = if key = other then some value else lookup other entries := by
  induction entries with
  | nil => simp [put,lookup]
  | cons entry rest ih =>
      by_cases here : entry.1 = key
      · by_cases same : key = other <;> simp [put,lookup,here,same]
      · simp only [put,here,if_false,lookup,ih]
        by_cases same : key = other
        · subst same; simp [here]
        · simp [same]

theorem findInsert (t : Table κ α) (key other : κ) (value : α) :
    (t.insert key value).find? other = if key = other then some value else t.find? other :=
  lookupPut key other value t.entries

theorem lookupIsSome {key : κ} {entries : List (κ × α)} :
    (lookup key entries).isSome = true ↔ key ∈ entries.map Prod.fst := by
  induction entries with
  | nil => simp [lookup]
  | cons entry rest ih =>
      by_cases here : entry.1 = key
      · simp [lookup,here]
      · simp [lookup,here,ih,Ne.symm here]

theorem containsIff {t : Table κ α} {key : κ} : t.contains key = true ↔ key ∈ t.keys := lookupIsSome

theorem lookupMem {key : κ} {value : α} {entries : List (κ × α)}
    (found : lookup key entries = some value) : (key,value) ∈ entries := by
  induction entries with
  | nil => simp [lookup] at found
  | cons entry rest ih =>
      unfold lookup at found
      split at found
      · next here =>
        cases Option.some.inj found
        exact List.mem_cons.mpr (.inl (by rw [← here]))
      · exact List.mem_cons_of_mem _ (ih found)

theorem lookupAppend (key : κ) (front back : List (κ × α)) :
    lookup key (front ++ back) = (lookup key front).or (lookup key back) := by
  induction front with
  | nil => rfl
  | cons entry rest ih =>
      rw [List.cons_append,lookup,lookup,ih]
      split <;> rfl

theorem findMem {t : Table κ α} {key : κ} {value : α} (found : t.find? key = some value) :
    (key,value) ∈ t.entries := lookupMem found

theorem findEntry {t : Table κ α} (distinct : t.keys.Nodup) {key : κ} {value : α}
    (member : (key,value) ∈ t.entries) : t.find? key = some value := by
  obtain ⟨entries⟩ := t
  unfold keys find? at *
  induction entries with
  | nil => nomatch member
  | cons entry rest ih =>
      obtain ⟨apart,later⟩ := List.nodup_cons.mp distinct
      rcases List.mem_cons.mp member with same | member
      · subst same
        exact if_pos rfl
      · have other : entry.1 ≠ key := fun same => apart (same ▸ List.mem_map.mpr ⟨_,member,rfl⟩)
        exact (if_neg other).trans (ih later member)

theorem findValue {t : Table κ α} {key : κ} {value : α} (found : t.find? key = some value) :
    value ∈ t.values := List.mem_map.mpr ⟨(key,value),findMem found,rfl⟩

theorem memPut {key : κ} {value : α} {entry : κ × α} {entries : List (κ × α)}
    (member : entry ∈ put key value entries) : entry = (key,value) ∨ entry ∈ entries := by
  induction entries with
  | nil => exact .inl (by simpa [put] using member)
  | cons first rest ih =>
      unfold put at member
      split at member
      · rcases List.mem_cons.mp member with new | old
        · exact .inl new
        · exact .inr (List.mem_cons_of_mem _ old)
      · rcases List.mem_cons.mp member with rfl | old
        · exact .inr (by simp)
        · rcases ih old with new | old
          · exact .inl new
          · exact .inr (List.mem_cons_of_mem _ old)

theorem memInsert {t : Table κ α} {key : κ} {value : α} {entry : κ × α}
    (member : entry ∈ (t.insert key value).entries) : entry = (key,value) ∨ entry ∈ t.entries :=
  memPut member

theorem valuesInsert {t : Table κ α} {key : κ} {value other : α}
    (member : other ∈ (t.insert key value).values) : other = value ∨ other ∈ t.values := by
  obtain ⟨entry,there,rfl⟩ := List.mem_map.mp member
  rcases memInsert there with rfl | old
  · exact .inl rfl
  · exact .inr (List.mem_map.mpr ⟨entry,old,rfl⟩)

theorem memInsertNew {t : Table κ α} {key : κ} {value : α} {entry : κ × α}
    (member : entry ∈ (t.insertNew key value).entries) : entry = (key,value) ∨ entry ∈ t.entries := by
  unfold insertNew at member
  split at member
  · exact .inr member
  · exact memInsert member

theorem containsInsert (t : Table κ α) (key other : κ) (value : α) :
    (t.insert key value).contains other = (decide (key = other) || t.contains other) := by
  unfold contains
  rw [findInsert]
  by_cases same : key = other <;> simp [same]

theorem keysPut (key : κ) (value : α) (entries : List (κ × α)) :
    (put key value entries).map Prod.fst =
      if key ∈ entries.map Prod.fst then entries.map Prod.fst else entries.map Prod.fst ++ [key] := by
  induction entries with
  | nil => simp [put]
  | cons entry rest ih =>
      by_cases here : entry.1 = key
      · simp [put,here]
      · simp only [put,here,if_false,List.map_cons,ih,List.mem_cons,Ne.symm here,false_or]
        split <;> simp

theorem keysInsert (t : Table κ α) (key : κ) (value : α) :
    (t.insert key value).keys = if key ∈ t.keys then t.keys else t.keys ++ [key] :=
  keysPut key value t.entries

theorem keysInsertNodup {t : Table κ α} (distinct : t.keys.Nodup) (key : κ) (value : α) :
    (t.insert key value).keys.Nodup := by
  rw [keysInsert]
  split
  · exact distinct
  · next absent =>
    rw [List.nodup_append]
    refine ⟨distinct,by simp,?_⟩
    intro a ha b hb same
    rw [List.mem_singleton] at hb
    exact absent (hb ▸ same ▸ ha)

theorem memOfList {entries : List (κ × α)} {entry : κ × α} (member : entry ∈ (ofList entries).entries) :
    entry ∈ entries := by
  suffices ∀ t : Table κ α, entry ∈ (entries.foldl (fun t entry => t.insert entry.1 entry.2) t).entries →
      entry ∈ t.entries ∨ entry ∈ entries from
    (this .empty member).resolve_left fun none => nomatch none
  clear member
  induction entries with
  | nil => exact fun t old => .inl old
  | cons first rest ih =>
      intro t member
      rcases ih _ member with before | later
      · rcases memInsert before with rfl | old
        · exact .inr List.mem_cons_self
        · exact .inl old
      · exact .inr (List.mem_cons_of_mem _ later)

theorem valuesOfList {entries : List (κ × α)} {value : α} (member : value ∈ (ofList entries).values) :
    ∃ entry ∈ entries, entry.2 = value := by
  obtain ⟨entry,there,same⟩ := List.mem_map.mp member
  exact ⟨entry,memOfList there,same⟩

theorem ofListNodup (entries : List (κ × α)) : (ofList entries).keys.Nodup := by
  suffices ∀ t : Table κ α, t.keys.Nodup →
      (entries.foldl (fun t entry => t.insert entry.1 entry.2) t).keys.Nodup from this .empty List.nodup_nil
  induction entries with
  | nil => exact fun t distinct => distinct
  | cons entry rest ih => exact fun t distinct => ih _ (keysInsertNodup distinct _ _)

theorem putFresh {key : κ} {value : α} {entries : List (κ × α)} (fresh : key ∉ entries.map Prod.fst) :
    put key value entries = entries ++ [(key,value)] := by
  induction entries with
  | nil => rfl
  | cons entry rest ih =>
      have other : entry.1 ≠ key := fun same => fresh (same ▸ List.mem_cons_self)
      have later : key ∉ rest.map Prod.fst := fun there => fresh (List.mem_cons_of_mem _ there)
      rw [put,if_neg other,ih later,List.cons_append]

theorem ofListEntries {t : Table κ α} (distinct : t.keys.Nodup) : ofList t.entries = t := by
  suffices ∀ front back : List (κ × α), ((front ++ back).map Prod.fst).Nodup →
      back.foldl (fun t entry => t.insert entry.1 entry.2) ⟨front⟩ = (⟨front ++ back⟩ : Table κ α) from
    this [] t.entries distinct
  intro front back
  induction back generalizing front with
  | nil => intro _; simp
  | cons entry rest ih =>
      intro distinct
      have shifted : front ++ entry :: rest = front ++ [entry] ++ rest := by simp
      have fresh : entry.1 ∉ front.map Prod.fst := by
        intro there
        rw [List.map_append,List.nodup_append] at distinct
        exact distinct.2.2 _ there _ (by simp) rfl
      rw [List.foldl_cons,insert,putFresh fresh,ih _ (shifted ▸ distinct),← shifted]

end Table

end PathQuery
