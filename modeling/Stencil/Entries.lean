/-!
# Entries ordered by key

Dictionaries, label tables and sets of names are lists of entries whose keys ascend by code point.
Every operation keeps that order when its argument has it.
-/

namespace Stencil

/-- Entries of a map, keys ascending. -/
abbrev Entries (α : Type) := List (String × α)

namespace Entries

variable {α : Type}

/-- The value under a key. -/
def find? (key : String) : Entries α → Option α
  | [] => none
  | (k, v) :: rest => if k = key then some v else find? key rest

/-- Whether a key is present. -/
def has (key : String) (entries : Entries α) : Bool := (find? key entries).isSome

/-- Puts a value under a key, in place of an earlier one. -/
def insert (key : String) (value : α) : Entries α → Entries α
  | [] => [(key, value)]
  | (k, v) :: rest =>
    if key < k then (key, value) :: (k, v) :: rest
    else if k = key then (key, value) :: rest
    else (k, v) :: insert key value rest

/-- Enters pairs one after another; later ones win. -/
def insertAll (entries : Entries α) (pairs : List (String × α)) : Entries α :=
  pairs.foldl (fun result pair => result.insert pair.1 pair.2) entries

/-- The entries of a list of pairs, later pairs winning. -/
def ofList (pairs : List (String × α)) : Entries α := insertAll [] pairs

/-- The keys in order. -/
def keys (entries : Entries α) : List String := entries.map Prod.fst

@[simp] theorem find?_insert_self (key : String) (value : α) (entries : Entries α) :
    (entries.insert key value).find? key = some value := by
  induction entries with
  | nil => simp [insert, find?]
  | cons head rest ih =>
    obtain ⟨k, v⟩ := head
    simp only [insert]
    split
    · simp [find?]
    · split
      · simp [find?]
      · rename_i hk
        simp [find?, hk, ih]

theorem find?_insert_of_ne {key other : String} (h : other ≠ key) (value : α)
    (entries : Entries α) : (entries.insert key value).find? other = entries.find? other := by
  induction entries with
  | nil => simp [insert, find?, Ne.symm h]
  | cons head rest ih =>
    obtain ⟨k, v⟩ := head
    simp only [insert]
    split
    · simp [find?, Ne.symm h]
    · split
      · rename_i hk
        simp [find?, hk, Ne.symm h]
      · simp [find?, ih]

end Entries

/-- A set of names, ascending by code point. -/
abbrev NameSet := List String

namespace NameSet

/-- Adds a name. -/
def insert (name : String) : NameSet → NameSet
  | [] => [name]
  | n :: rest =>
    if name < n then name :: n :: rest
    else if n = name then n :: rest
    else n :: insert name rest

/-- Takes a name out. -/
def erase (name : String) (names : NameSet) : NameSet := names.filter (· ≠ name)

/-- Adds all names of a second set. -/
def union (names others : NameSet) : NameSet :=
  others.foldl (fun result name => insert name result) names

@[simp] theorem mem_insert {name other : String} {names : NameSet} :
    other ∈ insert name names ↔ other = name ∨ other ∈ names := by
  induction names with
  | nil => simp [insert]
  | cons n rest ih =>
    simp only [insert]
    split
    · simp
    · split
      · rename_i hn
        subst hn
        simp
      · simp [ih, or_left_comm]

@[simp] theorem mem_erase {name other : String} {names : NameSet} :
    other ∈ erase name names ↔ other ∈ names ∧ other ≠ name := by
  simp [erase]

@[simp] theorem mem_union {other : String} {names others : NameSet} :
    other ∈ union names others ↔ other ∈ names ∨ other ∈ others := by
  induction others generalizing names with
  | nil => simp [union]
  | cons n rest ih =>
    have step : union names (n :: rest) = union (insert n names) rest := rfl
    rw [step, ih]
    simp [or_assoc, or_left_comm]

end NameSet

end Stencil
