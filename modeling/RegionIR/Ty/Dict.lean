/-! Dictionaries with text keys, kept as lists in key order.

Keys are ordered by their code points. Each key occurs once; a later entry for a
key takes the place of an earlier one. -/

namespace RegionIR

/-- Entries in strictly increasing key order. -/
abbrev Dict (α : Type) := List (String × α)

namespace Dict

/-- Sets `key` to `value`, in its place in the order. -/
def insert {α : Type} (key : String) (value : α) : Dict α → Dict α
  | [] => [(key, value)]
  | (k, v) :: rest =>
    if key < k then (key, value) :: (k, v) :: rest
    else if key = k then (key, value) :: rest
    else (k, v) :: insert key value rest

/-- The value of `key`. -/
def find? {α : Type} (key : String) (d : Dict α) : Option α :=
  List.lookup key d

/-- The dictionary of a list of entries; of entries with one key the last counts. -/
def ofEntries {α : Type} (entries : List (String × α)) : Dict α :=
  entries.foldl (fun d e => d.insert e.1 e.2) []

theorem find?_insert_self {α : Type} (key : String) (value : α) (d : Dict α) :
    (d.insert key value).find? key = some value := by
  induction d with
  | nil => simp [insert, find?]
  | cons e rest ih =>
    obtain ⟨k, v⟩ := e
    simp only [find?] at ih
    by_cases hlt : key < k
    · simp [insert, find?, hlt]
    · by_cases heq : key = k
      · simp [insert, find?, heq]
      · have hne : (key == k) = false := by simp [heq]
        simp [insert, find?, hlt, heq, List.lookup_cons, hne, ih]

theorem find?_insert_of_ne {α : Type} {key other : String} (h : other ≠ key) (value : α)
    (d : Dict α) : (d.insert key value).find? other = d.find? other := by
  have hne : (other == key) = false := by simp [h]
  induction d with
  | nil => simp [insert, find?, List.lookup_cons, hne]
  | cons e rest ih =>
    obtain ⟨k, v⟩ := e
    simp only [find?] at ih
    by_cases hlt : key < k
    · simp [insert, find?, hlt, List.lookup_cons, hne]
    · by_cases heq : key = k
      · subst heq
        simp [insert, find?, List.lookup_cons, hne]
      · simp [insert, find?, hlt, heq, List.lookup_cons, ih]

end Dict

end RegionIR
