/-
Tables: values by name, in the order in which the names first came.

Entering a value under a name that is there puts it in the old one's place.
What a table answers for a name is `get?`; `get?_insert_self` and
`get?_insert_of_ne` say what entering does to it, `names_insert` what it
does to the names.
-/
namespace Markup

/-- Values by name. -/
structure Table (α : Type) where
  entries : List (String × α)
  deriving DecidableEq, Repr, Inhabited

namespace Table

variable {α : Type}

/-- The table without entries. -/
def empty : Table α := ⟨[]⟩

/-- The first value under a name. -/
def lookupEntry (name : String) : List (String × α) → Option α
  | [] => none
  | (key, value) :: rest => if name = key then some value else lookupEntry name rest

/-- The value under a name. -/
def get? (t : Table α) (name : String) : Option α := lookupEntry name t.entries

/-- The names, in the order in which they first came. -/
def names (t : Table α) : List String := t.entries.map (·.1)

/-- Puts a value in the place of the one under its name, or at the end. -/
def insertEntry (name : String) (value : α) : List (String × α) → List (String × α)
  | [] => [(name, value)]
  | (key, old) :: rest =>
    if name = key then (key, value) :: rest else (key, old) :: insertEntry name value rest

/-- Enters a value under a name. -/
def insert (t : Table α) (name : String) (value : α) : Table α :=
  ⟨insertEntry name value t.entries⟩

/-- The table of a list of entries; of two under one name the later counts. -/
def ofList (entries : List (String × α)) : Table α :=
  entries.foldl (fun t entry => t.insert entry.1 entry.2) empty

theorem lookupEntry_insertEntry (entries : List (String × α)) (name other : String) (value : α) :
    lookupEntry other (insertEntry name value entries) =
      if other = name then some value else lookupEntry other entries := by
  induction entries with
  | nil => rfl
  | cons entry rest ih =>
    obtain ⟨key, old⟩ := entry
    simp only [insertEntry]
    by_cases h : name = key
    · subst h
      simp only [if_true, lookupEntry]
      by_cases h' : other = name <;> simp [h']
    · simp only [h, if_false, lookupEntry, ih]
      by_cases h' : other = key
      · subst h'; simp [Ne.symm h]
      · simp [h']

theorem get?_insert (t : Table α) (name other : String) (value : α) :
    (t.insert name value).get? other = if other = name then some value else t.get? other :=
  lookupEntry_insertEntry t.entries name other value

theorem get?_insert_self (t : Table α) (name : String) (value : α) :
    (t.insert name value).get? name = some value := by simp [get?_insert]

theorem get?_insert_of_ne (t : Table α) {name other : String} (value : α) (h : other ≠ name) :
    (t.insert name value).get? other = t.get? other := by simp [get?_insert, h]

theorem mem_of_lookupEntry {entries : List (String × α)} {name : String} {value : α}
    (h : lookupEntry name entries = some value) : (name, value) ∈ entries := by
  induction entries with
  | nil => cases h
  | cons entry rest ih =>
    obtain ⟨key, old⟩ := entry
    simp only [lookupEntry] at h
    split at h
    next he => cases h; exact he ▸ List.mem_cons_self
    next => exact List.mem_cons_of_mem _ (ih h)

theorem mem_of_get? {t : Table α} {name : String} {value : α} (h : t.get? name = some value) :
    (name, value) ∈ t.entries := mem_of_lookupEntry h

theorem mem_insertEntry {entries : List (String × α)} {name : String} {value : α} {entry : String × α}
    (h : entry ∈ insertEntry name value entries) : entry = (name, value) ∨ entry ∈ entries := by
  induction entries with
  | nil => exact .inl (List.mem_singleton.1 h)
  | cons first rest ih =>
    obtain ⟨key, old⟩ := first
    simp only [insertEntry] at h
    split at h
    next he =>
      rcases List.mem_cons.1 h with rfl | h
      · exact .inl (he ▸ rfl)
      · exact .inr (List.mem_cons_of_mem _ h)
    next =>
      rcases List.mem_cons.1 h with rfl | h
      · exact .inr List.mem_cons_self
      · exact (ih h).imp id (List.mem_cons_of_mem _)

theorem mem_insert {t : Table α} {name : String} {value : α} {entry : String × α}
    (h : entry ∈ (t.insert name value).entries) : entry = (name, value) ∨ entry ∈ t.entries := mem_insertEntry h

theorem map_insertEntry (entries : List (String × α)) (name : String) (value : α) :
    (insertEntry name value entries).map (·.1) =
      if name ∈ entries.map (·.1) then entries.map (·.1) else entries.map (·.1) ++ [name] := by
  induction entries with
  | nil => simp [insertEntry]
  | cons entry rest ih =>
    obtain ⟨key, old⟩ := entry
    by_cases h : name = key
    · subst h; simp [insertEntry]
    · simp only [insertEntry, h, if_false, List.map_cons, ih, List.mem_cons, false_or]
      split <;> rfl

theorem names_insert (t : Table α) (name : String) (value : α) :
    (t.insert name value).names = if name ∈ t.names then t.names else t.names ++ [name] :=
  map_insertEntry t.entries name value

theorem names_subset_insert (t : Table α) (name : String) (value : α) :
    t.names ⊆ (t.insert name value).names := by
  rw [names_insert]
  split
  next => exact List.Subset.refl _
  next => exact List.subset_append_left _ _

theorem nodup_names_insert {t : Table α} (h : t.names.Nodup) (name : String) (value : α) :
    (t.insert name value).names.Nodup := by
  rw [names_insert]
  split
  next => exact h
  next hn =>
    refine List.nodup_append.2 ⟨h, by simp, fun other ho last hl he => hn ?_⟩
    rwa [← List.mem_singleton.1 hl, ← he]

end Table

end Markup
