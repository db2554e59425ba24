/-
Many entries into a table, one behind the other.

The last value entered under a name counts, or else the one that was there
(`get?_insertAll`); a name keeps the place where it first came (`names_insertAll`).
What changes no answer changes nothing (`insertAll_eq_self`).
-/
import Markup.Table
import Mathlib.Data.List.Basic

namespace Markup

namespace Table

variable {α : Type}

/-- Enters values under names, one behind the other. -/
def insertAll (t : Table α) (writes : List (String × α)) : Table α :=
  writes.foldl (fun t w => t.insert w.1 w.2) t

theorem insertAll_cons (t : Table α) (w : String × α) (writes : List (String × α)) :
    t.insertAll (w :: writes) = (t.insert w.1 w.2).insertAll writes := rfl

theorem insertAll_append (t : Table α) (writes more : List (String × α)) :
    t.insertAll (writes ++ more) = (t.insertAll writes).insertAll more := List.foldl_append

/-- The last value under a name counts, or else the one that was there. -/
theorem get?_insertAll (t : Table α) (writes : List (String × α)) (name : String) :
    (t.insertAll writes).get? name = ((writes.reverse.find? (·.1 = name)).map (·.2)).or (t.get? name) := by
  induction writes generalizing t with
  | nil => rfl
  | cons w writes ih =>
    rw [insertAll_cons, ih, get?_insert, List.reverse_cons, List.find?_append]
    cases writes.reverse.find? (·.1 = name) with
    | some other => rfl
    | none =>
      by_cases hn : w.1 = name
      · simp [hn]
      · simp [hn, Ne.symm hn]

theorem get?_eq_none_iff {t : Table α} {name : String} : t.get? name = none ↔ name ∉ t.names := by
  obtain ⟨entries⟩ := t
  rw [get?, names]
  induction entries with
  | nil => simp [lookupEntry]
  | cons entry rest ih =>
    obtain ⟨key, value⟩ := entry
    rw [lookupEntry]
    by_cases hk : name = key
    · simp [hk]
    · simp [hk, ih]

/-- Writes leave the first entry in its place, and go on behind it with those under other names. -/
theorem insertAll_cons_entry (key : String) (old : α) (rest writes : List (String × α)) :
    ∃ value, (Table.mk ((key, old) :: rest)).insertAll writes =
      ⟨(key, value) :: ((Table.mk rest).insertAll (writes.filter (·.1 ≠ key))).entries⟩ := by
  induction writes generalizing old rest with
  | nil => exact ⟨old, rfl⟩
  | cons w writes ih =>
    rw [insertAll_cons, insert, insertEntry]
    by_cases hk : w.1 = key
    · rw [if_pos hk, List.filter_cons_of_neg (by simpa using hk)]
      exact ih w.2 rest
    · rw [if_neg hk, List.filter_cons_of_pos (by simpa using hk)]
      exact ih old (insertEntry w.1 w.2 rest)

theorem insertAll_eq_self {t : Table α} {writes : List (String × α)}
    (h : ∀ name, (t.insertAll writes).get? name = t.get? name) : t.insertAll writes = t := by
  obtain ⟨entries⟩ := t
  induction entries generalizing writes with
  | nil =>
    cases writes with
    | nil => rfl
    | cons w writes =>
      have hw := h w.1
      rw [get?_insertAll, show (Table.mk ([] : List (String × α))).get? w.1 = none from rfl, Option.or_none,
        Option.map_eq_none_iff, List.find?_eq_none] at hw
      exact absurd (decide_eq_true rfl) (hw w (by simp))
  | cons entry rest ih =>
    obtain ⟨key, old⟩ := entry
    obtain ⟨value, he⟩ := insertAll_cons_entry key old rest writes
    have hvalue : value = old := by
      have hk := h key
      rw [he] at hk
      simpa [get?, lookupEntry] using hk
    subst hvalue
    rw [he, ih]
    intro name
    by_cases hn : name = key
    · have hnone : (writes.filter (·.1 ≠ key)).reverse.find? (·.1 = name) = none := by
        simp [List.find?_eq_none, hn]
      rw [get?_insertAll, hnone]
      rfl
    · have hname := h name
      rw [he] at hname
      simpa [get?, lookupEntry, hn] using hname

/-- Names come in the order in which they are first entered, behind those that were there. -/
theorem names_insertAll (t : Table α) (writes : List (String × α)) :
    (t.insertAll writes).names = t.names ++ ((writes.map (·.1)).removeAll t.names).eraseDups := by
  induction writes generalizing t with
  | nil => simp [insertAll, List.removeAll]
  | cons w writes ih =>
    rw [insertAll_cons, ih, names_insert, List.map_cons, List.cons_removeAll]
    by_cases hw : w.1 ∈ t.names
    · simp [hw]
    · have hrest : (writes.map (·.1)).removeAll (t.names ++ [w.1]) =
          ((writes.map (·.1)).removeAll t.names).filter (fun name => !name == w.1) := by
        simp [List.removeAll, List.filter_filter, beq_eq_decide, Bool.and_comm]
      simp [hw, hrest, List.eraseDups_cons]

theorem names_insertAll_empty (writes : List (String × α)) :
    (empty.insertAll writes).names = (writes.map (·.1)).eraseDups := by
  rw [names_insertAll]
  simp [empty, names, List.removeAll]

theorem nodup_names_insertAll {t : Table α} (h : t.names.Nodup) (writes : List (String × α)) :
    (t.insertAll writes).names.Nodup := by
  induction writes generalizing t with
  | nil => exact h
  | cons w writes ih => exact ih (nodup_names_insert h w.1 w.2)

/-! ## The last value under a name -/

/-- A value is the last one that is entered under a name. -/
def IsLast (writes : List (String × α)) (name : String) (value : α) : Prop :=
  ∃ before after, writes = before ++ (name, value) :: after ∧ name ∉ after.map (·.1)

theorem isLast_iff {writes : List (String × α)} {name : String} {value : α} :
    IsLast writes name value ↔ (writes.reverse.find? (·.1 = name)).map (·.2) = some value := by
  rw [Option.map_eq_some_iff]
  constructor
  · rintro ⟨before, after, rfl, ha⟩
    refine ⟨(name, value), ?_, rfl⟩
    rw [List.find?_eq_some_iff_append]
    refine ⟨by simp, after.reverse, before.reverse, by simp, fun entry he => ?_⟩
    have hne : entry.1 ≠ name := fun h => ha (h ▸ List.mem_map_of_mem (List.mem_reverse.1 he))
    simpa using hne
  · rintro ⟨⟨key, _⟩, hf, rfl⟩
    obtain ⟨hk, after, before, hw, ha⟩ := List.find?_eq_some_iff_append.1 hf
    obtain rfl : key = name := by simpa using hk
    refine ⟨before.reverse, after.reverse, ?_, ?_⟩
    · rw [← List.reverse_reverse writes, hw]
      simp
    · rintro hm
      obtain ⟨entry, he, hn⟩ := List.mem_map.1 hm
      have hne := ha entry (List.mem_reverse.1 he)
      simp [hn] at hne

theorem get?_insertAll_empty_iff {writes : List (String × α)} {name : String} {value : α} :
    (empty.insertAll writes).get? name = some value ↔ IsLast writes name value := by
  rw [get?_insertAll, isLast_iff, show (empty : Table α).get? name = none from rfl, Option.or_none]

/-- The last value under a name is the last of the later writes, or, if there is none, of the earlier ones. -/
theorem isLast_append_iff {writes more : List (String × α)} {name : String} {value : α} :
    IsLast (writes ++ more) name value ↔
      IsLast more name value ∨ name ∉ more.map (·.1) ∧ IsLast writes name value := by
  have hnone : more.reverse.find? (·.1 = name) = none ↔ name ∉ more.map (·.1) := by
    rw [List.find?_eq_none, List.mem_map]
    exact ⟨fun h ⟨entry, hm, hn⟩ => h entry (List.mem_reverse.2 hm) (decide_eq_true hn),
      fun h entry hm hn => h ⟨entry, List.mem_reverse.1 hm, of_decide_eq_true hn⟩⟩
  rw [isLast_iff, isLast_iff, isLast_iff, List.reverse_append, List.find?_append, ← hnone]
  cases more.reverse.find? (·.1 = name) with
  | none => simp
  | some entry => simp

theorem isLast_of_mem {writes : List (String × α)} (hn : (writes.map (·.1)).Nodup) {name : String} {value : α}
    (hm : (name, value) ∈ writes) : IsLast writes name value := by
  obtain ⟨before, after, rfl⟩ := List.append_of_mem hm
  refine ⟨before, after, rfl, ?_⟩
  rw [List.map_append, List.map_cons, List.nodup_append] at hn
  exact (List.nodup_cons.1 hn.2.1).1

end Table

end Markup
