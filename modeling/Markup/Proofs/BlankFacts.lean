/-
Facts about cutting blanks off a text: when nothing is left of it, what is blank
afterwards, and which characters stand at its ends then.
-/
import Markup.Text.Blank
import Mathlib.Data.List.DropRight

namespace Markup.Text

theorem trimWhile_eq_nil_iff {p : Char → Bool} {cs : List Char} :
    trimWhile p cs = [] ↔ ∀ c ∈ cs, p c = true := by
  have hr : trimWhile p cs = (cs.dropWhile p).rdropWhile p := rfl
  rw [hr, List.rdropWhile_eq_nil_iff, ← List.dropWhile_eq_nil_iff, List.dropWhile_idempotent,
    List.dropWhile_eq_nil_iff]

theorem trimWhile_eq_self {p : Char → Bool} {cs : List Char} (h : ∀ c ∈ cs, p c = false) : trimWhile p cs = cs := by
  have hfront : ∀ ds : List Char, (∀ c ∈ ds, p c = false) → ds.dropWhile p = ds := by
    intro ds hds
    cases ds with
    | nil => rfl
    | cons d ds => rw [List.dropWhile_cons, hds d List.mem_cons_self]; rfl
  rw [trimWhile, hfront cs h, dropEndWhile, hfront _ fun c hc => h c (List.mem_reverse.1 hc), List.reverse_reverse]

theorem strip_eq_empty_iff (s : String) : strip s = "" ↔ isAllBlank s = true := by
  rw [isAllBlank, List.all_eq_true, ← trimWhile_eq_nil_iff, strip, ← String.toList_inj,
    String.toList_ofList]
  rfl

theorem mem_of_mem_strip {text : String} {c : Char} (h : c ∈ (strip text).toList) : c ∈ text.toList := by
  rw [strip, trimWhile, dropEndWhile, String.toList_ofList, List.mem_reverse] at h
  have hmem := (List.dropWhile_sublist _).subset h
  exact (List.dropWhile_sublist _).subset (List.mem_reverse.1 hmem)

theorem strip_strip (s : String) : strip (strip s) = strip s := by
  have hfront : ∀ cs : List Char, (trimWhile isAsciiBlank cs).dropWhile isAsciiBlank = trimWhile isAsciiBlank cs := by
    intro cs
    have hprefix : trimWhile isAsciiBlank cs <+: cs.dropWhile isAsciiBlank := List.rdropWhile_prefix _ _
    cases ht : trimWhile isAsciiBlank cs with
    | nil => rfl
    | cons c rest =>
      obtain ⟨more, hmore⟩ := ht ▸ hprefix
      have hc := List.head?_dropWhile_not isAsciiBlank cs
      rw [← hmore, List.cons_append] at hc
      exact List.dropWhile_cons_of_neg (by simpa using hc)
  have hends : ∀ cs : List Char, (trimWhile isAsciiBlank cs).rdropWhile isAsciiBlank = trimWhile isAsciiBlank cs :=
    fun cs => List.rdropWhile_idempotent _ _
  have hall : ∀ cs : List Char, trimWhile isAsciiBlank (trimWhile isAsciiBlank cs) = trimWhile isAsciiBlank cs := by
    intro cs
    calc trimWhile isAsciiBlank (trimWhile isAsciiBlank cs)
        = ((trimWhile isAsciiBlank cs).dropWhile isAsciiBlank).rdropWhile isAsciiBlank := rfl
      _ = trimWhile isAsciiBlank cs := by rw [hfront, hends]
  rw [strip, strip, String.toList_ofList, hall]

theorem stripStart_stripStart (s : String) : stripStart (stripStart s) = stripStart s := by
  rw [stripStart, stripStart, String.toList_ofList, List.dropWhile_idempotent]

theorem stripEnd_stripEnd (s : String) : stripEnd (stripEnd s) = stripEnd s := by
  have hr : ∀ cs : List Char, dropEndWhile isAsciiBlank cs = cs.rdropWhile isAsciiBlank := fun _ => rfl
  rw [stripEnd, stripEnd, String.toList_ofList, hr, hr, List.rdropWhile_idempotent]

/-- Cutting one end and then the other is cutting both. -/
theorem stripEnd_stripStart (s : String) : stripEnd (stripStart s) = strip s := by
  rw [stripEnd, stripStart, String.toList_ofList]
  rfl

theorem isAllBlank_stripStart (s : String) : isAllBlank (stripStart s) = isAllBlank s := by
  rw [Bool.eq_iff_iff, isAllBlank, isAllBlank, List.all_eq_true, List.all_eq_true,
    ← List.dropWhile_eq_nil_iff, ← List.dropWhile_eq_nil_iff, stripStart, String.toList_ofList,
    List.dropWhile_idempotent]

theorem isAllBlank_stripEnd (s : String) : isAllBlank (stripEnd s) = isAllBlank s := by
  rw [Bool.eq_iff_iff, isAllBlank, isAllBlank, List.all_eq_true, List.all_eq_true, ← List.rdropWhile_eq_nil_iff,
    ← List.rdropWhile_eq_nil_iff, stripEnd, String.toList_ofList]
  exact Eq.congr_left (List.rdropWhile_idempotent _ _)

/-! ## What stands at the ends -/

/-- Whether a text begins with a character that is not blank. -/
def BeginsSolid (s : String) : Prop := ∃ c, s.toList.head? = some c ∧ isAsciiBlank c = false

/-- Whether a text ends with a character that is not blank. -/
def EndsSolid (s : String) : Prop := ∃ c, s.toList.getLast? = some c ∧ isAsciiBlank c = false

theorem beginsSolid_stripStart {s : String} (h : isAllBlank s = false) : BeginsSolid (stripStart s) := by
  have hc := List.head?_dropWhile_not isAsciiBlank s.toList
  rw [BeginsSolid, stripStart, String.toList_ofList]
  cases hd : s.toList.dropWhile isAsciiBlank with
  | nil =>
    rw [isAllBlank, List.all_eq_true.2 (List.dropWhile_eq_nil_iff.1 hd)] at h
    cases h
  | cons c rest =>
    rw [hd] at hc
    exact ⟨c, rfl, hc⟩

theorem endsSolid_stripEnd {s : String} (h : isAllBlank s = false) : EndsSolid (stripEnd s) := by
  have hreverse : isAllBlank (.ofList s.toList.reverse) = false := by
    rw [isAllBlank, String.toList_ofList, List.all_reverse]
    exact h
  obtain ⟨c, hc, hb⟩ := beginsSolid_stripStart hreverse
  rw [stripStart, String.toList_ofList, String.toList_ofList] at hc
  exact ⟨c, by rw [stripEnd, String.toList_ofList, dropEndWhile, List.getLast?_reverse, hc], hb⟩

theorem BeginsSolid.stripEnd {s : String} (h : BeginsSolid s) : BeginsSolid (stripEnd s) := by
  obtain ⟨c, hc, hb⟩ := h
  obtain ⟨cs, hs⟩ := List.head?_eq_some_iff.1 hc
  have hprefix : dropEndWhile isAsciiBlank s.toList <+: s.toList := List.rdropWhile_prefix _ _
  rw [BeginsSolid, Text.stripEnd, String.toList_ofList]
  cases hd : dropEndWhile isAsciiBlank s.toList with
  | nil =>
    have hblank := List.rdropWhile_eq_nil_iff.1 hd c (by rw [hs]; exact List.mem_cons_self)
    rw [hb] at hblank
    cases hblank
  | cons d rest =>
    rw [hd, hs] at hprefix
    exact ⟨c, by rw [List.head?_cons, (List.cons_prefix_cons.1 hprefix).1], hb⟩

end Markup.Text
