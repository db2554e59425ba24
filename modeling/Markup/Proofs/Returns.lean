/-
Texts in which every return stands before a newline (`Paired`).

In such a text `unifyNewlines` only takes the returns out
(`unifyNewlines_of_paired`), and nothing is lost with them: cutting blanks off
commutes with it, as does putting a value for a placeholder whose name has
neither of the two characters (`withoutReturns_substituteChars`), and what comes
of it is paired again. Places after a paired text are in the same line and column
without its returns (`Position.Alike.advance`).
-/
import Markup.Text.Line
import Markup.Text.Placeholder
import Markup.Proofs.BlankFacts
import Markup.Position

namespace Markup

namespace Text

/-- Whether every return stands before a newline. -/
def Paired : List Char → Prop
  | [] => True
  | c :: cs => (c = '\r' → cs.head? = some '\n') ∧ Paired cs

instance decidablePaired : DecidablePred Paired
  | [] => isTrue trivial
  | c :: cs =>
    have := decidablePaired cs
    inferInstanceAs (Decidable ((c = '\r' → cs.head? = some '\n') ∧ Paired cs))

/-- The characters other than returns. -/
def withoutReturns (cs : List Char) : List Char := cs.filter (· != '\r')

/-- A text with every line end a newline, as a file is read. -/
def unify (s : String) : String := .ofList (unifyNewlines s.toList)

@[simp] theorem withoutReturns_nil : withoutReturns [] = [] := rfl

@[simp] theorem withoutReturns_return (cs : List Char) : withoutReturns ('\r' :: cs) = withoutReturns cs := rfl

@[simp] theorem withoutReturns_cons {c : Char} (h : c ≠ '\r') (cs : List Char) :
    withoutReturns (c :: cs) = c :: withoutReturns cs := by
  simp [withoutReturns, h]

@[simp] theorem withoutReturns_append (cs ds : List Char) :
    withoutReturns (cs ++ ds) = withoutReturns cs ++ withoutReturns ds := List.filter_append ..

theorem withoutReturns_of_notMem {cs : List Char} (h : '\r' ∉ cs) : withoutReturns cs = cs := by
  refine List.filter_eq_self.2 fun c hc => ?_
  rw [bne_iff_ne]
  rintro rfl
  exact h hc

theorem mem_withoutReturns {c : Char} {cs : List Char} : c ∈ withoutReturns cs ↔ c ∈ cs ∧ c ≠ '\r' := by
  simp [withoutReturns, List.mem_filter]

/-! ## Paired texts -/

theorem Paired.of_notMem {cs : List Char} (h : '\r' ∉ cs) : Paired cs := by
  induction cs with
  | nil => trivial
  | cons c cs ih =>
    rw [List.mem_cons, not_or] at h
    exact ⟨fun hc => absurd hc.symm h.1, ih h.2⟩

theorem Paired.append {cs ds : List Char} (h : Paired cs) (k : Paired ds) : Paired (cs ++ ds) := by
  induction cs with
  | nil => exact k
  | cons c cs ih =>
    refine ⟨fun hc => ?_, ih h.2⟩
    obtain ⟨rest, rfl⟩ := List.head?_eq_some_iff.1 (h.1 hc)
    rfl

theorem Paired.of_append_right {cs ds : List Char} (h : Paired (cs ++ ds)) : Paired ds := by
  induction cs with
  | nil => exact h
  | cons c cs ih => exact ih h.2

/-- A paired text is cut in two paired ones anywhere but between a return and its newline. -/
theorem Paired.of_append_left {cs ds : List Char} (h : Paired (cs ++ ds))
    (hd : cs.getLast? = some '\r' → ds.head? ≠ some '\n') : Paired cs := by
  induction cs with
  | nil => trivial
  | cons c cs ih =>
    cases cs with
    | nil =>
      refine ⟨fun hc => absurd (h.1 hc) (hd (by rw [hc]; rfl)), trivial⟩
    | cons d cs => exact ⟨h.1, ih h.2 (by simpa using hd)⟩

theorem Paired.ne_return {c : Char} {cs : List Char} (h : Paired (c :: cs))
    (hne : ∀ rest, c = '\r' → cs = '\n' :: rest → False) : c ≠ '\r' := by
  intro hc
  obtain ⟨rest, hr⟩ := List.head?_eq_some_iff.1 (h.1 hc)
  exact hne rest hc hr

/-- Where returns are paired, they are all that unifying takes out. -/
theorem unifyNewlines_of_paired {cs : List Char} (h : Paired cs) : unifyNewlines cs = withoutReturns cs := by
  fun_induction unifyNewlines cs with
  | case1 => rfl
  | case2 cs ih => rw [ih h.2.2]; rfl
  | case3 c cs hne ih =>
    have hc := h.ne_return hne
    rw [withoutReturns_cons hc, ih h.2, if_neg (by simpa using hc)]

theorem unify_of_paired {s : String} (h : Paired s.toList) : unify s = .ofList (withoutReturns s.toList) := by
  rw [unify, unifyNewlines_of_paired h]

/-! ## Cutting blanks -/

theorem dropWhile_withoutReturns {p : Char → Bool} (hp : p '\r' = true) (cs : List Char) :
    (withoutReturns cs).dropWhile p = withoutReturns (cs.dropWhile p) := by
  induction cs with
  | nil => rfl
  | cons c cs ih =>
    by_cases hc : c = '\r'
    · subst hc
      rw [withoutReturns_return, List.dropWhile_cons_of_pos hp, ih]
    · rw [withoutReturns_cons hc]
      cases h : p c with
      | true => rw [List.dropWhile_cons_of_pos h, List.dropWhile_cons_of_pos h, ih]
      | false =>
        rw [List.dropWhile_cons_of_neg (by simp [h]), List.dropWhile_cons_of_neg (by simp [h]),
          withoutReturns_cons hc]

theorem dropEndWhile_withoutReturns {p : Char → Bool} (hp : p '\r' = true) (cs : List Char) :
    dropEndWhile p (withoutReturns cs) = withoutReturns (dropEndWhile p cs) := by
  have hreverse : ∀ ds : List Char, (withoutReturns ds).reverse = withoutReturns ds.reverse :=
    fun ds => (List.filter_reverse).symm
  rw [dropEndWhile, hreverse, dropWhile_withoutReturns hp, hreverse, dropEndWhile]

theorem trimWhile_withoutReturns {p : Char → Bool} (hp : p '\r' = true) (cs : List Char) :
    trimWhile p (withoutReturns cs) = withoutReturns (trimWhile p cs) := by
  rw [trimWhile, dropWhile_withoutReturns hp, dropEndWhile_withoutReturns hp, trimWhile]

theorem Paired.dropWhile {cs : List Char} (h : Paired cs) (p : Char → Bool) : Paired (cs.dropWhile p) := by
  rw [← List.takeWhile_append_dropWhile (p := p) (l := cs)] at h
  exact h.of_append_right

theorem Paired.dropEndWhile {cs : List Char} (h : Paired cs) {p : Char → Bool} (hp : p '\r' = true) :
    Paired (Text.dropEndWhile p cs) := by
  obtain ⟨rest, hr⟩ : Text.dropEndWhile p cs <+: cs := List.rdropWhile_prefix p cs
  rw [← hr] at h
  refine h.of_append_left fun hl => ?_
  -- What stays ends with a character that is not cut off, so with no return.
  obtain ⟨hne, hlast⟩ := List.mem_getLast?_eq_getLast hl
  exact absurd hp (hlast ▸ List.rdropWhile_last_not p cs hne)

theorem Paired.trimWhile {cs : List Char} (h : Paired cs) {p : Char → Bool} (hp : p '\r' = true) :
    Paired (Text.trimWhile p cs) := (h.dropWhile p).dropEndWhile hp

theorem all_withoutReturns {p : Char → Bool} (hp : p '\r' = true) (cs : List Char) :
    (withoutReturns cs).all p = cs.all p := by
  induction cs with
  | nil => rfl
  | cons c cs ih =>
    by_cases hc : c = '\r'
    · rw [hc, withoutReturns_return, List.all_cons, hp, Bool.true_and, ih]
    · rw [withoutReturns_cons hc, List.all_cons, List.all_cons, ih]

/-! ## Putting values for placeholders -/

/-- A name without the two characters stands where it stands without returns. -/
theorem isPrefixOf_withoutReturns {name : List Char} (hr : '\r' ∉ name) (hn : '\n' ∉ name) {cs : List Char}
    (h : Paired cs) : name.isPrefixOf (withoutReturns cs) = name.isPrefixOf cs := by
  induction name generalizing cs with
  | nil => simp
  | cons a name ih =>
    rw [List.mem_cons, not_or] at hr hn
    cases cs with
    | nil => rfl
    | cons c cs =>
      by_cases hc : c = '\r'
      · obtain ⟨rest, rfl⟩ := List.head?_eq_some_iff.1 (h.1 hc)
        subst hc
        have hfirst : (a == '\n') = false ∧ (a == '\r') = false :=
          ⟨beq_eq_false_iff_ne.2 (Ne.symm hn.1), beq_eq_false_iff_ne.2 (Ne.symm hr.1)⟩
        rw [withoutReturns_return, withoutReturns_cons (by decide), List.isPrefixOf, List.isPrefixOf, hfirst.1, hfirst.2,
          Bool.false_and, Bool.false_and]
      · rw [withoutReturns_cons hc, List.isPrefixOf, List.isPrefixOf, ih hr.2 hn.2 h.2]

section

variable {name value : List Char} (hr : '\r' ∉ name) (hn : '\n' ∉ name)
include hr hn

/-- Putting a value for a placeholder commutes with taking out the returns. -/
theorem withoutReturns_substituteChars {skip : Nat} {cs : List Char} (h : Paired cs)
    (hs : '\r' ∉ cs.take skip) : substituteChars name (withoutReturns value) skip (withoutReturns cs) =
      withoutReturns (substituteChars name value skip cs) := by
  fun_induction substituteChars name value skip cs with
  | case1 => simp [substituteChars]
  | case2 skip c cs ih =>
    rw [List.take_succ_cons, List.mem_cons, not_or] at hs
    rw [withoutReturns_cons (Ne.symm hs.1), substituteChars, ih h.2 hs.2]
  | case3 c cs hm ih =>
    rw [Bool.and_eq_true, beq_iff_eq] at hm
    obtain ⟨rfl, hprefix⟩ := hm
    have htake : cs.take name.length = name := List.prefix_iff_eq_take.1 (List.isPrefixOf_iff_prefix.1 hprefix) |>.symm
    rw [withoutReturns_cons (by decide), substituteChars, isPrefixOf_withoutReturns hr hn h.2, hprefix,
      ih h.2 (by rwa [htake]), withoutReturns_append]
    rfl
  | case4 c cs hm ih =>
    by_cases hc : c = '\r'
    · rw [hc, withoutReturns_return, withoutReturns_return, ih h.2 (by simp)]
    · rw [withoutReturns_cons hc, withoutReturns_cons hc, substituteChars, isPrefixOf_withoutReturns hr hn h.2,
        if_neg hm, ih h.2 (by simp)]

omit hr hn in
theorem Paired.substituteChars (hv : Paired value) {skip : Nat} {cs : List Char} (h : Paired cs) :
    Paired (substituteChars name value skip cs) := by
  fun_induction Text.substituteChars name value skip cs with
  | case1 => exact h
  | case2 skip c cs ih => exact ih h.2
  | case3 c cs hm ih => exact hv.append (ih h.2)
  | case4 c cs hm ih =>
    refine ⟨fun hc => ?_, ih h.2⟩
    obtain ⟨rest, rfl⟩ := List.head?_eq_some_iff.1 (h.1 hc)
    rfl

end

/-! ## Texts with and without returns -/

/-- Whether a text is paired, and another is the same without its returns. -/
structure Unifies (s t : String) : Prop where
  paired : Paired s.toList
  toList : t.toList = withoutReturns s.toList

namespace Unifies

variable {s t v w : String}

theorem ofList {cs : List Char} (h : Paired cs) : Unifies (.ofList cs) (.ofList (withoutReturns cs)) :=
  ⟨by rwa [String.toList_ofList], by rw [String.toList_ofList, String.toList_ofList]⟩

theorem unify (h : Paired s.toList) : Unifies s (unify s) :=
  ⟨h, by rw [unify_of_paired h, String.toList_ofList]⟩

theorem eq_unify (h : Unifies s t) : t = Text.unify s := by
  rw [unify_of_paired h.paired, ← h.toList, String.ofList_toList]

theorem of_notMem (h : '\r' ∉ s.toList) : Unifies s s :=
  ⟨.of_notMem h, (withoutReturns_of_notMem h).symm⟩

theorem eq_of_notMem (h : Unifies s t) (hs : '\r' ∉ s.toList) : t = s := by
  rw [← String.toList_inj, h.toList, withoutReturns_of_notMem hs]

theorem append (h : Unifies s t) (k : Unifies v w) : Unifies (s ++ v) (t ++ w) :=
  ⟨by rw [String.toList_append]; exact h.paired.append k.paired,
    by rw [String.toList_append, String.toList_append, withoutReturns_append, h.toList, k.toList]⟩

theorem isAllBlank_eq (h : Unifies s t) : isAllBlank s = isAllBlank t := by
  rw [isAllBlank, isAllBlank, h.toList, all_withoutReturns rfl]

theorem contains_newline_eq (h : Unifies s t) : s.toList.contains '\n' = t.toList.contains '\n' := by
  rw [Bool.eq_iff_iff, List.contains_iff_mem, List.contains_iff_mem, h.toList, mem_withoutReturns]
  simp

theorem stripStart (h : Unifies s t) : Unifies (stripStart s) (stripStart t) := by
  rw [Text.stripStart, Text.stripStart, h.toList, dropWhile_withoutReturns rfl]
  exact .ofList (h.paired.dropWhile _)

theorem stripEnd (h : Unifies s t) : Unifies (stripEnd s) (stripEnd t) := by
  rw [Text.stripEnd, Text.stripEnd, h.toList, dropEndWhile_withoutReturns rfl]
  exact .ofList (h.paired.dropEndWhile rfl)

theorem strip (h : Unifies s t) : Unifies (strip s) (strip t) := by
  rw [Text.strip, Text.strip, h.toList, trimWhile_withoutReturns rfl]
  exact .ofList (h.paired.trimWhile rfl)

theorem substitute (h : Unifies s t) (k : Unifies v w) {name : String} (hr : '\r' ∉ name.toList)
    (hn : '\n' ∉ name.toList) : Unifies (substitute s name v) (substitute t name w) := by
  rw [Text.substitute, Text.substitute, h.toList, k.toList,
    withoutReturns_substituteChars hr hn h.paired (by simp)]
  exact .ofList (k.paired.substituteChars h.paired)

end Unifies

end Text

/-! ## Places -/

/-- Whether two places are in the same line and column. -/
def Position.Alike (p q : Position) : Prop := p.line = q.line ∧ p.column = q.column

namespace Position.Alike

variable {p q : Position}

theorem refl (p : Position) : p.Alike p := ⟨rfl, rfl⟩

theorem step (h : p.Alike q) (c : Char) : (p.step c).Alike (q.step c) := by
  unfold Position.step
  split
  next => exact ⟨congrArg (· + 1) h.1, rfl⟩
  next => exact ⟨h.1, congrArg (· + 1) h.2⟩

theorem advance (h : p.Alike q) {cs : List Char} (hc : Text.Paired cs) :
    (p.advance cs).Alike (q.advance (Text.withoutReturns cs)) := by
  fun_induction Text.unifyNewlines cs generalizing p q with
  | case1 => exact h
  | case2 cs ih =>
    -- The return only moves the column, and the newline sets it again.
    have hline : ((p.step '\r').step '\n').Alike (q.step '\n') := ⟨congrArg (· + 1) h.1, rfl⟩
    exact ih hline hc.2.2
  | case3 c cs hne ih =>
    rw [Text.withoutReturns_cons (hc.ne_return hne), advance_cons, advance_cons]
    exact ih (h.step c) hc.2

end Position.Alike

end Markup
