/-
What a line of an outline says.

A line tells its node's kind, by its first letter, and all of its payload but what a
number is beyond the way it is printed (`Head.alike_of_line`): a text is quoted, and a
name has neither blanks nor dollars, so the words of a definition fall apart. No line has
a line end in it (`Head.onOneLine_line`).
-/
import Mathlib.Data.List.DropRight
import Markup.Node.Outline
import Markup.Proofs.PrintedNumbers
import Markup.Proofs.Quotes
import Markup.Proofs.ReadNodes

namespace Markup

namespace Text

/-! ## Name characters -/

/-- The blanks of the wide sense. -/
def blanks : List Nat := List.range' 9 5 ++ List.range' 28 5 ++ [0x85, 0xA0, 0x1680] ++ List.range' 0x2000 11 ++
  [0x2028, 0x2029, 0x202F, 0x205F, 0x3000]

theorem toNat_mem_blanks {c : Char} (h : isBlank c = true) : c.toNat ∈ blanks := by
  simp only [isBlank, Bool.or_eq_true, Bool.and_eq_true, decide_eq_true_eq, beq_iff_eq] at h
  simp only [blanks, List.mem_append, List.mem_range'_1, List.mem_cons, List.not_mem_nil, or_false]
  omega

theorem isBlank_of_isNameChar {c : Char} (h : isNameChar c = true) : isBlank c = false := by
  have hall : ∀ n ∈ blanks, letterRanges.hasCode n = false ∧ digitRanges.hasCode n = false ∧
      n ∉ ['-', '_', '!', '\'', '"', '/', '.'].map Char.toNat := by decide +kernel
  rw [Bool.eq_false_iff]
  intro hb
  obtain ⟨hletter, hdigit, hmark⟩ := hall _ (toNat_mem_blanks hb)
  simp only [isNameChar, isLetter, isDigit, Ranges.has, hletter, hdigit, Bool.false_or, List.contains_iff_mem] at h
  exact hmark (List.mem_map_of_mem h)

/-! ## One line -/

/-- Whether a text has no line end in it. -/
def OnOneLine (s : String) : Prop := ∀ c ∈ s.toList, isLineEnd c = false

instance (s : String) : Decidable (OnOneLine s) :=
  decidable_of_iff (s.toList.all (!isLineEnd ·) = true) (by simp [OnOneLine])

theorem OnOneLine.append {s t : String} (hs : OnOneLine s) (ht : OnOneLine t) : OnOneLine (s ++ t) := by
  intro c hc
  rw [String.toList_append, List.mem_append] at hc
  exact hc.elim (hs c) (ht c)

theorem OnOneLine.intercalate {words : List String} (h : ∀ word ∈ words, OnOneLine word) :
    OnOneLine (" ".intercalate words) := by
  induction words with
  | nil => exact nofun
  | cons word rest ih =>
    obtain ⟨hword, hrest⟩ := List.forall_mem_cons.1 h
    cases rest with
    | nil => rwa [String.intercalate_singleton]
    | cons other rest =>
      rw [String.intercalate_cons_cons]
      exact (hword.append (by decide)).append (ih hrest)

theorem onOneLine_of_isBlank {s : String} (h : ∀ c ∈ s.toList, isBlank c = false) : OnOneLine s := by
  intro c hc
  have hb := h c hc
  rw [Bool.eq_false_iff] at hb ⊢
  intro he
  apply hb
  simp only [isLineEnd, isBlank, Bool.or_eq_true, Bool.and_eq_true, decide_eq_true_eq, beq_iff_eq] at he ⊢
  omega

theorem onOneLine_quote (text : String) : OnOneLine (quote text) := fun _ => isLineEnd_of_mem_quote

end Text

open Text

theorem IsName.isBlank {name : String} (h : IsName name) {c : Char} (hc : c ∈ name.toList) : Text.isBlank c = false :=
  isBlank_of_isNameChar (h c hc)

theorem IsName.onOneLine {name : String} (h : IsName name) : OnOneLine name :=
  onOneLine_of_isBlank fun _ => h.isBlank

theorem isLineEnd_of_isPrintedChar {c : Char} (h : Binary64.isPrintedChar c = true) : isLineEnd c = false := by
  have hall : ∀ n ∈ lineEnds, Binary64.isPrintedChar (Char.ofNat n) = false := by decide
  rw [Bool.eq_false_iff]
  intro he
  have hn := hall _ (toNat_mem_lineEnds he)
  rw [Char.ofNat_toNat, h] at hn
  cases hn

theorem Binary64.onOneLine_toText (number : Binary64) : OnOneLine number.toText :=
  fun _ hc => isLineEnd_of_isPrintedChar (isPrintedChar_of_mem_toText hc)

theorem onOneLine_toString (n : Nat) : OnOneLine (toString n) := by
  intro c hc
  have hdigit : c ∈ Nat.toDigits 10 n := by simpa [Nat.repr] using hc
  exact isLineEnd_of_isPrintedChar (Binary64.isPrintedChar_of_isDigit (Binary64.isDigit_of_mem_toDigits hdigit))

namespace Node

/-! ## Lines -/

/-- What a node's line says, or would say. -/
def Head.line : Head → String
  | .text value => "Text(" ++ quote value ++ ")"
  | .number value => "Number(" ++ value.toText ++ ")"
  | .call name => "Call (" ++ name ++ ")"
  | .use moduleName builtIn => "Use " ++ moduleName ++ (if builtIn then " (internal)" else " (file)")
  | .define name params =>
    .ofList (dropEndWhile Text.isBlank ("Def " ++ name ++ " " ++ " ".intercalate (params.map ("$" ++ ·))).toList)
  | .bind name changes => "Variable #" ++ (if changes then "set " else "let ") ++ name
  | .reference name => "Ref #" ++ name
  | .stray => ""

/-- Whether a node with a head is as one that is read. -/
def Head.AsRead : Head → Prop
  | .text _ | .number _ => True
  | .call name | .use name _ | .bind name _ | .reference name => IsName name
  | .define name params => IsSignature name params
  | .stray => False

theorem AsRead.head {node : Node} (h : node.AsRead) : node.head.AsRead := by
  cases node with
  | reference => exact h.1
  | text | number | call | use | define | bind | stray => exact h

/-- The words of a definition's line. -/
def definitionWords (name : String) (params : List String) : List String :=
  "Def" :: name :: params.map ("$" ++ ·)

theorem isBlank_of_mem_definitionWords {name : String} {params : List String} (h : IsSignature name params)
    {word : String} (hw : word ∈ definitionWords name params) : word ≠ "" ∧ ∀ c ∈ word.toList, Text.isBlank c = false := by
  rw [definitionWords, List.mem_cons, List.mem_cons, List.mem_map] at hw
  rcases hw with rfl | rfl | ⟨param, hp, rfl⟩
  · exact ⟨by decide, by simp [Text.isBlank]⟩
  · exact ⟨h.ne_empty, fun c => h.isName.isBlank⟩
  · refine ⟨fun he => by simpa using congrArg String.toList he, fun c hc => ?_⟩
    rw [String.toList_append, List.mem_append] at hc
    rcases hc with hc | hc
    · have hdollar : ∀ c ∈ "$".toList, Text.isBlank c = false := by simp [Text.isBlank]
      exact hdollar c hc
    · exact (h.params param hp).isBlank hc

theorem dropEndWhile_of_getLast? {p : Char → Bool} {cs : List Char} (h : ∀ c ∈ cs.getLast?, p c = false) :
    dropEndWhile p cs = cs :=
  List.rdropWhile_eq_self_iff.2 fun hne => by simp [h _ (List.getLast?_eq_some_getLast hne)]

/-- Words without blanks, parted by spaces, do not end in a blank. -/
theorem isBlank_of_getLast?_intercalate {words : List String}
    (h : ∀ word ∈ words, word ≠ "" ∧ ∀ c ∈ word.toList, Text.isBlank c = false) :
    ∀ c ∈ (" ".intercalate words).toList.getLast?, Text.isBlank c = false := by
  rcases List.eq_nil_or_concat' words with rfl | ⟨front, last, rfl⟩
  · exact nofun
  · obtain ⟨hne, hlast⟩ := h last (by simp)
    have hnil : last.toList ≠ [] := by simpa using hne
    intro c hc
    refine hlast c (List.mem_of_getLast? ?_)
    by_cases hf : front = []
    · simpa [hf] using hc
    · rw [String.intercalate_append_of_ne_nil hf (List.cons_ne_nil _ _), String.intercalate_singleton,
        String.toList_append, List.getLast?_append_of_ne_nil _ hnil] at hc
      exact hc

theorem line_define {name : String} {params : List String} (h : IsSignature name params) :
    (Head.define name params).line = " ".intercalate (definitionWords name params) := by
  have hlast := isBlank_of_getLast?_intercalate fun word hw => isBlank_of_mem_definitionWords h hw
  rw [Head.line, ← String.toList_inj, String.toList_ofList]
  cases params with
  | nil =>
    have hspace : ("Def " ++ name ++ " " ++ " ".intercalate (([] : List String).map ("$" ++ ·))).toList =
        (" ".intercalate (definitionWords name [])).toList ++ [' '] := by
      simp [definitionWords, String.intercalate_cons_cons]
    rw [hspace]
    exact (List.rdropWhile_concat_pos _ _ _ (by decide)).trans (dropEndWhile_of_getLast? hlast)
  | cons param rest =>
    have hwords : "Def " ++ name ++ " " ++ " ".intercalate ((param :: rest).map ("$" ++ ·)) =
        " ".intercalate (definitionWords name (param :: rest)) := by
      rw [definitionWords, String.intercalate_cons_cons, List.map_cons, String.intercalate_cons_cons]
      simp [← String.toList_inj]
    rw [hwords]
    exact dropEndWhile_of_getLast? hlast

/-! ## What a line tells -/

/-- Whether heads are the same, but for numbers that are printed alike. -/
inductive Head.Alike : Head → Head → Prop where
  | refl (h : Head) : Alike h h
  | number {value other : Binary64} : value.toText = other.toText → Alike (.number value) (.number other)

/-- The first letter of a line. -/
def Head.initial : Head → Option Char
  | .text _ => some 'T'
  | .number _ => some 'N'
  | .call _ => some 'C'
  | .use .. => some 'U'
  | .define .. => some 'D'
  | .bind .. => some 'V'
  | .reference _ => some 'R'
  | .stray => none

theorem Head.head?_line {h : Head} (hr : h.AsRead) : h.line.toList.head? = h.initial := by
  cases h with
  | define name params =>
    rw [line_define hr, definitionWords, String.intercalate_cons_cons]
    simp [initial]
  | text | number | call | use | bind | reference => simp [line, initial]
  | stray => rfl

theorem params_inj {name other : String} {params others : List String} (h : IsSignature name params)
    (hk : IsSignature other others) (he : (Head.define name params).line = (Head.define other others).line) :
    name = other ∧ params = others := by
  have hspace : ∀ {name : String} {params : List String}, IsSignature name params →
      ∀ word ∈ definitionWords name params, ' ' ∉ word.toList := by
    intro name params hs word hw hm
    have hb := (isBlank_of_mem_definitionWords hs hw).2 _ hm
    cases hb
  have hwords : definitionWords name params = definitionWords other others := by
    have hsplit := String.toList_split_intercalate (hspace h)
    rw [line_define h, line_define hk] at he
    have hsplit' := String.toList_split_intercalate (hspace hk)
    rw [show String.singleton ' ' = " " from rfl] at hsplit hsplit'
    rw [he] at hsplit
    exact hsplit.symm.trans hsplit'
  simp only [definitionWords, List.cons.injEq, true_and] at hwords
  refine ⟨hwords.1, List.map_injective_iff.2 (fun s t hst => ?_) hwords.2⟩
  simpa using hst

/-- A line tells the head that it is of. -/
theorem Head.alike_of_line {h k : Head} (hh : h.AsRead) (hk : k.AsRead) (he : h.line = k.line) : h.Alike k := by
  have hinitial : h.initial = k.initial := by rw [← head?_line hh, ← head?_line hk, he]
  cases h <;> cases k <;> try cases hinitial
  case text.text value other =>
    have hquote : quote value = quote other := by simpa [line] using he
    rw [quote_injective hquote]
    exact .refl _
  case number.number value other =>
    exact .number (by simpa [line] using he)
  case call.call name other =>
    have hname : name = other := by simpa [line] using he
    rw [hname]
    exact .refl _
  case use.use name builtIn other builtIn' =>
    -- What is behind the name differs before its last sign.
    have hend := congrArg (fun s => s.toList.reverse.take 2) he
    obtain rfl : builtIn = builtIn' := by
      cases builtIn <;> cases builtIn' <;> simp [line] at hend <;> rfl
    have hname : name = other := by simpa [line] using he
    rw [hname]
    exact .refl _
  case define.define name params other others =>
    obtain ⟨rfl, rfl⟩ := params_inj hh hk he
    exact .refl _
  case bind.bind name changes other changes' =>
    have hword := congrArg (fun s => s.toList.take 11) he
    obtain rfl : changes = changes' := by
      cases changes <;> cases changes' <;> simp [line] at hword <;> rfl
    have hname : name = other := by simpa [line] using he
    rw [hname]
    exact .refl _
  case reference.reference name other =>
    have hname : name = other := by simpa [line] using he
    rw [hname]
    exact .refl _
  case stray.stray => exact .refl _

theorem Head.onOneLine_line {h : Head} (hr : h.AsRead) : OnOneLine h.line := by
  cases h with
  | text value => exact ((by decide : OnOneLine "Text(").append (onOneLine_quote value)).append (by decide)
  | number value => exact ((by decide : OnOneLine "Number(").append value.onOneLine_toText).append (by decide)
  | call name => exact ((by decide : OnOneLine "Call (").append hr.onOneLine).append (by decide)
  | use name builtIn =>
    exact ((by decide : OnOneLine "Use ").append hr.onOneLine).append (by cases builtIn <;> decide)
  | define name params =>
    rw [line_define hr]
    exact .intercalate fun word hw => onOneLine_of_isBlank (isBlank_of_mem_definitionWords hr hw).2
  | bind name changes =>
    exact ((by decide : OnOneLine "Variable #").append (by cases changes <;> decide)).append hr.onOneLine
  | reference name => exact (by decide : OnOneLine "Ref #").append hr.onOneLine
  | stray => exact hr.elim

end Node
end Markup
