/-
Plain text is kept as it is written, but for the blanks at its ends.

Without digits and without the characters that begin anything else there are
two sorts of runs: of text, which goes on over spaces but not over the other
ASCII blanks, and of blanks, which goes on over all of them. Behind either no
space stands (`exists_lexes_of_isPlainChar`), so a run of text that is all
blank, and dropped for that, can only stand where the text begins, and there
its blanks are cut off anyway (`exists_reads_of_isPlainChar`).
-/
import Markup.Proofs.Escaping

namespace Markup

/-- Whether a character stands for itself wherever it is: if it is no digit and begins or ends nothing. -/
def Text.isPlainChar (c : Char) : Bool := !c.isDigit && c ∉ ['\\', '(', ')', '#', '|', '$', '/']

namespace Token

open Text

/-- A lexeme of plain text that does not begin with a space is a token of its characters, and no space
stands behind it. -/
theorem exists_lexes_of_isPlainChar {c : Char} (hc : isPlainChar c = true) (hspace : c ≠ ' ') (cs : List Char) :
    ∃ run rest, cs = run ++ rest ∧ rest.head? ≠ some ' ' ∧
      Lexes (c :: cs) [.token .text (c :: run) (c :: run)] rest := by
  simp only [isPlainChar, Bool.and_eq_true, Bool.not_eq_true', decide_eq_true_eq, List.mem_cons, not_or] at hc
  obtain ⟨hdigit, hbackslash, hopen, hclose, hhash, hpipe, hdollar, hslash, -⟩ := hc
  by_cases hblank : c = '\n' ∨ c = '\r' ∨ c = '\t'
  · have hrun := run_takeWhile isBlank cs
    refine ⟨_, _, hrun.append, fun hh => ?_, .blank hblank hrun⟩
    cases hrun.stops ' ' hh
  · obtain ⟨hnewline, hreturn, htab⟩ : c ≠ '\n' ∧ c ≠ '\r' ∧ c ≠ '\t' := by simpa using hblank
    have hrun := run_takeWhile isTextChar cs
    have htext : isTextChar c = true := by
      simp [isTextChar, hopen, hclose, hhash, hpipe, hbackslash, hnewline, hreturn, htab]
    have hascii : isAsciiBlank c = false := by simp [isAsciiBlank, hspace, hnewline, htab, hreturn]
    refine ⟨_, _, hrun.append, fun hh => ?_, .text htext hdollar hslash hdigit hrun ?_⟩
    · cases hrun.stops ' ' hh
    · rw [List.all_cons, hascii, Bool.false_and]

/-- Plain text that does not begin with a space is spelled by its tokens. -/
theorem exists_reads_of_head_ne_space : ∀ (n : Nat) (cs : List Char), cs.length ≤ n →
    (∀ c ∈ cs, isPlainChar c = true) → cs.head? ≠ some ' ' → ∃ pieces, Reads cs pieces [] ∧ Spells cs pieces
  | _, [], _, _, _ => ⟨[], .refl _, .nil⟩
  | n + 1, c :: cs, hn, hplain, hhead => by
    obtain ⟨hc, hcs⟩ := List.forall_mem_cons.1 hplain
    obtain ⟨run, rest, rfl, hrest, hl⟩ := exists_lexes_of_isPlainChar hc (by simpa using hhead) cs
    have hlength : rest.length ≤ n := by
      simp only [List.length_cons, List.length_append] at hn
      omega
    obtain ⟨pieces, hr, hs⟩ := exists_reads_of_head_ne_space n rest hlength
      (fun d hd => hcs d (List.mem_append_right _ hd)) hrest
    have hspells : Spells ((c :: run) ++ rest) (.token .text (c :: run) (c :: run) :: pieces) := .token rfl nofun hs
    exact ⟨_, .step hl hr, hspells⟩

/-- Plain text is spelled by its tokens, but for blanks that it begins with. -/
theorem exists_reads_of_isPlainChar {cs : List Char} (hplain : ∀ c ∈ cs, isPlainChar c = true) :
    ∃ pieces value, Reads cs pieces [] ∧ Spells value pieces ∧
      trimWhile isAsciiBlank value = trimWhile isAsciiBlank cs := by
  by_cases hhead : cs.head? = some ' '
  · obtain ⟨cs, rfl⟩ := List.head?_eq_some_iff.1 hhead
    have hrun := run_takeWhile isTextChar cs
    generalize cs.takeWhile isTextChar = run, cs.dropWhile isTextChar = rest at hrun
    have hrest : rest.head? ≠ some ' ' := fun hh => by cases hrun.stops ' ' hh
    obtain ⟨pieces, hr, hs⟩ := exists_reads_of_head_ne_space rest.length rest (Nat.le_refl _)
      (fun d hd => hplain d (by rw [hrun.append]; simp [hd])) hrest
    cases hall : (' ' :: run).all isAsciiBlank with
    | true =>
      refine ⟨_, rest, .step (.dropped rfl (by decide) (by decide) rfl hrun hall) hr, .gap hs, ?_⟩
      rw [hrun.append, ← List.cons_append, trimWhile_append_of_all hall]
    | false =>
      refine ⟨_, _, .step (.text rfl (by decide) (by decide) rfl hrun hall) hr, .token rfl nofun hs, ?_⟩
      rw [hrun.append, List.cons_append]
  · obtain ⟨pieces, hr, hs⟩ := exists_reads_of_head_ne_space cs.length cs (Nat.le_refl _) hplain hhead
    exact ⟨pieces, cs, hr, hs, rfl⟩

end Token

/-- Plain text is compiled to itself, stripped, with every setting that leaves room for a node and every disk. -/
theorem compile_plain {s : String} (hplain : ∀ c ∈ s.toList, Text.isPlainChar c = true) {setting : Setting}
    (hl : 0 < setting.limit) (disk : Disk) : compile setting disk s = .ok (Text.strip s) := by
  obtain ⟨pieces, value, hr, hs, htrim⟩ := Token.exists_reads_of_isPlainChar hplain
  obtain ⟨tokens, hnodes, hvalues⟩ := Document.exists_ofText_of_spells hr hs
  simp only [compile, hnodes, Setting.output, Setting.document]
  rw [← Nat.sub_add_cancel hl]
  simp only [Document.expand_plainNode, hvalues]
  rw [Text.strip, String.toList_ofList, htrim, Text.strip]

/-- Line ends of all sorts, tabs and Unicode spaces stay where they are, but for the ASCII ones at the ends. -/
theorem compile_plain_blanks :
    let s := "  \t a  b \r\n\n \u00a0\u2028c\u000b\td\r e\u3000 \n"
    (∀ c ∈ s.toList, Text.isPlainChar c = true) ∧ ∀ disk : Disk,
      compile ⟨"", [], [], default, 1⟩ disk s = .ok "a  b \r\n\n \u00a0\u2028c\u000b\td\r e\u3000" := by
  intro s
  have hplain : ∀ c ∈ s.toList, Text.isPlainChar c = true := List.all_eq_true.1 (by decide +kernel)
  have hstrip : Text.strip s = "a  b \r\n\n \u00a0\u2028c\u000b\td\r e\u3000" := by decide +kernel
  exact ⟨hplain, fun disk => hstrip ▸ compile_plain hplain Nat.one_pos disk⟩

end Markup
