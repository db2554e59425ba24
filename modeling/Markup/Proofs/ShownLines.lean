/-
The line that a snippet shows.

Places count their line by newlines alone; a snippet cuts the text behind every line
end of the wide sense. Both find the same line as long as the lines up to it hold no
other line end, a return before their newline apart (`Text.PlainLines`), and then the
first caret stands under the character that is reported (`snippet_shows_line`). A form
feed, a lone return or a Unicode separator above moves the line that is shown, but not
the number beside it (`snippet_misses_line_form_feed`).
-/
import Markup.Proofs.FirstRefusal
import Markup.Proofs.ScanErrors
import Markup.Proofs.Tiling

namespace Markup

namespace Text

/-! ## Lines that newlines end -/

/-- A line without the return at its end. -/
def withoutLastReturn (line : List Char) : List Char :=
  if line.getLast? = some '\r' then line.dropLast else line

/-- The line with a number counted from 1 where newlines alone end lines, without the return at its
end; empty if there is none. -/
def newlineLine (text : List Char) (number : Nat) : List Char :=
  withoutLastReturn ((text.splitOn '\n')[number - 1]?.getD [])

/-- Whether the first lines of a text hold no line end but their newlines, and returns before these
or at the end of the text. -/
def PlainLines (text : List Char) (number : Nat) : Prop :=
  ∀ line ∈ (text.splitOn '\n').take number, ∀ c ∈ withoutLastReturn line, isLineEnd c = false

instance (text : List Char) (number : Nat) : Decidable (PlainLines text number) :=
  have : DecidablePred fun line => ∀ c ∈ withoutLastReturn line, isLineEnd c = false :=
    fun line => List.decidableBAll _ (withoutLastReturn line)
  List.decidableBAll _ ((text.splitOn '\n').take number)

theorem mem_of_mem_withoutLastReturn {line : List Char} {c : Char} (h : c ∈ withoutLastReturn line) : c ∈ line := by
  unfold withoutLastReturn at h
  split at h
  next => exact List.dropLast_subset line h
  next => exact h

theorem withoutLastReturn_cons {c : Char} (h : c ≠ '\r') (line : List Char) :
    withoutLastReturn (c :: line) = c :: withoutLastReturn line := by
  cases line with
  | nil => simp [withoutLastReturn, h]
  | cons d line =>
    simp only [withoutLastReturn, List.getLast?_cons_cons]
    split <;> rfl

theorem getElem?_withoutLastReturn {cs : List Char} {i : Nat} {c : Char} (h : cs[i]? = some c) (hc : c ≠ '\r') :
    (withoutLastReturn cs)[i]? = some c := by
  unfold withoutLastReturn
  split
  next hr =>
    have hlast : i ≠ cs.length - 1 := by
      rintro rfl
      rw [List.getLast?_eq_getElem?, h, Option.some.injEq] at hr
      exact hc hr
    have hlt := (List.getElem?_eq_some_iff.1 h).1
    rw [List.getElem?_dropLast, if_pos (by omega), h]
  next => exact h

theorem splitOn_cons_of_ne {c : Char} (h : c ≠ '\n') (text : List Char) :
    (c :: text).splitOn '\n' = (text.splitOn '\n').modifyHead (c :: ·) := by
  rw [List.splitOn_cons_eq_if_modifyHead, if_neg (by simpa using h)]

theorem splitOn_newline_cons (text : List Char) : ('\n' :: text).splitOn '\n' = [] :: text.splitOn '\n' :=
  List.splitOn_append_cons_self_of_not_mem List.not_mem_nil text

theorem length_splitOn_newline (text : List Char) : (text.splitOn '\n').length = text.count '\n' + 1 := by
  induction text with
  | nil => rfl
  | cons c text ih =>
    by_cases hc : c = '\n'
    · subst hc
      rw [splitOn_newline_cons, List.length_cons, ih, List.count_cons_self]
    · rw [splitOn_cons_of_ne hc, List.length_modifyHead, ih, List.count_cons_of_ne hc]

theorem head_splitOn_newline (text : List Char) :
    (text.splitOn '\n')[0]? = some (text.takeWhile (· != '\n')) := by
  induction text with
  | nil => rfl
  | cons c text ih =>
    by_cases hc : c = '\n'
    · subst hc
      rw [splitOn_newline_cons]
      rfl
    · rw [splitOn_cons_of_ne hc, List.getElem?_modifyHead, if_pos rfl, ih,
        List.takeWhile_cons_of_pos (by simpa using hc), Option.map_some]

/-- The line of a place holds what stands before and behind the place, up to the newlines around. -/
theorem getElem?_splitOn_newline (before after : List Char) :
    ((before ++ after).splitOn '\n')[before.count '\n']? =
      some ((before.reverse.takeWhile (· != '\n')).reverse ++ after.takeWhile (· != '\n')) := by
  induction before using List.reverseRecOn generalizing after with
  | nil => exact head_splitOn_newline after
  | append_singleton before c ih =>
    rw [List.append_assoc, List.singleton_append, List.count_append, List.reverse_append,
      List.reverse_singleton, List.singleton_append]
    by_cases hc : c = '\n'
    · subst hc
      rw [List.splitOn_append_cons_self, List.getElem?_append_right
        (by rw [length_splitOn_newline, List.count_cons_self]; omega), length_splitOn_newline,
        List.count_cons_self, List.count_nil, Nat.sub_self, head_splitOn_newline]
      rfl
    · have hp : ∀ cs : List Char, (c :: cs).takeWhile (· != '\n') = c :: cs.takeWhile (· != '\n') :=
        fun cs => List.takeWhile_cons_of_pos (by simpa using hc)
      rw [List.count_cons_of_ne hc, List.count_nil, Nat.add_zero, ih, hp, hp, List.reverse_cons,
        List.append_assoc, List.singleton_append]

/-! ## Both ways to cut a text -/

theorem dropEndWhile_cons {p : Char → Bool} {c : Char} (h : p c = false) (line : List Char) :
    dropEndWhile p (c :: line) = c :: dropEndWhile p line := by
  rw [dropEndWhile, List.reverse_cons, List.dropWhile_append]
  split
  next he => simp [dropEndWhile, List.isEmpty_iff.1 he, h]
  next => rw [List.reverse_append, List.reverse_singleton, List.singleton_append, dropEndWhile]

theorem ne_of_not_isLineEnd {c : Char} (h : isLineEnd c = false) : c ≠ '\n' ∧ c ≠ '\r' := by
  constructor <;> rintro rfl <;> cases h

theorem withoutEnd_cons {c : Char} (h : isLineEnd c = false) (line : List Char) :
    withoutEnd (c :: line) = c :: withoutEnd line := by
  obtain ⟨hn, hr⟩ := ne_of_not_isLineEnd h
  rw [withoutEnd, dropEndWhile_cons (by simpa using hn), dropEndWhile_cons (by simpa using hr), withoutEnd]

theorem consLine_getElem?_succ (c : Char) (rest : List (List Char)) (k : Nat) :
    (consLine c rest)[k + 1]? = rest[k + 1]? := by
  cases rest <;> rfl

theorem consLine_head (c : Char) (rest : List (List Char)) :
    (consLine c rest)[0]?.getD [] = c :: rest[0]?.getD [] := by
  cases rest <;> rfl

theorem PlainLines.tail {text : List Char} {k : Nat} (h : PlainLines ('\n' :: text) (k + 1)) : PlainLines text k := by
  rw [PlainLines, splitOn_newline_cons, List.take_succ_cons] at h
  exact fun line hl => h line (List.mem_cons_of_mem _ hl)

theorem PlainLines.head {text : List Char} {k : Nat} (h : PlainLines text (k + 1)) :
    ∀ c ∈ withoutLastReturn (text.takeWhile (· != '\n')), isLineEnd c = false := by
  have hhead := head_splitOn_newline text
  refine h _ (List.mem_of_getElem? (i := 0) ?_)
  rw [List.getElem?_take, if_pos (Nat.succ_pos k), hhead]

/-- A line end that is no newline is a return with nothing behind it on its line. -/
theorem PlainLines.lone {c : Char} {text : List Char} {k : Nat} (h : PlainLines (c :: text) (k + 1))
    (he : isLineEnd c = true) (hn : c ≠ '\n') : c = '\r' ∧ text.takeWhile (· != '\n') = [] := by
  have hplain := h.head
  rw [List.takeWhile_cons_of_pos (by simpa using hn)] at hplain
  by_contra hno
  have hc : c ∈ withoutLastReturn (c :: text.takeWhile (· != '\n')) := by
    by_cases hr : c = '\r'
    · cases hrest : text.takeWhile (· != '\n') with
      | nil => exact absurd ⟨hr, hrest⟩ hno
      | cons d rest =>
        unfold withoutLastReturn
        split <;> simp
    · rw [withoutLastReturn_cons hr]
      exact List.mem_cons_self
  rw [hplain c hc] at he
  cases he

theorem PlainLines.of_cons {c : Char} {text : List Char} {n : Nat} (h : PlainLines (c :: text) n)
    (he : isLineEnd c = false) : PlainLines text n := by
  obtain ⟨hn, hr⟩ := ne_of_not_isLineEnd he
  rw [PlainLines, splitOn_cons_of_ne hn] at h
  rw [PlainLines]
  cases hl : text.splitOn '\n' with
  | nil => exact absurd hl (List.splitOn_ne_nil _ _)
  | cons first more =>
    rw [hl, List.modifyHead_cons] at h
    cases n with
    | zero => simp
    | succ n =>
      rw [List.take_succ_cons, List.forall_mem_cons, withoutLastReturn_cons hr] at h
      rw [List.take_succ_cons, List.forall_mem_cons]
      exact ⟨fun d hd => h.1 d (List.mem_cons_of_mem _ hd), h.2⟩

/-- As long as the lines hold no other line ends, both ways to cut a text find the same. -/
theorem withoutEnd_lines {text : List Char} {k : Nat} (h : PlainLines text (k + 1)) :
    withoutEnd ((lines text)[k]?.getD []) = newlineLine text (k + 1) := by
  rw [newlineLine, Nat.add_sub_cancel]
  fun_induction lines text generalizing k with
  | case1 => cases k <;> rfl
  | case2 text ih =>
    have hs : ('\r' :: '\n' :: text).splitOn '\n' = ['\r'] :: text.splitOn '\n' := by
      rw [splitOn_cons_of_ne (by decide), splitOn_newline_cons]
      rfl
    rw [hs]
    cases k with
    | zero => rfl
    | succ k =>
      rw [PlainLines, hs] at h
      exact ih fun line hl => h line (List.mem_cons_of_mem _ hl)
  | case3 c text hne he ih =>
    by_cases hn : c = '\n'
    · subst hn
      rw [splitOn_newline_cons]
      cases k with
      | zero => rfl
      | succ k => exact ih h.tail
    · obtain ⟨rfl, hrest⟩ := h.lone he hn
      -- A return alone on the rest of its line ends the text, for it stands before no newline.
      obtain rfl : text = [] := by
        cases text with
        | nil => rfl
        | cons d text =>
          by_cases hd : d = '\n'
          · exact absurd (by rw [hd]) (hne text rfl)
          · rw [List.takeWhile_cons_of_pos (by simpa using hd)] at hrest
            cases hrest
      cases k <;> rfl
  | case4 c text hne he ih =>
    have he : isLineEnd c = false := by simpa using he
    obtain ⟨hn, hr⟩ := ne_of_not_isLineEnd he
    rw [splitOn_cons_of_ne hn]
    cases k with
    | zero =>
      rw [consLine_head, withoutEnd_cons he, ih (h.of_cons he), List.getElem?_modifyHead, if_pos rfl,
        head_splitOn_newline, Option.map_some, Option.getD_some, Option.getD_some, withoutLastReturn_cons hr]
    | succ k => rw [consLine_getElem?_succ, ih (h.of_cons he), List.getElem?_modifyHead, if_neg k.succ_ne_zero]

theorem lineAt_of_plainLines {source : String} {k : Nat} (h : PlainLines source.toList (k + 1)) :
    lineAt source ((k : Int) + 1) = newlineLine source.toList (k + 1) := by
  rw [lineAt, if_pos (by omega), show ((k : Int) + 1 - 1).toNat = k by omega, withoutEnd_lines h]

theorem newline_notMem_newlineLine (before after : List Char) :
    '\n' ∉ newlineLine (before ++ after) (before.count '\n' + 1) := by
  intro hm
  rw [newlineLine, Nat.add_sub_cancel, getElem?_splitOn_newline, Option.getD_some] at hm
  rcases List.mem_append.1 (mem_of_mem_withoutLastReturn hm) with hm | hm
  · have := List.mem_takeWhile_imp (List.mem_reverse.1 hm)
    simp at this
  · have := List.mem_takeWhile_imp hm
    simp at this

/-- The character behind a place stands in the line of the place, behind the characters before it there. -/
theorem getElem?_newlineLine (before : List Char) {after : List Char} {c : Char} (hc : after.head? = some c)
    (hn : c ≠ '\n') (hr : c ≠ '\r') : (newlineLine (before ++ after)
      (before.count '\n' + 1))[(before.reverse.takeWhile (· != '\n')).length]? = some c := by
  rw [newlineLine, Nat.add_sub_cancel, getElem?_splitOn_newline, Option.getD_some]
  refine getElem?_withoutLastReturn ?_ hr
  rw [List.getElem?_append_right (by simp), List.length_reverse, Nat.sub_self]
  obtain ⟨rest, rfl⟩ := List.head?_eq_some_iff.1 hc
  rw [List.takeWhile_cons_of_pos (by simpa using hn)]
  rfl

end Text

/-! ## The rows of a snippet -/

theorem newline_notMem_toString (n : Nat) : '\n' ∉ (toString (n : Int)).toList := by
  intro h
  have hd : '\n' ∈ Nat.toDigits 10 n := by
    simpa [toString, Int.repr, Nat.repr] using h
  have := Nat.isDigit_of_mem_toDigits (by omega) (by omega) hd
  cases this

/-- A snippet ends in a row with the line and one with the carets. -/
theorem snippet_rows (message : String) (span : Span) (source fileName : String) :
    ∃ head, (snippet message span source fileName).toList =
      head ++ '\n' :: ((toString span.start.line ++ " | ").toList ++ Text.lineAt source span.start.line) ++
        '\n' :: (List.replicate ((toString span.start.line).length + 1) ' ' ++ ['|', ' '] ++
          List.replicate (span.start.column - 1).toNat ' ' ++
          List.replicate (span.caretCount (Text.lineAt source span.start.line)) '^') := by
  unfold snippet
  extract_lets line number column spaces margin carets
  refine ⟨("error: " ++ message ++ "\n" ++ margin ++ "--> " ++ fileName ++ ":" ++ number ++ ":" ++
    toString column ++ "\n" ++ margin ++ "|").toList, ?_⟩
  simp [margin, spaces, carets, line, number, column]

theorem Span.caretCount_pos (span : Span) (line : List Char) : 0 < span.caretCount line := by
  unfold caretCount
  extract_lets width
  omega

/-- The first caret stands behind the margin, the bar and the columns before it. -/
theorem idxOf_underline (number : String) (column : Nat) {carets : Nat} (hc : 0 < carets) :
    (List.replicate (number.length + 1) ' ' ++ ['|', ' '] ++ List.replicate column ' ' ++
      List.replicate carets '^').idxOf '^' = number.length + 3 + column := by
  obtain ⟨k, rfl⟩ := Nat.exists_eq_succ_of_ne_zero (Nat.ne_of_gt hc)
  rw [List.idxOf_append, if_neg (by simp [List.mem_replicate]), List.replicate_succ, List.idxOf_cons_self]
  simp only [List.length_append, List.length_replicate, List.length_cons, List.length_nil]
  omega

/-- How two rows show a place of a text. -/
structure ShowsPlace (text : List Char) (p : Position) (row underline : List Char) : Prop where
  /-- The first row is the line of the place, where newlines end lines, behind its number. -/
  row_eq : row = (toString p.line ++ " | ").toList ++ Text.newlineLine text p.line.toNat
  row_newline : '\n' ∉ row
  underline_newline : '\n' ∉ underline
  caret : '^' ∈ underline
  /-- The first caret stands in the column of the place. -/
  first_caret : (underline.idxOf '^' : Int) + 1 = (toString p.line ++ " | ").length + p.column
  /-- It stands under the character there, unless that ends the line. -/
  under : ∀ c, text[p.offset.toNat]? = some c → c ≠ '\n' → c ≠ '\r' → row[underline.idxOf '^']? = some c

/-- A snippet shows the place behind any part of its text, if no other line ends come before. -/
theorem snippet_showsPlace {text : String} {before after : List Char} (htext : text.toList = before ++ after)
    {span : Span} (hstart : span.start = Position.first.advance before)
    (hp : Text.PlainLines text.toList (before.count '\n' + 1)) (message fileName : String) :
    ∃ head row underline : List Char,
      (snippet message span text fileName).toList = head ++ '\n' :: row ++ '\n' :: underline ∧
        ShowsPlace text.toList span.start row underline := by
  have hline : span.start.line = (before.count '\n' : Int) + 1 := by
    rw [hstart, Position.line_advance, Int.add_comm]
    rfl
  have hcolumn : span.start.column = 1 + (before.reverse.takeWhile (· != '\n')).length := by
    rw [hstart, Position.column_advance_first]
  have hoffset : span.start.offset.toNat = before.length := by
    rw [hstart, Position.offset_advance_first, Int.toNat_natCast]
  have hnat : span.start.line.toNat = before.count '\n' + 1 := by omega
  obtain ⟨head, hrows⟩ := snippet_rows message span text fileName
  have hshown := Text.lineAt_of_plainLines hp
  rw [← hline, ← hnat] at hshown
  have hunder := idxOf_underline (toString span.start.line) (span.start.column - 1).toNat
    (Span.caretCount_pos span (Text.lineAt text span.start.line))
  refine ⟨head, _, _, hrows, by rw [hshown], ?_, ?_, ?_, ?_, ?_⟩
  · have hnumber := newline_notMem_toString (before.count '\n' + 1)
    have hnone := Text.newline_notMem_newlineLine before after
    rw [hshown, hnat, htext, String.toList_append, List.mem_append, List.mem_append, hline]
    rintro ((hm | hm) | hm)
    · exact hnumber hm
    · revert hm
      decide
    · exact hnone hm
  · simp [List.mem_replicate]
  · have hpos := Span.caretCount_pos span (Text.lineAt text span.start.line)
    exact List.mem_append_right _ (List.mem_replicate.2 ⟨by omega, rfl⟩)
  · rw [hunder, String.length_append, show " | ".length = 3 from rfl]
    omega
  · intro c hc hn hr
    rw [htext, hoffset, List.getElem?_append_right (Nat.le_refl _), Nat.sub_self] at hc
    have hat := Text.getElem?_newlineLine before (List.head?_eq_getElem? ▸ hc) hn hr
    have hlength : (toString span.start.line ++ " | ").toList.length = (toString span.start.line).length + 3 := by
      rw [String.length_toList, String.length_append]
      rfl
    have hindex : (toString span.start.line).length + 3 + (span.start.column - 1).toNat -
        ((toString span.start.line).length + 3) = (before.reverse.takeWhile (· != '\n')).length := by
      omega
    rw [hunder, hshown, hnat, htext, List.getElem?_append_right (by omega), hlength, hindex, hat]

/-! ## Errors of a text -/

theorem Token.Jams.exists_after {cs before : List Char} {cause : ScanError.Cause} (h : Jams cs cause before) :
    ∃ after, cs = before ++ after := by
  cases h <;> exact ⟨_, rfl⟩

theorem Node.TextError.exists_before {text : String} {e : TextError} (h : ofText text = .error e) :
    ∃ before after, text.toList = before ++ after ∧ e.span.start = Position.first.advance before := by
  rcases ofText_error_iff.1 h with ⟨f, hs, rfl⟩ | ⟨tokens, f, hs, hp, rfl⟩
  · obtain ⟨pieces, rest, cause, before, hr, hj, rfl⟩ := Token.scan_error_iff.1 hs
    obtain ⟨after, hrest⟩ := hj.exists_after
    refine ⟨Token.Piece.textAll pieces ++ before, after, ?_, ?_⟩
    · rw [hr.append_eq, hrest, List.append_assoc]
    · rw [Position.advance_append]
      rfl
  · have hfound := found_mem_of_parse_error hs hp
    obtain ⟨pieces, hr, rfl⟩ := Token.scan_ok_iff.1 hs
    obtain ⟨before, part, after, hparts, -, hspan⟩ := Token.exists_parts_of_mem hfound
    refine ⟨before, part ++ after, ?_, ?_⟩
    · rw [hr.append_eq, List.append_nil, hparts]
    · rw [TextError.span, ParseError.span, hspan]

/-- What is reported of a text without a tree is shown with the line that it stands in, counted by
newlines, and the first caret under the character that it points at, as long as no other line ends
come before. -/
theorem snippet_shows_line {text : String} {e : Node.TextError} (h : Node.ofText text = .error e)
    (hp : Text.PlainLines text.toList e.span.start.line.toNat) (fileName : String) :
    e.span.start.IsIn text.toList ∧ ∃ head row underline : List Char,
      (snippet e.message e.span text fileName).toList = head ++ '\n' :: row ++ '\n' :: underline ∧
        ShowsPlace text.toList e.span.start row underline := by
  obtain ⟨before, after, htext, hstart⟩ := Node.TextError.exists_before h
  constructor
  · rw [htext, hstart]
    exact Position.isIn_advance before after
  · refine snippet_showsPlace htext hstart ?_ e.message fileName
    have hline : e.span.start.line.toNat = before.count '\n' + 1 := by
      rw [hstart, Position.line_advance, show Position.first.line = 1 from rfl]
      omega
    rwa [← hline]

/-- Behind a line that a return and a newline end, the escape is shown on the second. -/
theorem snippet_shows_line_return :
    Node.ofText "a\r\n b\\q\r\n" = .error (.tokens ⟨.unknownEscape 'q', ⟨2, 3, 5⟩⟩) ∧
    Text.PlainLines "a\r\n b\\q\r\n".toList 2 ∧ ∃ head row underline : List Char,
      (snippet "unknown escape sequence '\\q'" (.ofPosition ⟨2, 3, 5⟩) "a\r\n b\\q\r\n" "input.write").toList =
        head ++ '\n' :: row ++ '\n' :: underline ∧
      ShowsPlace "a\r\n b\\q\r\n".toList ⟨2, 3, 5⟩ row underline := by
  have hn : Node.ofText "a\r\n b\\q\r\n" = .error (.tokens ⟨.unknownEscape 'q', ⟨2, 3, 5⟩⟩) := by cbv
  have hp : Text.PlainLines "a\r\n b\\q\r\n".toList 2 := by decide
  exact ⟨hn, hp, (snippet_shows_line hn hp "input.write").2⟩

/-- A form feed ends a line for the snippet and not for the place: the second line, `\q`, is reported, and
what stands behind the form feed is shown. -/
theorem snippet_misses_line_form_feed :
    Node.ofText "a\x0cb\n\\q" = .error (.tokens ⟨.unknownEscape 'q', ⟨2, 1, 4⟩⟩) ∧
    Text.newlineLine "a\x0cb\n\\q".toList 2 = ['\\', 'q'] ∧
    snippet "unknown escape sequence '\\q'" (.ofPosition ⟨2, 1, 4⟩) "a\x0cb\n\\q" "input.write" =
      "error: unknown escape sequence '\\q'\n  --> input.write:2:1\n  |\n2 | b\n  | ^" := by
  refine ⟨by cbv, by decide, by decide⟩

end Markup
