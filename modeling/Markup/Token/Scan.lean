/-
Tokens of a text.

`Token.scan` reads tokens from left to right. Each step looks at the next
character and takes the longest piece that begins with it; a step depends on
nothing but the rest of the text and the place it stands at. Blanks are
passed over behind an argument or a comment, and spaces and tabs around the
name of a directive; a run of plain text without any other character than
blanks is dropped. The last token marks the end.

Reading fails at a backslash that escapes nothing known, at an opening
parenthesis without a name, at digits that form no number and at a character
that begins nothing; there is none of the last kind.
-/
import Markup.Cursor
import Markup.Token.Basic
import Markup.Binary64.Numeral

namespace Markup

/-- Why a text has no tokens. -/
inductive ScanError.Cause where
  /-- A backslash ends the text. -/
  | danglingEscape
  | unknownEscape (c : Char)
  /-- No name stands behind an opening parenthesis. -/
  | missingName
  | badNumber (text : String)
  /-- The character begins no token and is no blank. -/
  | unexpected (c : Char)
  deriving DecidableEq, Repr, Inhabited

/-- Why and where reading tokens failed. -/
structure ScanError where
  cause : ScanError.Cause
  position : Position
  deriving DecidableEq, Repr, Inhabited

/-- What is reported. -/
def ScanError.message (e : ScanError) : String :=
  match e.cause with
  | .danglingEscape => "unexpected end of input after '\\'"
  | .unknownEscape c => "unknown escape sequence '\\" ++ c.toString ++ "'"
  | .missingName => "expected macro name after '('"
  | .badNumber text => "invalid number literal '" ++ text ++ "'"
  | .unexpected c => "unexpected character " ++ Text.quote c.toString

namespace Token

open Text

/-- The tokens that a step finds and the cursor behind them, or why it fails. -/
abbrev Step := Except ScanError (List Token × Cursor)

/-- A token that was read from `raw` and ends at the cursor. -/
def upTo (cur : Cursor) (start : Position) (kind : Kind) (value raw : List Char) : Token :=
  ⟨kind, .ofList value, .ofList raw, ⟨start, cur.position⟩⟩

/-- An escape, behind its backslash. -/
def scanEscape (start : Position) (cur : Cursor) : Step :=
  match cur.rest with
  | [] => .error ⟨.danglingEscape, start⟩
  | c :: rest =>
    match unescape? c with
    | none => .error ⟨.unknownEscape c, start⟩
    | some value =>
      let next : Cursor := ⟨rest, cur.position.step c⟩
      .ok ([upTo next start .escape [value] ['\\', c]], next)

/-- An argument, behind its `$`. -/
def scanArgument (start : Position) (cur : Cursor) : Step :=
  let name := cur.run isNameChar
  let next := cur.past isNameChar
  .ok ([upTo next start .argument name ('$' :: name)], next.past isBlank)

/-- A call's parenthesis and name, behind the parenthesis. -/
def scanOpen (start : Position) (cur : Cursor) : Step :=
  let name := cur.run isNameChar
  let next := cur.past isNameChar
  if name.isEmpty then .error ⟨.missingName, cur.position⟩
  else .ok ([upTo cur start .openParen ['('] ['('],
    upTo next cur.position .identifier name name], next)

/-- A token of one character, behind it. -/
def scanSingle (kind : Kind) (c : Char) (start : Position) (cur : Cursor) : Step :=
  .ok ([upTo cur start kind [c] [c]], cur)

/-- A comment, behind its `#!`. -/
def scanComment (start : Position) (cur : Cursor) : Step :=
  let text := cur.run (· != '\n')
  let next := cur.past (· != '\n')
  .ok ([upTo next start .comment (trimWhile isAsciiBlank text) ('#' :: '!' :: text)],
    next.past isBlank)

/-- The name behind a directive, with the spaces and tabs around it. -/
def scanIdentifier (cur : Cursor) : Token × Cursor :=
  let before := cur.past isHorizontal
  let name := before.run isNameChar
  let next := before.past isNameChar
  (upTo next before.position .identifier name name, next.past isHorizontal)

/-- A directive, a reference or a lone `#`, behind the `#`. -/
def scanDirective (start : Position) (cur : Cursor) : Step :=
  let name := cur.run isNameChar
  let next := cur.past isNameChar
  if name.isEmpty then scanSingle .hash '#' start cur
  else
    match Keyword.ofName? (.ofList name) with
    | none => .ok ([upTo next start .reference name ('#' :: name)], next)
    | some word =>
      let head := upTo next start (.keyword word) name ('#' :: name)
      if word = .endWord then .ok ([head], next)
      else
        let (name, next) := scanIdentifier next
        .ok ([head, name], next)

/-- What a `#` begins, behind it. -/
def scanHash (start : Position) (cur : Cursor) : Step :=
  match cur.rest with
  | '!' :: rest => scanComment start ⟨rest, cur.position.step '!'⟩
  | _ => scanDirective start cur

/-- A literal number, behind its first digit. -/
def scanNumber (c : Char) (start : Position) (cur : Cursor) : Step :=
  let text := c :: cur.run isNumberChar
  let next := cur.past isNumberChar
  match Binary64.ofText? (.ofList text) with
  | none => .error ⟨.badNumber (.ofList text), start⟩
  | some value => .ok ([upTo next start (.number value) text text], next)

/-- A run of plain text, behind its first character; nothing if it is all blank. -/
def scanText (c : Char) (start : Position) (cur : Cursor) : Step :=
  let text := c :: cur.run isTextChar
  let next := cur.past isTextChar
  .ok (if text.all isAsciiBlank then [] else [upTo next start .text text text], next)

/-- A run of blanks, behind the first character, which has to be one. -/
def scanBlank (c : Char) (start : Position) (cur : Cursor) : Step :=
  let text := c :: cur.run isBlank
  let next := cur.past isBlank
  if isBlank c then .ok ([upTo next start .text text text], next)
  else .error ⟨.unexpected c, start⟩

/-- One step of reading: what begins with `c`, given the cursor behind it. -/
def scanStep (c : Char) (start : Position) (cur : Cursor) : Step :=
  if c = '\\' then scanEscape start cur
  else if c = '$' then scanArgument start cur
  else if c = '(' then scanOpen start cur
  else if c = ')' then scanSingle .closeParen c start cur
  else if c = '#' then scanHash start cur
  else if c = '|' then scanSingle .pipe c start cur
  else if c = '/' then scanSingle .slash c start cur
  else if c.isDigit then scanNumber c start cur
  else if isTextChar c then scanText c start cur
  else scanBlank c start cur

/-! ## Steps go forward -/

theorem length_scanIdentifier_le (cur : Cursor) :
    (scanIdentifier cur).2.rest.length ≤ cur.rest.length := by
  unfold scanIdentifier
  exact Nat.le_trans (Cursor.length_past_le _ _)
    (Nat.le_trans (Cursor.length_past_le _ _) (Cursor.length_past_le _ _))

theorem length_scanEscape_le {start : Position} {cur next : Cursor} {ts : List Token}
    (h : scanEscape start cur = .ok (ts, next)) : next.rest.length ≤ cur.rest.length := by
  unfold scanEscape at h
  split at h
  · cases h
  · rename_i c rest hr
    split at h
    · cases h
    · cases h
      simp [hr]

theorem length_scanHash_le {start : Position} {cur next : Cursor} {ts : List Token}
    (h : scanHash start cur = .ok (ts, next)) : next.rest.length ≤ cur.rest.length := by
  unfold scanHash at h
  split at h
  · rename_i rest hr
    cases h
    rw [hr, List.length_cons]
    exact Nat.le_succ_of_le (Nat.le_trans (Cursor.length_past_le _ _) (Cursor.length_past_le _ _))
  · simp only [scanDirective, scanSingle] at h
    split at h
    · cases h; exact Nat.le_refl _
    · split at h
      · cases h; exact Cursor.length_past_le _ _
      · split at h
        · cases h; exact Cursor.length_past_le _ _
        · cases h
          exact Nat.le_trans (length_scanIdentifier_le _) (Cursor.length_past_le _ _)

theorem length_scanStep_le {c : Char} {start : Position} {cur next : Cursor} {ts : List Token}
    (h : scanStep c start cur = .ok (ts, next)) : next.rest.length ≤ cur.rest.length := by
  unfold scanStep at h
  split at h
  · exact length_scanEscape_le h
  split at h
  · cases h; exact Nat.le_trans (Cursor.length_past_le _ _) (Cursor.length_past_le _ _)
  split at h
  · unfold scanOpen at h
    dsimp only at h
    split at h
    · cases h
    · cases h; exact Cursor.length_past_le _ _
  split at h
  · cases h; exact Nat.le_refl _
  split at h
  · exact length_scanHash_le h
  split at h
  · cases h; exact Nat.le_refl _
  split at h
  · cases h; exact Nat.le_refl _
  split at h
  · unfold scanNumber at h
    dsimp only at h
    split at h
    · cases h
    · cases h; exact Cursor.length_past_le _ _
  split at h
  · cases h; exact Cursor.length_past_le _ _
  · simp only [scanBlank] at h
    split at h
    · cases h; exact Cursor.length_past_le _ _
    · cases h

/-! ## The whole text -/

/-- The tokens from a cursor to the end, and the token that marks it. -/
def scanFrom (cur : Cursor) : Except ScanError (List Token) :=
  match _hr : cur.rest with
  | [] => .ok [upTo cur cur.position .endOfInput [] []]
  | c :: rest =>
    match _hs : scanStep c cur.position ⟨rest, cur.position.step c⟩ with
    | .error e => .error e
    | .ok (tokens, next) =>
      match scanFrom next with
      | .error e => .error e
      | .ok more => .ok (tokens ++ more)
termination_by cur.rest.length
decreasing_by
  have h : next.rest.length ≤ rest.length := length_scanStep_le _hs
  rw [_hr, List.length_cons]
  omega

/-- The tokens of a text. -/
def scan (text : String) : Except ScanError (List Token) := scanFrom (.ofText text)

end Token

end Markup
