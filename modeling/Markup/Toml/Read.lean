/-
Reading a TOML file.

A file is a sequence of statements, one a line: a key with its value, or the
header of a table or of one more table in an array, to which the keys below
it belong. A table is declared once at most, what is written as a value
stays as it is (`frozen`), and a table made by dotted keys is closed for
headers when the next one comes.

The first mistake is reported with its line and column, or as being at the
end of the file. A value that goes past a limit ends the reading, too, and
is not reported.
-/
import Markup.Cursor
import Markup.Toml.Scalar

namespace Markup.Toml

/-- The names that lead to a value. -/
abbrev Key := List String

/-- What is wrong with a file. -/
inductive Mistake.Cause where
  | statement
  | lineEnd
  | equalsSign
  | keyStart
  | declaredTwice (key : Key)
  | immutable (key : Key)
  | redefined (key : Key)
  | overwritten
  | tableEnd
  | arrayTableEnd
  | unclosedArray
  | unclosedTable
  | duplicate (name : String)
  | escape
  | hexValue
  | scalarValue
  | unterminated
  /-- A control character in a text. -/
  | illegal (c : Char)
  /-- A control character in a literal text or a comment. -/
  | invalidChar (c : Char)
  | expected (text : String)
  | date
  | value
  deriving DecidableEq, Repr, Inhabited

/-- A key as a message shows it. -/
def keyText (key : Key) : String :=
  "(" ++ ", ".intercalate (key.map Text.quote) ++ (if key.length = 1 then ",)" else ")")

/-- What is reported. -/
def Mistake.Cause.message : Mistake.Cause → String
  | statement => "Invalid statement"
  | lineEnd => "Expected newline or end of document after a statement"
  | equalsSign => "Expected '=' after a key in a key/value pair"
  | keyStart => "Invalid initial character for a key part"
  | declaredTwice key => "Cannot declare " ++ keyText key ++ " twice"
  | immutable key => "Cannot mutate immutable namespace " ++ keyText key
  | redefined key => "Cannot redefine namespace " ++ keyText key
  | overwritten => "Cannot overwrite a value"
  | tableEnd => "Expected ']' at the end of a table declaration"
  | arrayTableEnd => "Expected ']]' at the end of an array declaration"
  | unclosedArray => "Unclosed array"
  | unclosedTable => "Unclosed inline table"
  | duplicate name => "Duplicate inline table key " ++ Text.quote name
  | escape => "Unescaped '\\' in a string"
  | hexValue => "Invalid hex value"
  | scalarValue => "Escaped character is not a Unicode scalar value"
  | unterminated => "Unterminated string"
  | illegal c => "Illegal character " ++ Text.quote c.toString
  | invalidChar c => "Found invalid character " ++ Text.quote c.toString
  | expected text => "Expected " ++ Text.quote text
  | date => "Invalid date or datetime"
  | value => "Invalid value"

/-- What is wrong with a file, and where; at its end if no place is given. -/
structure Mistake where
  cause : Mistake.Cause
  place : Option Position
  deriving DecidableEq, Repr, Inhabited

/-- What is reported, with the place. -/
def Mistake.message (e : Mistake) : String :=
  let place := match e.place with
    | none => "end of document"
    | some p => "line " ++ toString p.line ++ ", column " ++ toString p.column
  e.cause.message ++ " (at " ++ place ++ ")"

/-- Why a file has no entries. -/
inductive Error where
  | mistake (m : Mistake)
  | excess (e : Excess)
  deriving DecidableEq, Repr, Inhabited

/-- A mistake at the cursor. -/
def fail {α : Type} (cur : Cursor) (cause : Mistake.Cause) : Except Error α :=
  .error (.mistake ⟨cause, if cur.rest.isEmpty then none else some cur.position⟩)

/-! ## Characters -/

/-- A space or a tab. -/
def isBlank (c : Char) : Bool := c == ' ' || c == '\t'

/-- A space, a tab or a newline. -/
def isBlankOrNewline (c : Char) : Bool := isBlank c || c == '\n'

/-- A control character other than the tab. -/
def isControl (c : Char) : Bool := (c.toNat < 32 && c != '\t') || c.toNat == 127

/-- A control character other than tab and newline. -/
def isControlInLines (c : Char) : Bool := isControl c && c != '\n'

/-- Whether a character may stand in a key without quotes. -/
def isBareKeyChar (c : Char) : Bool := c.isAlphanum || c == '-' || c == '_'

/-- The first character of a class at the cursor is a mistake. -/
def refuse (bad : Char → Bool) (run : List Char) (cur : Cursor) : Except Error Unit :=
  match run.find? bad with
  | none => .ok ()
  | some c => fail (cur.past (!bad ·)) (.invalidChar c)

/-- The cursor behind a comment, if one begins there. -/
def skipComment (cur : Cursor) : Except Error Cursor :=
  match cur.rest with
  | '#' :: _ => do
    let body := cur.drop 1
    refuse isControl (body.run (· != '\n')) body
    return body.past (· != '\n')
  | _ => .ok cur

/-- The cursor behind blanks, newlines and at most so many comments. -/
def skipLines : (comments : Nat) → Cursor → Except Error Cursor
  | 0, cur => .ok cur
  | comments + 1, cur => do
    let cur := cur.past isBlankOrNewline
    match cur.rest with
    | '#' :: _ => skipLines comments (← skipComment cur)
    | _ => return cur

/-- The cursor behind all blanks, newlines and comments there. -/
def skipAll (cur : Cursor) : Except Error Cursor := skipLines (cur.rest.length + 1) cur

/-! ## Texts -/

/-- The character with a code in base sixteen of so many digits. -/
def hexChar (count : Nat) (cur : Cursor) : Except Error (List Char × Cursor) := do
  let digits := cur.rest.take count
  if digits.length ≠ count ∨ ¬ digits.all Numeral.isHexDigit then fail cur .hexValue else
  let code := Numeral.valueIn 16 digits
  let next := cur.drop count
  if code.isValidChar then return ([Char.ofNat code], next) else fail next .scalarValue

/-- The character that an escape of one letter means. -/
def shortEscape? : Char → Option Char
  | 'b' => some '\x08'
  | 't' => some '\t'
  | 'n' => some '\n'
  | 'f' => some '\x0c'
  | 'r' => some '\r'
  | '"' => some '"'
  | '\\' => some '\\'
  | _ => none

/-- An escaped line end: the newline and all blanks and newlines around it are left out. -/
def lineEscape (cur : Cursor) : Except Error (List Char × Cursor) :=
  let next := cur.past isBlank
  match next.rest with
  | [] => .ok ([], next)
  | '\n' :: _ => .ok ([], next.past isBlankOrNewline)
  | _ => fail next .escape

/-- An escape, at its backslash. -/
def escape (multiline : Bool) (cur : Cursor) : Except Error (List Char × Cursor) :=
  let next := cur.drop 2
  match cur.rest with
  | _ :: 'u' :: _ => hexChar 4 next
  | _ :: 'U' :: _ => hexChar 8 next
  | _ :: c :: _ =>
    if multiline && isBlankOrNewline c then lineEscape (cur.drop 1)
    else
      match shortEscape? c with
      | some value => .ok ([value], next)
      | none => fail next .escape
  | _ => fail next .escape

/-- The rest of a text in double quotes, of at most so many characters. -/
def basicRest (multiline : Bool) : (length : Nat) → Cursor → Except Error (List Char × Cursor)
  | 0, cur => fail cur .unterminated
  | length + 1, cur =>
    match cur.rest with
    | [] => fail cur .unterminated
    | c :: rest =>
      if c = '"' ∧ !multiline then .ok ([], cur.drop 1)
      else if c = '"' ∧ ['"', '"'].isPrefixOf rest then .ok ([], cur.drop 3)
      else if c = '\\' then do
        let (cs, cur) ← escape multiline cur
        let (more, cur) ← basicRest multiline length cur
        return (cs ++ more, cur)
      else if (if multiline then isControlInLines c else isControl c) then fail cur (.illegal c)
      else do
        let (more, cur) ← basicRest multiline length (cur.drop 1)
        return (c :: more, cur)

/-- A text in double quotes on one line. -/
def basicText (cur : Cursor) : Except Error (List Char × Cursor) :=
  basicRest false (cur.rest.length + 1) (cur.drop 1)

/-- A text in single quotes on one line. -/
def literalText (cur : Cursor) : Except Error (List Char × Cursor) := do
  let body := cur.drop 1
  let stop := body.past (· != '\'')
  if stop.rest.isEmpty then fail stop (.expected "'") else
  let text := body.run (· != '\'')
  refuse isControl text body
  return (text, stop.drop 1)

/-- What stands before three single quotes. -/
def beforeMarks? : List Char → Option (List Char)
  | '\'' :: '\'' :: '\'' :: _ => some []
  | c :: cs => (beforeMarks? cs).map (c :: ·)
  | [] => none

/-- Up to two quotes directly behind a text that ends with three belong to it. -/
def extraMarks (mark : Char) (text : List Char) (cur : Cursor) : List Char × Cursor :=
  if cur.startsWith [mark, mark] then (text ++ [mark, mark], cur.drop 2)
  else if cur.startsWith [mark] then (text ++ [mark], cur.drop 1)
  else (text, cur)

/-- A text between three quotes; a newline right behind the first three is left out. -/
def longText (literal : Bool) (cur : Cursor) : Except Error (List Char × Cursor) := do
  let body := cur.drop 3
  let body := if body.startsWith ['\n'] then body.drop 1 else body
  if literal then
    match beforeMarks? body.rest with
    | none => fail (body.drop body.rest.length) (.expected "'''")
    | some text =>
      refuse isControlInLines text body
      return extraMarks '\'' text (body.drop (text.length + 3))
  else
    let (text, cur) ← basicRest true (cur.rest.length + 1) body
    return extraMarks '"' text cur

/-! ## Keys -/

/-- One name of a key. -/
def keyPart (cur : Cursor) : Except Error (String × Cursor) := do
  match cur.rest with
  | '\'' :: _ =>
    let (text, cur) ← literalText cur
    return (.ofList text, cur)
  | '"' :: _ =>
    let (text, cur) ← basicText cur
    return (.ofList text, cur)
  | c :: _ =>
    if isBareKeyChar c then return (.ofList (cur.run isBareKeyChar), cur.past isBareKeyChar)
    else fail cur .keyStart
  | [] => fail cur .keyStart

/-- The names of a key between points, at most so many. -/
def keyParts : (count : Nat) → Cursor → Except Error (Key × Cursor)
  | 0, cur => fail cur .keyStart
  | count + 1, cur => do
    let (name, cur) ← keyPart cur
    let cur := cur.past isBlank
    match cur.rest with
    | '.' :: _ =>
      let (more, cur) ← keyParts count ((cur.drop 1).past isBlank)
      return (name :: more, cur)
    | _ => return ([name], cur)

/-- A key. -/
def readKey (cur : Cursor) : Except Error (Key × Cursor) := keyParts (cur.rest.length + 1) cur

/-! ## Tables -/

/-- A table's entries. -/
abbrev Entries := List (String × Value)

/-- Puts a value in the place of the one under its name, or at the end. -/
def setEntry (name : String) (value : Value) : Entries → Entries
  | [] => [(name, value)]
  | (key, old) :: rest =>
    if name = key then (key, value) :: rest else (key, old) :: setEntry name value rest

/-- Changes the table behind a key, which is made if it is not there. Where the key leads
through an array of tables, `inArrays` says whether its last one is meant. Gives nothing if
the key leads through another value. -/
def changeTable (inArrays : Bool) (change : Entries → Option Entries) :
    Key → Entries → Option Entries
  | [], entries => change entries
  | name :: key, entries =>
    match entries.lookup name with
    | none => do
      let inner ← changeTable inArrays change key []
      return setEntry name (.table inner) entries
    | some (.table inner) => do
      let inner ← changeTable inArrays change key inner
      return setEntry name (.table inner) entries
    | some (.array items) =>
      match inArrays, items.getLast? with
      | true, some (.table inner) => do
        let inner ← changeTable inArrays change key inner
        return setEntry name (.array (items.dropLast ++ [.table inner])) entries
      | _, _ => none
    | some _ => none

/-- Enters a value under a name that has none. -/
def enter (name : String) (value : Value) (entries : Entries) : Option Entries :=
  if (entries.lookup name).isSome then none else some (entries ++ [(name, value)])

/-- Puts one more table at the end of an array of tables, which is made if it is not there. -/
def appendTable (name : String) (entries : Entries) : Option Entries :=
  match entries.lookup name with
  | none => some (entries ++ [(name, .array [.table []])])
  | some (.array items) => some (setEntry name (.array (items ++ [.table []])) entries)
  | some _ => none

/-- Whether a value is an array or a table. -/
def Value.isNest : Value → Bool
  | .array _ | .table _ => true
  | _ => false

/-- The names that lead to the table of a key, and the name in it. -/
def splitKey (key : Key) : Key × String := (key.dropLast, key.getLast?.getD "")

/-! ## Values -/

/-- An entry of an inline table: where it is refused, and the entries with it. -/
def enterInline (frozen : List Key) (key : Key) (value : Value) (entries : Entries) (cur : Cursor) :
    Except Error Entries :=
  let (parent, name) := splitKey key
  if frozen.any (·.isPrefixOf key) then fail cur (.immutable key) else
  match changeTable false some parent entries with
  | none => fail cur .overwritten
  | some entries =>
    match changeTable false (enter name value) parent entries with
    | none => fail cur (.duplicate name)
    | some entries => .ok entries

/-- A day, a time, a number or one of the words for special floats. -/
def scalar (cur : Cursor) : Except Error (Value × Cursor) :=
  let behind (rest : List Char) : Cursor := cur.drop (cur.rest.length - rest.length)
  match dateTime? cur.rest with
  | some (value, rest) =>
    let valid := match value with
      | .date d | .dateTime d _ _ => d.isValid
      | _ => true
    if valid then .ok (value, behind rest) else fail cur .date
  | none =>
    match time? cur.rest with
    | some (time, rest) => .ok (.time time, behind rest)
    | none =>
      match number? cur.rest with
      | some (.ok value, rest) => .ok (value, behind rest)
      | some (.error excess, _) => .error (.excess excess)
      | none =>
        let (negative, word) := Numeral.sign cur.rest
        let count := cur.rest.length - word.length + 3
        if ['i', 'n', 'f'].isPrefixOf word then .ok (.float (.infinite negative), cur.drop count)
        else if ['n', 'a', 'n'].isPrefixOf word then .ok (.float .nan, cur.drop count)
        else fail cur .value

mutual

/-- A value at so much depth, in at most so many steps. An array takes two of depth and an inline
table three; `isFull` tells whether there is no room at a depth for the value that a text begins
with. -/
def readValue (isFull : Nat → List Char → Bool) (depth : Nat) :
    (steps : Nat) → Cursor → Except Error (Value × Cursor)
  | 0, cur => fail cur .value
  | steps + 1, cur => do
    if isFull depth cur.rest then .error (.excess .tooNested) else
    match cur.rest with
    | '"' :: _ =>
      let (text, cur) ←
        if cur.startsWith ['"', '"', '"'] then longText false cur else basicText cur
      return (.text (.ofList text), cur)
    | '\'' :: _ =>
      let (text, cur) ←
        if cur.startsWith ['\'', '\'', '\''] then longText true cur else literalText cur
      return (.text (.ofList text), cur)
    | 't' :: 'r' :: 'u' :: 'e' :: _ => return (.boolean true, cur.drop 4)
    | 'f' :: 'a' :: 'l' :: 's' :: 'e' :: _ => return (.boolean false, cur.drop 5)
    | '[' :: _ =>
      let cur ← skipAll (cur.drop 1)
      if cur.startsWith [']'] then return (.array [], cur.drop 1) else
      let (items, cur) ← readItems isFull (depth + 2) steps cur
      return (.array items, cur)
    | '\x7b' :: _ =>
      let cur := (cur.drop 1).past isBlank
      if cur.startsWith ['\x7d'] then return (.table [], cur.drop 1) else
      let (entries, cur) ← readEntries isFull (depth + 3) steps [] [] cur
      return (.table entries, cur)
    | _ => scalar cur

/-- The items of an array up to its end; there is one at least. -/
def readItems (isFull : Nat → List Char → Bool) (depth : Nat) :
    (steps : Nat) → Cursor → Except Error (List Value × Cursor)
  | 0, cur => fail cur .value
  | steps + 1, cur => do
    let (item, cur) ← readValue isFull depth steps cur
    let cur ← skipAll cur
    if cur.startsWith [']'] then return ([item], cur.drop 1) else
    if !cur.startsWith [','] then fail cur .unclosedArray else
    let cur ← skipAll (cur.drop 1)
    if cur.startsWith [']'] then return ([item], cur.drop 1) else
    let (items, cur) ← readItems isFull depth steps cur
    return (item :: items, cur)

/-- The entries of an inline table up to its end, with those before them; `frozen` are the
keys of the arrays and tables among those. -/
def readEntries (isFull : Nat → List Char → Bool) (depth : Nat) :
    (steps : Nat) → (frozen : List Key) → Entries → Cursor → Except Error (Entries × Cursor)
  | 0, _, _, cur => fail cur .value
  | steps + 1, frozen, entries, cur => do
    let (key, cur) ← readKey cur
    if !cur.startsWith ['='] then fail cur .equalsSign else
    let (value, cur) ← readValue isFull depth steps ((cur.drop 1).past isBlank)
    let entries ← enterInline frozen key value entries cur
    let cur := cur.past isBlank
    if cur.startsWith ['\x7d'] then return (entries, cur.drop 1) else
    if !cur.startsWith [','] then fail cur .unclosedTable else
    let frozen := if value.isNest then key :: frozen else frozen
    readEntries isFull depth steps frozen entries ((cur.drop 1).past isBlank)

end

/-! ## Statements -/

/-- What is known of the file so far. -/
structure State where
  entries : Entries
  /-- The tables that no header may open. -/
  declared : List Key
  /-- The tables that none may open after the next header. -/
  pending : List Key
  /-- The values that nothing may be put into. -/
  frozen : List Key
  /-- The table that the last header opened. -/
  header : Key
  deriving Inhabited

namespace State

/-- Whether a value stands for itself, by itself or as part of another. -/
def isFrozen (st : State) (key : Key) : Bool := st.frozen.any (·.isPrefixOf key)

/-- A key with its value. -/
def keyValue (isFull : Nat → List Char → Bool) (st : State) (cur : Cursor) :
    Except Error (State × Cursor) := do
  let (key, cur) ← readKey cur
  if !cur.startsWith ['='] then fail cur .equalsSign else
  let (value, cur) ←
    readValue isFull 0 (2 * cur.rest.length + 2) ((cur.drop 1).past isBlank)
  let (parent, name) := splitKey key
  let opened := (List.range' 1 (key.length - 1)).map fun n => st.header ++ key.take n
  match opened.find? st.declared.contains with
  | some nest => fail cur (.redefined nest)
  | none =>
    if st.isFrozen (st.header ++ parent) then fail cur (.immutable (st.header ++ parent)) else
    match changeTable true (enter name value) (st.header ++ parent) st.entries with
    | none => fail cur .overwritten
    | some entries =>
      let frozen := if value.isNest then (st.header ++ key) :: st.frozen else st.frozen
      let pending := opened ++ st.pending
      return ({ st with entries := entries, frozen := frozen, pending := pending }, cur)

/-- The header of a table. -/
def tableHeader (st : State) (cur : Cursor) : Except Error (State × Cursor) := do
  let (key, cur) ← readKey ((cur.drop 1).past isBlank)
  if st.declared.contains key || st.isFrozen key then fail cur (.declaredTwice key) else
  match changeTable true some key st.entries with
  | none => fail cur .overwritten
  | some entries =>
    if !cur.startsWith [']'] then fail cur .tableEnd else
    return ({ st with entries := entries, declared := key :: st.declared, header := key },
      cur.drop 1)

/-- The header of one more table in an array. -/
def arrayHeader (st : State) (cur : Cursor) : Except Error (State × Cursor) := do
  let (key, cur) ← readKey ((cur.drop 2).past isBlank)
  if st.isFrozen key then fail cur (.immutable key) else
  let declared := key :: st.declared.filter (!key.isPrefixOf ·)
  let frozen := st.frozen.filter (!key.isPrefixOf ·)
  let (parent, name) := splitKey key
  match changeTable true (appendTable name) parent st.entries with
  | none => fail cur .overwritten
  | some entries =>
    if !cur.startsWith [']', ']'] then fail cur .arrayTableEnd else
    return ({ st with entries := entries, declared := declared, frozen := frozen, header := key },
      cur.drop 2)

/-- A header; from here on the tables made by dotted keys are closed. -/
def anyHeader (st : State) (cur : Cursor) : Except Error (State × Cursor) :=
  let st := { st with declared := st.pending ++ st.declared, pending := [] }
  if cur.startsWith ['[', '['] then st.arrayHeader cur else st.tableHeader cur

/-- A statement, if one stands on the line. -/
def statement (isFull : Nat → List Char → Bool) (st : State) (cur : Cursor) :
    Except Error (State × Cursor) :=
  match cur.rest with
  | [] => .ok (st, cur)
  | c :: _ =>
    if c = '\n' ∨ c = '#' then .ok (st, cur)
    else if isBareKeyChar c || c == '"' || c == '\'' then st.keyValue isFull cur
    else if c = '[' then st.anyHeader cur
    else fail cur .statement

/-- The lines of a file, at most so many. -/
def readLines (isFull : Nat → List Char → Bool) :
    (count : Nat) → State → Cursor → Except Error Entries
  | 0, st, _ => .ok st.entries
  | count + 1, st, cur => do
    let (st, cur) ← st.statement isFull (cur.past isBlank)
    let cur ← skipComment (cur.past isBlank)
    match cur.rest with
    | [] => return st.entries
    | '\n' :: _ => readLines isFull count st (cur.drop 1)
    | _ => fail cur .lineEnd

end State

/-- Every return before a newline is left out. -/
def joinLineEnds : List Char → List Char
  | '\r' :: '\n' :: cs => '\n' :: joinLineEnds cs
  | c :: cs => c :: joinLineEnds cs
  | [] => []

/-- The entries of a file; `isFull` tells where there is no room for a value. -/
def read (isFull : Nat → List Char → Bool) (text : String) : Except Error Entries :=
  let cs := joinLineEnds text.toList
  State.readLines isFull (cs.length + 1) ⟨[], [], [], [], []⟩ ⟨cs, .first⟩

end Markup.Toml
