/-
Values of a TOML file, and their text.

`Value.display` is what a value stands for where a text is wanted. A text is
itself, days and times are in the order of ISO 8601 with a blank before the
time. Within arrays and tables (`Value.quoted`) texts are quoted and days
and times are spelled out field by field.

`Value.write` gives that text unless the value goes past a limit (`Excess`):
an integer has at most 4300 digits in base ten, and how deep values may be
nested depends on the room that there is where the text is wanted.
-/
import Markup.Binary64.Shortest
import Markup.Text.Quoted

namespace Markup.Toml

/-- A day of the calendar. -/
structure Date where
  year : Nat
  month : Nat
  day : Nat
  deriving DecidableEq, Repr, Inhabited

/-- A time of day. -/
structure Time where
  hour : Nat
  minute : Nat
  second : Nat
  micro : Nat
  deriving DecidableEq, Repr, Inhabited

/-- A value of a TOML file. -/
inductive Value where
  | text (s : String)
  | boolean (b : Bool)
  | integer (n : Int)
  | float (x : Binary64)
  | date (d : Date)
  | time (t : Time)
  /-- A day and a time, with the minutes it is ahead of universal time if it says so. -/
  | dateTime (d : Date) (t : Time) (offset : Option Int)
  | array (items : List Value)
  /-- Values by key, in the order of the file. -/
  | table (entries : List (String × Value))
  deriving Inhabited

/-- How a value may go past a limit. -/
inductive Excess where
  | longInteger
  | tooNested
  deriving DecidableEq, Repr, Inhabited

/-- The most digits that an integer has in base ten. -/
def digitLimit : Nat := 4300

/-- A number with zeros before it up to a width. -/
def padded (width n : Nat) : String :=
  let digits := toString n
  .ofList (List.replicate (width - digits.length) '0') ++ digits

/-- A day as year, month and day. -/
def Date.text (d : Date) : String :=
  padded 4 d.year ++ "-" ++ padded 2 d.month ++ "-" ++ padded 2 d.day

/-- A time as hours, minutes and seconds, and the fraction if there is one. -/
def Time.text (t : Time) : String :=
  padded 2 t.hour ++ ":" ++ padded 2 t.minute ++ ":" ++ padded 2 t.second ++
    (if t.micro = 0 then "" else "." ++ padded 6 t.micro)

/-- The distance from universal time. -/
def offsetText (offset : Int) : String :=
  (if offset < 0 then "-" else "+") ++ padded 2 (offset.natAbs / 60) ++ ":" ++
    padded 2 (offset.natAbs % 60)

/-- The fields of a time, without those at the end that are zero, hours and minutes apart. -/
def Time.fields (t : Time) : List Nat :=
  if t.micro ≠ 0 then [t.hour, t.minute, t.second, t.micro]
  else if t.second ≠ 0 then [t.hour, t.minute, t.second]
  else [t.hour, t.minute]

/-- Fields between commas. -/
def commaList (fields : List Nat) : String := ", ".intercalate (fields.map toString)

/-- The distance from universal time, spelled out. -/
def offsetFields : Option Int → String
  | none => ""
  | some 0 => ", tzinfo=datetime.timezone.utc"
  | some offset =>
    let days := if offset < 0 then "days=-1, " else ""
    let seconds := if offset < 0 then 86400 + 60 * offset else 60 * offset
    ", tzinfo=datetime.timezone(datetime.timedelta(" ++ days ++ "seconds=" ++ toString seconds ++
      "))"

mutual

/-- The text of a value within another. -/
def Value.quoted : Value → String
  | .text s => Text.quote s
  | .boolean b => if b then "True" else "False"
  | .integer n => toString n
  | .float x => x.toText
  | .date d => "datetime.date(" ++ commaList [d.year, d.month, d.day] ++ ")"
  | .time t => "datetime.time(" ++ commaList t.fields ++ ")"
  | .dateTime d t offset =>
    "datetime.datetime(" ++ commaList ([d.year, d.month, d.day] ++ t.fields) ++
      offsetFields offset ++ ")"
  | .array items => "[" ++ ", ".intercalate (Value.quotedAll items) ++ "]"
  | .table entries =>
    .singleton '\x7b' ++ ", ".intercalate (Value.quotedEntries entries) ++ .singleton '\x7d'

/-- The texts of the values of an array. -/
def Value.quotedAll : List Value → List String
  | [] => []
  | item :: rest => item.quoted :: Value.quotedAll rest

/-- The texts of the entries of a table. -/
def Value.quotedEntries : List (String × Value) → List String
  | [] => []
  | (key, value) :: rest => (Text.quote key ++ ": " ++ value.quoted) :: Value.quotedEntries rest

end

/-- The text of a value. -/
def Value.display : Value → String
  | .text s => s
  | .date d => d.text
  | .time t => t.text
  | .dateTime d t offset => d.text ++ " " ++ t.text ++ ((offset.map offsetText).getD "")
  | value => value.quoted

mutual

/-- How a value that so many arrays and tables stand around goes past a limit, if it does; `isFull`
tells whether there is no room for a value at such a place. -/
def Value.excess? (isFull : Nat → Value → Bool) (nesting : Nat) (value : Value) : Option Excess :=
  if isFull nesting value then some .tooNested
  else
    match value with
    | .integer n => if Nat.pow 10 digitLimit ≤ n.natAbs then some .longInteger else none
    | .array items => Value.excessAmong? isFull (nesting + 1) items
    | .table entries => Value.excessWithin? isFull (nesting + 1) entries
    | _ => none

/-- How the first of the items of an array that does so goes past a limit. -/
def Value.excessAmong? (isFull : Nat → Value → Bool) (nesting : Nat) :
    List Value → Option Excess
  | [] => none
  | item :: rest => (item.excess? isFull nesting).or (Value.excessAmong? isFull nesting rest)

/-- How the first of the entries of a table that does so goes past a limit. -/
def Value.excessWithin? (isFull : Nat → Value → Bool) (nesting : Nat) :
    List (String × Value) → Option Excess
  | [] => none
  | (_, value) :: rest =>
    (value.excess? isFull nesting).or (Value.excessWithin? isFull nesting rest)

end

/-- The text of a value, unless it goes past a limit. -/
def Value.write (isFull : Nat → Value → Bool) (value : Value) : Except Excess String :=
  match value.excess? isFull 0 with
  | some excess => .error excess
  | none => .ok value.display

end Markup.Toml
