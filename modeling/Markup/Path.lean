/-
Paths of files.

A path is a root, which may be missing, and the names that lead on from it.
Empty names and `.` are left out when a path is read; `..` is kept, because
what it means depends on the disk. Two slashes at the start are a root of
their own, three or more are the same as one.
-/
namespace Markup

/-- Where a path begins. -/
inductive Path.Root where
  /-- In the working directory. -/
  | none
  | single
  | double
  deriving DecidableEq, Repr, Inhabited

/-- A path. -/
structure Path where
  root : Path.Root
  names : List String
  deriving DecidableEq, Repr, Inhabited

namespace Path

/-- The slashes of a root. -/
def Root.text : Root → String
  | none => ""
  | single => "/"
  | double => "//"

/-- The root that the start of a path gives. -/
def Root.ofChars : List Char → Root
  | '/' :: '/' :: '/' :: _ => single
  | '/' :: '/' :: _ => double
  | '/' :: _ => single
  | _ => none

/-- The names between slashes. -/
def split : List Char → List (List Char)
  | [] => [[]]
  | c :: cs =>
    match split cs with
    | [] => [[c]]
    | name :: rest => if c = '/' then [] :: name :: rest else (c :: name) :: rest

/-- Reads a path. -/
def ofText (text : String) : Path :=
  ⟨.ofChars text.toList,
    ((split text.toList).map String.ofList).filter fun name => name ≠ "" ∧ name ≠ "."⟩

/-- The path as it is written; the working directory is `.`. -/
def text (path : Path) : String :=
  if path.root = .none ∧ path.names = [] then "."
  else path.root.text ++ "/".intercalate path.names

/-- The path `other`, taken from the directory `path` unless it has a root. -/
def join (path other : Path) : Path :=
  if other.root = .none then ⟨path.root, path.names ++ other.names⟩ else other

/-- The path without its last name. -/
def parent (path : Path) : Path := ⟨path.root, path.names.dropLast⟩

/-- Whether a NUL character is in a name. -/
def hasNul (path : Path) : Bool := path.names.any (·.toList.contains '\x00')

/-- The last name, or nothing. -/
def name (path : Path) : String := path.names.getLast?.getD ""

end Path

end Markup
