/-
Disks: files and directories by location.

A location is reached from the working directory or from the root of all
paths. The working directory, those above it and the root are there from the
start; of the others only what was put there. Every change gives what it
touches a time later than all before: a file when it is written, a directory
when an entry of it appears or goes.

`Disk.locate` follows a path. Each name but the last has to be a directory,
also before `..`, and it must be permitted to search it. A name has at most
255 bytes and a whole path at most 4095. A path with a NUL character is
refused before the disk is asked.

A file that is written is emptied first. So a write that breaks off behind
that leaves the file with less than it was to hold (`Disk.writeText`).
-/
import Markup.Path
import Markup.Text.Line

namespace Markup

/-- Why the disk refuses. -/
inductive Disk.Fault where
  | missing
  | notDirectory
  | isDirectory
  | nameTooLong
  | denied
  | noSpace
  deriving DecidableEq, Repr, Inhabited

/-- The number of a fault. -/
def Disk.Fault.code : Disk.Fault → Nat
  | missing => 2
  | notDirectory => 20
  | isDirectory => 21
  | nameTooLong => 36
  | denied => 13
  | noSpace => 28

/-- The words for a fault. -/
def Disk.Fault.text : Disk.Fault → String
  | missing => "No such file or directory"
  | notDirectory => "Not a directory"
  | isDirectory => "Is a directory"
  | nameTooLong => "File name too long"
  | denied => "Permission denied"
  | noSpace => "No space left on device"

/-- Whether it stays open, for a fault, if something is at a path. -/
def Disk.Fault.leavesOpen : Disk.Fault → Bool
  | nameTooLong | denied => true
  | missing | notDirectory | isDirectory | noSpace => false

/-- Why what a path leads to cannot be told or read. -/
inductive Disk.Error where
  | refused (fault : Disk.Fault) (path : Path)
  /-- The path has a NUL character. -/
  | unnameable
  /-- The file's bytes are no text. -/
  | undecodable
  deriving DecidableEq, Repr, Inhabited

namespace Disk

/-- Where locations are counted from. -/
inductive Base where
  /-- The working directory, or the one so many levels above it. -/
  | above (levels : Nat)
  /-- The root of all paths. -/
  | root
  deriving DecidableEq, Repr, Inhabited

/-- A place on the disk. -/
structure Location where
  base : Base
  names : List String
  deriving DecidableEq, Repr, Inhabited

/-- What is at a location. -/
inductive Content where
  | directory
  | file (bytes : ByteArray)
  deriving Inhabited

instance : DecidableEq Content
  | .directory, .directory => isTrue rfl
  | .file a, .file b =>
    match ByteArray.instDecidableEq a b with
    | isTrue h => isTrue (h ▸ rfl)
    | isFalse h => isFalse fun e => h (Content.file.inj e)
  | .directory, .file _ | .file _, .directory => isFalse nofun

/-- What is at a location, and when it last changed: the time as the program is told it, so that
changes to which it is told one time cannot be told apart. -/
structure Entry where
  content : Content
  modified : Int
  deriving DecidableEq, Inhabited

/-- The directory that holds a location. -/
def Location.parent (l : Location) : Location :=
  match l.names, l.base with
  | [], .above levels => ⟨.above (levels + 1), []⟩
  | [], .root => l
  | names, base => ⟨base, names.dropLast⟩

/-- A location in a directory. -/
def Location.child (l : Location) (name : String) : Location := ⟨l.base, l.names ++ [name]⟩

/-- Whether a location is another or lies below it. -/
def Location.isWithin (l other : Location) : Bool :=
  l.base == other.base && other.names.isPrefixOf l.names

/-- What may be permitted at a location or not. -/
inductive Use where
  /-- To go on from a directory. -/
  | search
  | read
  /-- To write a file, or to make one in a directory. -/
  | write
  deriving DecidableEq, Repr, Inhabited

/-- How a write breaks off. -/
structure Break where
  /-- How much has been written by then. -/
  written : Nat
  fault : Fault
  deriving DecidableEq, Repr, Inhabited

end Disk

/-- Files and directories. -/
structure Disk where
  entries : List (Disk.Location × Disk.Entry)
  /-- The time of the last change. -/
  now : Int
  /-- What is not permitted. -/
  denies : Disk.Use → Disk.Location → Bool
  /-- How it breaks off to write bytes to a file, if it does. -/
  breaks : Disk.Location → ByteArray → Option Disk.Break
  deriving Inhabited

namespace Disk

/-- A disk on which all is permitted and every write comes to its end. -/
def ofEntries (entries : List (Location × Entry)) (now : Int) : Disk :=
  ⟨entries, now, fun _ _ => false, fun _ _ => none⟩

/-- A disk without files. -/
def empty : Disk := .ofEntries [] 1700000000000000000

/-- What is at a location. Where locations are counted from there is a directory. -/
def entry? (d : Disk) (l : Location) : Option Entry :=
  let found := d.entries.lookup l
  if l.names.isEmpty then some ⟨.directory, (found.map (·.modified)).getD 1600000000000000000⟩
  else found

/-- The most bytes that a name may have. -/
def longestName : Nat := 255

/-- The most bytes that a path may have. -/
def longestPath : Nat := 4095

/-- Follows names from a directory. -/
def follow (d : Disk) (l : Location) : List String → Except Fault Location
  | [] => .ok l
  | name :: rest =>
    let next := if name = ".." then l.parent else l.child name
    if d.denies .search l then .error .denied
    else if longestName < name.utf8ByteSize then .error .nameTooLong
    else if rest.isEmpty then .ok next
    else
      match d.entry? next with
      | none => .error .missing
      | some ⟨.file _, _⟩ => .error .notDirectory
      | some ⟨.directory, _⟩ => d.follow next rest

/-- The location that a path leads to, whether something is there or not. -/
def locate (d : Disk) (path : Path) : Except Error Location :=
  if path.hasNul then .error .unnameable
  else if longestPath < path.text.utf8ByteSize then .error (.refused .nameTooLong path)
  else
    match d.follow ⟨if path.root = .none then .above 0 else .root, []⟩ path.names with
    | .error fault => .error (.refused fault path)
    | .ok l => .ok l

/-- What a path leads to. -/
def find (d : Disk) (path : Path) : Except Error Entry :=
  match d.locate path with
  | .error e => .error e
  | .ok l =>
    match d.entry? l with
    | none => .error (.refused .missing path)
    | some entry => .ok entry

/-- Whether a path leads to a file. There is no telling if it has too long a name, or leads through
a directory that must not be searched. -/
def isFile (d : Disk) (path : Path) : Except Error Bool :=
  match d.find path with
  | .ok ⟨.file _, _⟩ => .ok true
  | .ok ⟨.directory, _⟩ => .ok false
  | .error (.refused fault path) =>
    if fault.leavesOpen then .error (.refused fault path) else .ok false
  | .error _ => .ok false

/-- The first of several paths that leads to a file, as far as can be told. -/
def firstFile? (d : Disk) : List Path → Except Error (Option Path)
  | [] => .ok none
  | path :: rest =>
    match d.isFile path with
    | .error e => .error e
    | .ok true => .ok (some path)
    | .ok false => d.firstFile? rest

/-- When what a path leads to last changed, if something is there. -/
def modified? (d : Disk) (path : Path) : Except Error (Option Int) :=
  match d.find path with
  | .ok entry => .ok (some entry.modified)
  | .error (.refused _ _) => .ok none
  | .error e => .error e

/-- The bytes of a file. -/
def readBytes (d : Disk) (path : Path) : Except Error ByteArray :=
  match d.locate path with
  | .error e => .error e
  | .ok l =>
    match d.entry? l with
    | none => .error (.refused .missing path)
    | some entry =>
      if d.denies .read l then .error (.refused .denied path)
      else
        match entry.content with
        | .directory => .error (.refused .isDirectory path)
        | .file bytes => .ok bytes

/-- The text of a file, byte for byte. -/
def readExactly (d : Disk) (path : Path) : Except Error String :=
  match d.readBytes path with
  | .error e => .error e
  | .ok bytes =>
    match String.fromUTF8? bytes with
    | none => .error .undecodable
    | some text => .ok text

/-- The text of a file, with every line end a newline. -/
def readText (d : Disk) (path : Path) : Except Error String :=
  match d.readExactly path with
  | .error e => .error e
  | .ok text => .ok (.ofList (Text.unifyNewlines text.toList))

theorem isFile_error {d : Disk} {path : Path} {e : Error} (h : d.isFile path = .error e) :
    ∃ fault place, fault.leavesOpen = true ∧ e = .refused fault place := by
  rw [isFile] at h
  split at h
  next => cases h
  next => cases h
  next fault place _ =>
    split at h
    next ho =>
      cases h
      exact ⟨fault, place, ho, rfl⟩
    next => cases h
  next => cases h

/-! ## Changes -/

/-- Puts something at a location, with the time it changed. -/
def set (d : Disk) (l : Location) (entry : Entry) : Disk :=
  { d with entries := (l, entry) :: d.entries.filter (·.1 ≠ l) }

/-- Lets time pass. -/
def tick (d : Disk) : Disk := { d with now := d.now + 1 }

/-- Puts something at a location, now; what is new there changes its directory too. -/
def put (d : Disk) (l : Location) (content : Content) : Disk :=
  let d := d.tick
  let isNew := (d.entry? l).isNone
  let d := d.set l ⟨content, d.now⟩
  if isNew then d.set l.parent ⟨.directory, d.now⟩ else d

/-- Makes the directories along names where nothing is. -/
def makeDirectories (d : Disk) (l : Location) : List String → Disk × Location
  | [] => (d, l)
  | name :: rest =>
    let next := if name = ".." then l.parent else l.child name
    let d := if (d.entry? next).isSome then d else d.put next .directory
    d.makeDirectories next rest

/-- Puts a file or a directory at a path, with the directories that lead to it. -/
def place (d : Disk) (path : Path) (content : Content) : Disk :=
  let base : Base := if path.root = .none then .above 0 else .root
  match path.names.getLast? with
  | none => d
  | some name =>
    let (d, l) := d.makeDirectories ⟨base, []⟩ path.names.dropLast
    let l := if name = ".." then l.parent else l.child name
    match content with
    | .directory => if (d.entry? l).isSome then d else d.put l content
    | .file _ => d.put l content

/-- Removes what a path leads to, with all that is in it. -/
def remove (d : Disk) (path : Path) : Disk :=
  match d.locate path with
  | .error _ => d
  | .ok l =>
    if (d.entry? l).isNone then d else
    let d := d.tick
    let d := { d with entries := d.entries.filter fun e => !e.1.isWithin l }
    d.set l.parent ⟨.directory, d.now⟩

/-- Gives what a path leads to another time. -/
def touch (d : Disk) (path : Path) (time : Int) : Disk :=
  match d.locate path with
  | .error _ => d
  | .ok l =>
    match d.entry? l with
    | none => d
    | some entry => d.set l ⟨entry.content, time⟩

/-- Where the file is that a path leads to, if it may be written: it is there already, or can be made
in its directory. -/
def locateToWrite (d : Disk) (path : Path) : Except Error Location :=
  match d.locate path with
  | .error e => .error e
  | .ok l =>
    match d.entry? l with
    | some ⟨.directory, _⟩ => .error (.refused .isDirectory path)
    | some ⟨.file _, _⟩ => if d.denies .write l then .error (.refused .denied path) else .ok l
    | none => if d.denies .write l.parent then .error (.refused .denied path) else .ok l

/-- Why a text is not written. -/
inductive WriteError where
  /-- The file is as it was. -/
  | unopened (e : Error)
  /-- The file was emptied, and has the front of the text at most. -/
  | broken (fault : Fault)
  /-- The file was emptied: a character of the text is none that a file can hold. -/
  | unencodable
  deriving DecidableEq, Repr, Inhabited

/-- Writes a text to a file and gives the disk behind it; `unencodable` are the characters that no
file can hold. -/
def writeText (d : Disk) (unencodable : Char → Bool) (path : Path) (text : String) :
    Except WriteError Unit × Disk :=
  match d.locateToWrite path with
  | .error e => (.error (.unopened e), d)
  | .ok l =>
    if text.toList.any unencodable then (.error .unencodable, d.put l (.file .empty))
    else
      match d.breaks l text.toUTF8 with
      | some b => (.error (.broken b.fault), d.put l (.file (text.toUTF8.extract 0 b.written)))
      | none => (.ok (), d.put l (.file text.toUTF8))

end Disk

end Markup
