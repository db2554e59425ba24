/-
What the command runs on.

A host has room for what is nested only so deep. How much is left differs
from one place to the other, so that each is told by itself: the expansion
of the input has a limit, and the tokens of the input, the values that are
read from a config and those that are written as text have a test for being
full.

A word of the command line may have bytes that are no text; characters stand
for them, which no file can hold. Not every character can be printed,
either, and printing may break off as writing may.
-/
import Markup.Disk
import Markup.Node.Parse
import Markup.Toml.Value

namespace Markup.CommandLine

/-- What a host allows. -/
structure Host where
  /-- How deep calls and references may nest. -/
  limit : Nat
  /-- Whether there is no room left to take a token of the input. -/
  isFull : Node.State → Token → Bool
  /-- Whether there is no room left for a value of the config, as it is read. -/
  configIsFull : Nat → List Char → Bool
  /-- Whether there is no room left for a part of a variable's value, as it is written. -/
  variableIsFull : Nat → Toml.Value → Bool
  /-- Whether there is no room left for a part of a module's name, as it is written. -/
  moduleIsFull : Nat → Toml.Value → Bool
  /-- The characters that no file can hold. -/
  unencodable : Char → Bool
  unprintable : Char → Bool
  /-- How printing a text breaks off, if it does. -/
  breaks : String → Option Disk.Break

namespace Host

/-- A host that has room for everything but calls and references that nest deeper than a limit, and
can write and print every text. -/
def roomy (limit : Nat) : Host where
  limit := limit
  isFull _ _ := false
  configIsFull _ _ := false
  variableIsFull _ _ := false
  moduleIsFull _ _ := false
  unencodable _ := false
  unprintable _ := false
  breaks _ := none

/-- Prints a text; gives what has been printed. -/
def print (host : Host) (text : String) : Except Disk.WriteError Unit × String :=
  if text.toList.any host.unprintable then (.error .unencodable, "")
  else
    match host.breaks text with
    | some b => (.error (.broken b.fault), .ofList (text.toList.take b.written))
    | none => (.ok (), text)

end Host

end Markup.CommandLine
