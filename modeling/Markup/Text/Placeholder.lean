/-
Placeholders: a `$` and the longest run of letters, numbers, `_` and `-`
after it.

`placeholders` lists the names a text refers to, each once, by first
appearance. `substitute` puts a value for a name. It replaces the characters
of the name wherever they follow a `$`, also where they only begin a longer
placeholder.
-/
import Markup.Text.Letter
import Markup.Text.Digit

namespace Markup.Text

/-- Whether a character may stand in a placeholder's name. -/
def isPlaceholderChar (c : Char) : Bool := isLetter c || isNumeric c || c == '_' || c == '-'

/-- The name behind each `$`, from left to right, where there is one. -/
def placeholderRuns : List Char → List (List Char)
  | [] => []
  | c :: cs =>
    let name := cs.takeWhile isPlaceholderChar
    if c == '$' && !name.isEmpty then name :: placeholderRuns cs else placeholderRuns cs

/-- The names of a text's placeholders, each once, by first appearance. -/
def placeholders (body : String) : List String :=
  ((placeholderRuns body.toList).map String.ofList).eraseDups

theorem isPlaceholderChar_of_mem_placeholderRuns {cs run : List Char} (h : run ∈ placeholderRuns cs) {c : Char}
    (hc : c ∈ run) : isPlaceholderChar c = true := by
  induction cs with
  | nil => cases h
  | cons d cs ih =>
    simp only [placeholderRuns] at h
    split at h
    next =>
      rcases List.mem_cons.1 h with rfl | h
      · exact List.all_eq_true.1 List.all_takeWhile c hc
      · exact ih h
    next => exact ih h

theorem isPlaceholderChar_of_mem_placeholders {body name : String} (h : name ∈ placeholders body) {c : Char}
    (hc : c ∈ name.toList) : isPlaceholderChar c = true := by
  obtain ⟨run, hm, rfl⟩ := List.mem_map.1 (List.mem_eraseDups.1 h)
  rw [String.toList_ofList] at hc
  exact isPlaceholderChar_of_mem_placeholderRuns hm hc

/-- Copies a text with `value` for every `$name`, after passing over `skip` characters. -/
def substituteChars (name value : List Char) : (skip : Nat) → List Char → List Char
  | _, [] => []
  | skip + 1, _ :: cs => substituteChars name value skip cs
  | 0, c :: cs =>
    if c == '$' && name.isPrefixOf cs then
      value ++ substituteChars name value name.length cs
    else c :: substituteChars name value 0 cs

/-- Puts a value for every `$name` in a text, from left to right. -/
def substitute (text name value : String) : String :=
  .ofList (substituteChars name.toList value.toList 0 text.toList)

end Markup.Text
