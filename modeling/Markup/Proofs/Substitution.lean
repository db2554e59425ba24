/-
Putting arguments one after another is putting them at once.

A body is made of plain text and of placeholders (`Piece`). One substitution changes
the placeholders of its name and no others (`substituteChars_textOf`), where none of
them can be taken for another's (`Apart`): what was put before has no `$`, so nothing
in it is found again (`substituteAll_textOf`). So all substitutions, in whatever
order, put each argument for the placeholders of its own parameter
(`substituteAll_eq_filled`), and a macro gives the text that says so
(`expandMacro_fills_template`).

Names that are read from a body have no `$` (`not_mem_of_mem_placeholders`), and are
apart where none begins another (`apart_of_not_prefix`).
-/
import Markup.Proofs.ExpandSteps

namespace Markup.Text

/-! ## Texts with placeholders -/

/-- A part of a body. -/
inductive Piece where
  | plain (text : String)
  /-- The placeholder of a name. -/
  | slot (name : String)

/-- The characters of a part. -/
def Piece.chars : Piece → List Char
  | plain text => text.toList
  | slot name => '$' :: name.toList

/-- The characters of a body. -/
def textOf (pieces : List Piece) : List Char := pieces.flatMap Piece.chars

/-- Puts a value for the placeholders of a name. -/
def Piece.put (name value : String) : Piece → Piece
  | plain text => plain text
  | slot other => if other = name then plain value else slot other

/-- A part with the value of each name for its placeholder. -/
def Piece.filled (value : String → String) : Piece → String
  | plain text => text
  | slot name => value name

/-- A body with the value of each name for its placeholders. -/
def filled (value : String → String) (pieces : List Piece) : String :=
  .ofList (pieces.flatMap fun piece => (piece.filled value).toList)

/-- Whether a part is a text without `$` or the placeholder of one of several names. -/
def Piece.IsOver (names : List String) : Piece → Prop
  | plain text => '$' ∉ text.toList
  | slot name => name ∈ names

/-- Whether no `$` in the placeholder of `other` can begin one of `name`: what stands behind it neither
begins `name` nor is begun by it. -/
def Apart (name other : String) : Prop :=
  ∀ before behind, '$' :: other.toList = before ++ '$' :: behind →
    ¬ behind <+: name.toList ∧ ¬ name.toList <+: behind

theorem apart_of_not_prefix {name other : String} (hd : '$' ∉ other.toList)
    (h : ¬ other.toList <+: name.toList) (h' : ¬ name.toList <+: other.toList) : Apart name other := by
  intro before behind he
  cases before with
  | nil =>
    cases he
    exact ⟨h, h'⟩
  | cons c before =>
    refine absurd ?_ hd
    rw [(List.cons.inj he).2]
    simp

theorem not_mem_of_mem_placeholders {body name : String} (h : name ∈ placeholders body) : '$' ∉ name.toList :=
  fun hm => absurd (isPlaceholderChar_of_mem_placeholders h hm) (by decide)

/-! ## One substitution -/

section

variable {name value : List Char}

/-- Text is copied where no placeholder begins in it. -/
theorem substituteChars_append {cs rest : List Char}
    (h : ∀ before behind, cs = before ++ '$' :: behind → ¬ name <+: behind ++ rest) :
    substituteChars name value 0 (cs ++ rest) = cs ++ substituteChars name value 0 rest := by
  induction cs with
  | nil => rfl
  | cons c cs ih =>
    have hstep : ¬ (c == '$' && name.isPrefixOf (cs ++ rest)) = true := by
      intro hs
      obtain ⟨hc, hprefix⟩ := Bool.and_eq_true_iff.1 hs
      exact h [] cs (by rw [beq_iff_eq.1 hc, List.nil_append]) (List.isPrefixOf_iff_prefix.1 hprefix)
    rw [List.cons_append, substituteChars, if_neg hstep,
      ih fun before behind he => h (c :: before) behind (by rw [he, List.cons_append]), List.cons_append]

theorem substituteChars_skip (skipped rest : List Char) :
    substituteChars name value skipped.length (skipped ++ rest) = substituteChars name value 0 rest := by
  induction skipped with
  | nil => rfl
  | cons c skipped ih => rw [List.length_cons, List.cons_append, substituteChars, ih]

theorem substituteChars_slot (rest : List Char) :
    substituteChars name value 0 ('$' :: (name ++ rest)) = value ++ substituteChars name value 0 rest := by
  have hp : name.isPrefixOf (name ++ rest) = true := List.isPrefixOf_iff_prefix.2 (List.prefix_append name rest)
  rw [substituteChars, hp, substituteChars_skip]
  rfl

end

/-- A placeholder of one name has none of another in it, whatever follows. -/
theorem not_prefix_of_apart {name other : String} (h : Apart name other) (rest before behind : List Char)
    (he : '$' :: other.toList = before ++ '$' :: behind) : ¬ name.toList <+: behind ++ rest := by
  intro hp
  obtain ⟨hbehind, hname⟩ := h before behind he
  rcases List.prefix_or_prefix_of_prefix hp (List.prefix_append behind rest) with h | h
  · exact hname h
  · exact hbehind h

/-- One substitution changes the placeholders of its name. -/
theorem substituteChars_textOf {names : List String} {name value : String} (hm : name ∈ names)
    (hapart : ∀ p ∈ names, ∀ q ∈ names, p ≠ q → Apart p q) {pieces : List Piece}
    (hp : ∀ piece ∈ pieces, piece.IsOver names) :
    substituteChars name.toList value.toList 0 (textOf pieces) = textOf (pieces.map (·.put name value)) := by
  induction pieces with
  | nil => rfl
  | cons piece pieces ih =>
    obtain ⟨hover, hrest⟩ := List.forall_mem_cons.1 hp
    simp only [textOf, List.map_cons, List.flatMap_cons] at ih ⊢
    rw [← ih hrest]
    cases piece with
    | plain text =>
      refine substituteChars_append fun before behind he => absurd ?_ hover
      rw [show text.toList = _ from he]
      simp
    | slot other =>
      rw [Piece.put]
      by_cases hn : other = name
      · rw [if_pos hn, hn]
        exact substituteChars_slot _
      · rw [if_neg hn]
        exact substituteChars_append (not_prefix_of_apart (hapart name hm other hover fun h => hn h.symm) _)

/-! ## All substitutions -/

/-- Puts the values of several names, one after another. -/
def substituteAll (value : String → String) (names : List String) (text : String) : String :=
  names.foldl (fun text name => substitute text name (value name)) text

theorem Piece.IsOver.put {names : List String} {name value : String} (hv : '$' ∉ value.toList) {piece : Piece}
    (h : piece.IsOver names) : (piece.put name value).IsOver names := by
  cases piece with
  | plain => exact h
  | slot other =>
    rw [Piece.put]
    split
    next => exact hv
    next => exact h

/-- Puts the values of several names in a part, one after another. -/
def Piece.putAll (value : String → String) (names : List String) (piece : Piece) : Piece :=
  names.foldl (fun piece name => piece.put name (value name)) piece

theorem Piece.putAll_plain (value : String → String) (names : List String) (text : String) :
    (plain text).putAll value names = plain text := by
  induction names with
  | nil => rfl
  | cons name names ih => exact ih

theorem Piece.putAll_slot {value : String → String} {names : List String} {name : String} (h : name ∈ names) :
    (slot name).putAll value names = plain (value name) := by
  induction names with
  | nil => cases h
  | cons first names ih =>
    rw [putAll, List.foldl_cons, put]
    by_cases hn : name = first
    · rw [if_pos hn, ← hn]
      exact putAll_plain value names _
    · rw [if_neg hn]
      exact ih ((List.mem_cons.1 h).resolve_left hn)

/-- What is put for some placeholders is not looked at again. -/
theorem substituteAll_textOf {names order : List String} {value : String → String} (ho : ∀ name ∈ order, name ∈ names)
    (hapart : ∀ p ∈ names, ∀ q ∈ names, p ≠ q → Apart p q) (hv : ∀ name ∈ names, '$' ∉ (value name).toList)
    {pieces : List Piece} (hp : ∀ piece ∈ pieces, piece.IsOver names) :
    substituteAll value order (.ofList (textOf pieces)) = .ofList (textOf (pieces.map (·.putAll value order))) := by
  induction order generalizing pieces with
  | nil =>
    rw [substituteAll, List.foldl_nil]
    exact congrArg (fun pieces => String.ofList (textOf pieces)) (List.map_id' pieces).symm
  | cons name order ih =>
    obtain ⟨hname, horder⟩ := List.forall_mem_cons.1 ho
    have hput : ∀ piece ∈ pieces.map (·.put name (value name)), piece.IsOver names := by
      intro piece hm
      obtain ⟨old, hold, rfl⟩ := List.mem_map.1 hm
      exact (hp old hold).put (hv name hname)
    calc substituteAll value (name :: order) (.ofList (textOf pieces))
      _ = substituteAll value order (substitute (.ofList (textOf pieces)) name (value name)) := rfl
      _ = substituteAll value order (.ofList (textOf (pieces.map (·.put name (value name))))) := by
        rw [substitute, String.toList_ofList, substituteChars_textOf hname hapart hp]
      _ = .ofList (textOf ((pieces.map (·.put name (value name))).map (·.putAll value order))) := ih horder hput
      _ = .ofList (textOf (pieces.map (·.putAll value (name :: order)))) := by
        rw [List.map_map]
        rfl

/-- Substitutions for all names, in whatever order, fill the placeholders at once. -/
theorem substituteAll_eq_filled {names order : List String} {value : String → String}
    (ho : ∀ name, name ∈ order ↔ name ∈ names) (hapart : ∀ p ∈ names, ∀ q ∈ names, p ≠ q → Apart p q)
    (hv : ∀ name ∈ names, '$' ∉ (value name).toList) {pieces : List Piece}
    (hp : ∀ piece ∈ pieces, piece.IsOver names) :
    substituteAll value order (.ofList (textOf pieces)) = filled value pieces := by
  rw [substituteAll_textOf (fun name => (ho name).1) hapart hv hp, textOf, filled, List.flatMap_map, List.flatMap_def,
    List.flatMap_def]
  refine congrArg (fun texts => String.ofList (List.flatten texts)) (List.map_congr_left fun piece hm => ?_)
  cases piece with
  | plain text => rw [Piece.putAll_plain]; rfl
  | slot name => rw [Piece.putAll_slot ((ho name).2 (hp _ hm))]; rfl

end Markup.Text

namespace Markup.Document

theorem Outcome.andThen_ok_iff {α β : Type} {x : Outcome α} {next : α → Document → Outcome β} {b : β}
    {last : Document} : x.andThen next = (.ok b, last) ↔ ∃ a doc, x = (.ok a, doc) ∧ next a doc = (.ok b, last) := by
  obtain ⟨_ | a, doc⟩ := x
  · simp
  · rw [andThen_ok]
    constructor
    · exact fun h => ⟨a, doc, rfl, h⟩
    · rintro ⟨_, _, h, hn⟩
      cases h
      exact hn

/-! ## A call -/

variable {one : Expander}

/-- Expands the groups of a call, one after another. -/
def expandGroups (one : Expander) : List Group → Document → Outcome (List String)
  | [], doc => (.ok [], doc)
  | group :: groups, doc => (expandAll one group.values doc).andThen fun argument doc =>
      (expandGroups one groups doc).andThen fun arguments doc => (.ok (argument :: arguments), doc)

theorem length_of_expandGroups {groups : List Group} {arguments : List String} {doc last : Document}
    (h : expandGroups one groups doc = (.ok arguments, last)) : arguments.length = groups.length := by
  induction groups generalizing arguments doc with
  | nil => cases h; rfl
  | cons group groups ih =>
    obtain ⟨argument, next, hg, h⟩ := Outcome.andThen_ok_iff.1 h
    obtain ⟨rest, _, hr, h⟩ := Outcome.andThen_ok_iff.1 h
    cases h
    rw [List.length_cons, List.length_cons, ih hr]

theorem fill_of_expandGroups {value : String → String} {params : List String} {groups : List Group}
    {arguments : List String} {doc last : Document} (ha : expandGroups one groups doc = (.ok arguments, last))
    (hv : params.map value = arguments.map Text.strip) (text : String) :
    fill one params groups text doc = (.ok (Text.substituteAll value params text), last) := by
  induction groups generalizing params arguments doc text with
  | nil =>
    cases ha
    rw [List.map_nil, List.map_eq_nil_iff] at hv
    rw [hv]
    rfl
  | cons group groups ih =>
    obtain ⟨argument, next, hg, ha⟩ := Outcome.andThen_ok_iff.1 ha
    obtain ⟨rest, _, hr, ha⟩ := Outcome.andThen_ok_iff.1 ha
    cases ha
    obtain ⟨param, params, rfl, hfirst, hrest⟩ := List.map_eq_cons_iff.1 hv
    rw [fill_cons, hg, Outcome.andThen_ok, ih hr hrest, ← hfirst]
    rfl

/-- A macro whose body, expanded, is made of text without `$` and of placeholders of its parameters gives
this text with the stripped argument of each parameter for its placeholders, if no argument has a `$`
and no placeholder can be taken for one of another parameter; and the substitutions give this text in
whatever order they are made. -/
theorem expandMacro_fills_template {d : Definition} {groups : List Group} {name : String} {doc next last : Document}
    {pieces : List Text.Piece} {arguments : List String} {value : String → String}
    (hb : expandAll one d.body (doc.enter name) = (.ok (.ofList (Text.textOf pieces)), next))
    (hpieces : ∀ piece ∈ pieces, piece.IsOver d.params)
    (hapart : ∀ p ∈ d.params, ∀ q ∈ d.params, p ≠ q → Text.Apart p q)
    (hg : expandGroups one groups next = (.ok arguments, last))
    (hvalue : d.params.map value = arguments.map Text.strip)
    (hplain : ∀ argument ∈ arguments, '$' ∉ (Text.strip argument).toList) :
    expandMacro one name d groups doc = (.ok (Text.filled value pieces), last.leave) ∧
      ∀ order, order.Perm d.params →
        Text.substituteAll value order (.ofList (Text.textOf pieces)) = Text.filled value pieces := by
  have hcount : groups.length = d.params.length := by
    rw [← length_of_expandGroups hg, ← List.length_map Text.strip, ← hvalue, List.length_map]
  have hv : ∀ param ∈ d.params, '$' ∉ (value param).toList := by
    intro param hm
    obtain ⟨argument, ha, hs⟩ := List.mem_map.1 (hvalue ▸ List.mem_map_of_mem hm)
    rw [← hs]
    exact hplain argument ha
  have hfilled : ∀ order, order.Perm d.params →
      Text.substituteAll value order (.ofList (Text.textOf pieces)) = Text.filled value pieces :=
    fun order ho => Text.substituteAll_eq_filled (fun _ => ho.mem_iff) hapart hv hpieces
  refine ⟨?_, hfilled⟩
  rw [expandMacro_of_length one hcount, expandBody_eq, hb, Outcome.andThen_ok, fill_of_expandGroups hg hvalue,
    hfilled _ (.refl _), Outcome.thenIn_mk]

/-- Two parameters, the second of which stands before the first and behind it. -/
theorem expandMacro_fills_template_twice :
    let doc : Document := .new "m.write" "" [] [] default
    let d : Definition := ⟨"m", ["to", "from"], [.text "$from-$to.$from" .builtIn], .builtIn⟩
    let groups : List Group := [⟨0, [.text " b " .builtIn], .builtIn⟩, ⟨1, [.text "a" .builtIn], .builtIn⟩]
    let value : String → String := fun param => if param = "to" then "b" else "a"
    expandMacro (expandNode .empty 1) "m" d groups doc = (.ok "a-b.a", doc) ∧
      ∀ order, order.Perm d.params → Text.substituteAll value order "$from-$to.$from" = "a-b.a" := by
  intro doc d groups value
  let pieces : List Text.Piece := [.slot "from", .plain "-", .slot "to", .plain ".", .slot "from"]
  have hbody : "$from-$to.$from" = String.ofList (Text.textOf pieces) := by decide
  have hfilled : Text.filled value pieces = "a-b.a" := by decide
  have hapart : ∀ p ∈ d.params, ∀ q ∈ d.params, p ≠ q → Text.Apart p q := by
    intro p hp q hq hne
    have hnot : ∀ p ∈ d.params, ∀ q ∈ d.params, p ≠ q → '$' ∉ q.toList ∧ ¬ q.toList <+: p.toList := by decide
    exact Text.apart_of_not_prefix (hnot p hp q hq hne).1 (hnot p hp q hq hne).2 (hnot q hq p hp hne.symm).2
  have htext : expandAll (expandNode .empty 1) d.body (doc.enter "m") =
      (.ok (.ofList (Text.textOf pieces)), doc.enter "m") := rfl
  have harguments : expandGroups (expandNode .empty 1) groups (doc.enter "m") = (.ok [" b ", "a"], doc.enter "m") := rfl
  have hover : ∀ piece ∈ pieces, piece.IsOver d.params := by simp [pieces, d, Text.Piece.IsOver]
  have hvalue : d.params.map value = [" b ", "a"].map Text.strip := by decide
  have hresult := expandMacro_fills_template htext hover hapart harguments hvalue (by decide)
  rwa [← hbody, hfilled, leave_enter] at hresult

/-- The placeholder of `b` is found in the one of `a$b`, and what begins it is left. -/
theorem expandMacro_breaks_dollar_name :
    let doc : Document := .new "m.write" "" [] [] default
    let d : Definition := ⟨"m", ["b", "a$b"], [.text "$a$b" .builtIn], .builtIn⟩
    let groups : List Group := [⟨0, [.text "Y" .builtIn], .builtIn⟩, ⟨1, [.text "X" .builtIn], .builtIn⟩]
    let value : String → String := fun param => if param = "b" then "Y" else "X"
    let pieces : List Text.Piece := [.slot "a$b"]
    (d.params.Nodup ∧ (∀ p ∈ d.params, ∀ q ∈ d.params, p ≠ q → ¬ p.toList <+: q.toList) ∧
      expandAll (expandNode .empty 1) d.body (doc.enter "m") = (.ok (.ofList (Text.textOf pieces)), doc.enter "m") ∧
      (∀ piece ∈ pieces, piece.IsOver d.params) ∧
      expandGroups (expandNode .empty 1) groups (doc.enter "m") = (.ok ["Y", "X"], doc.enter "m") ∧
      d.params.map value = ["Y", "X"].map Text.strip ∧
      ∀ argument ∈ ["Y", "X"], '$' ∉ (Text.strip argument).toList) ∧
    expandMacro (expandNode .empty 1) "m" d groups doc = (.ok "$aY", doc) ∧ Text.filled value pieces = "X" ∧
      Text.substituteAll value ["a$b", "b"] (.ofList (Text.textOf pieces)) = "X" := by
  intro doc d groups value pieces
  refine ⟨⟨by decide, by decide, rfl, ?_, rfl, by decide, by decide⟩, ?_, by decide, by decide⟩
  · simp [pieces, d, Text.Piece.IsOver]
  · rfl

end Markup.Document
