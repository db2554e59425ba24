/-
What a language server publishes agrees with what a text compiles to.

The server reads and expands a text by itself, and comes to what the text compiles to
(`diagnose_eq`). Nothing is published for a text that compiles, one error for a text without a
tree, and for one that cannot be expanded a warning for each error that is
reported, in order, at the node where expansion stopped: the last error is
located there, and the one before it, if there is one, names a module's file.
Ranges are proper because spans go forward.

For one text that cannot be compiled there is nothing, not even a list without
diagnostics: one that imports a module where the disk gives neither a module nor none
(`publish_long_name`).
-/
import Markup.Compile
import Markup.LanguageServer
import Markup.Proofs.ErrorLedger
import Markup.Proofs.ModuleSearch
import Markup.Proofs.SpanOrder

namespace Markup

namespace Document

/-! ## Where the disk gives no module -/

variable {disk : Disk} {limit : Nat} {nodes : List Node} {doc : Document}

theorem loadFile_disk {name : String} {e : Disk.Error} {next : Document}
    (h : doc.loadFile disk name = (.error (.disk e), next)) :
    (∃ fault path, fault.leavesOpen = true ∧ e = .refused fault path) ∨ e = .unnameable ∨
      e = .undecodable ∧ ∃ path, disk.readText path = .error .undecodable := by
  rcases loadFile_disk_cases h with hopen | ⟨rfl, -⟩ | ⟨rfl, path, -, hd⟩
  · exact .inl hopen
  · exact .inr (.inl rfl)
  · exact .inr (.inr ⟨rfl, path, Disk.readText_of_notText hd⟩)

theorem exists_loadFile_of_expand_disk {e : Disk.Error}
    (h : (expand disk limit nodes doc).1 = .error (.disk e)) :
    ∃ name place, loadFile place disk name = (.error (.disk e), place) := by
  obtain ⟨_, _, _, _, name, _, place, -, -, hload⟩ := exists_use_of_expand_disk h
  exact ⟨name, place, hload⟩

theorem expand_use_of_disk {name : String} {builtIn : Bool} {e : Disk.Error} {next : Document}
    (h : doc.importModule disk name builtIn = (.error (.disk e), next)) (limit : Nat) (span : Span) (rest : List Node) :
    expand disk (limit + 1) (.use name builtIn span :: rest) doc = (.error (.disk e), next) := by
  rw [expand, expandNode, expandWith, h]
  rfl

end Document

namespace Node

theorem parse_use {word name last : Token} (hw : word.kind = .keyword .useWord) (hn : name.kind = .identifier)
    (hl : last.kind = .endOfInput) (hb : Text.isAllBlank name.value = false) :
    parse [word, name, last] = .ok [.use (Text.strip name.value)
      (BuiltIn.moduleNames.contains (Text.strip name.value)) ⟨word.span.start, name.span.stop⟩] := by
  simp [parse, State.start, State.run, State.step, stepReady, stepInner, stepValue, stepName, hw, hn, hl, hb,
    Context.push, Context.finished]

/-- An import of a module whose name has no blanks is read as one. -/
theorem exists_ofText_use {name : String} (hn : ∀ c ∈ name.toList, Text.isNameChar c = true) (hne : name ≠ "")
    (hb : ∀ c ∈ name.toList, Text.isAsciiBlank c = false) :
    ∃ span, ofText ("#use " ++ name) = .ok [.use name (BuiltIn.moduleNames.contains name) span] := by
  have hword : Token.Run Text.isNameChar ("use".toList ++ ' ' :: name.toList) "use".toList (' ' :: name.toList) :=
    ⟨rfl, List.all_eq_true.1 (by decide), by rintro _ ⟨⟩; decide⟩
  have hblank : Token.Run Text.isHorizontal (' ' :: name.toList) [' '] name.toList := by
    refine ⟨rfl, List.forall_mem_singleton.2 rfl, fun c hc => ?_⟩
    have hname := hn c (List.mem_of_mem_head? hc)
    rw [Text.isHorizontal, Bool.or_eq_false_iff, beq_eq_false_iff_ne, beq_eq_false_iff_ne]
    constructor
    · rintro rfl
      exact absurd hname (by decide)
    · rintro rfl
      exact absurd hname (by decide)
  have hident : Token.Run Text.isNameChar name.toList name.toList [] :=
    ⟨(List.append_nil _).symm, hn, fun _ hc => by cases hc⟩
  have hend : Token.Run Text.isHorizontal [] [] [] := ⟨rfl, List.forall_mem_nil _, fun _ hc => by cases hc⟩
  have hlex := Token.Lexes.directive (by simp) hword (by decide) rfl (by decide) hblank hident hend
  have htext : ("#use " ++ name).toList = '#' :: ("use".toList ++ ' ' :: name.toList) := by simp
  have hreads := Token.Reads.step hlex (.refl [])
  rw [← htext] at hreads
  have hscan := Token.scan_ok_iff.2 ⟨_, hreads, rfl⟩
  obtain ⟨word, ident, last, hw, hi, hv, hl, hscan⟩ : ∃ word ident last : Token, word.kind = .keyword .useWord ∧
      ident.kind = .identifier ∧ ident.value = name ∧ last.kind = .endOfInput ∧
      Token.scan ("#use " ++ name) = .ok [word, ident, last] :=
    ⟨_, _, _, rfl, rfl, String.ofList_toList, rfl, hscan⟩
  have hstrip : Text.strip name = name := by rw [Text.strip, Text.trimWhile_eq_self hb, String.ofList_toList]
  have hsome : Text.isAllBlank ident.value = false := by
    rw [hv, ← Bool.not_eq_true, ← Text.strip_eq_empty_iff, hstrip]
    exact hne
  refine ⟨⟨word.span.start, ident.span.stop⟩, ?_⟩
  rw [ofText, hscan]
  simp only [parse_use hw hi hl hsome, hv, hstrip]

end Node

namespace LanguageServer

open Document

/-! ## Ranges -/

/-- Whether lines and columns count from 0 and the stop is not before the start. -/
structure Range.IsProper (r : Range) : Prop where
  nonneg : 0 ≤ r.startLine ∧ 0 ≤ r.startColumn ∧ 0 ≤ r.stopLine ∧ 0 ≤ r.stopColumn
  ordered : r.startLine < r.stopLine ∨ r.startLine = r.stopLine ∧ r.startColumn ≤ r.stopColumn

theorem Range.isProper_of_forward {s : Span} (h : s.Forward) : (ofSpan s).IsProper := by
  have hstart := h.start.one_le
  have hstop := (h.start.trans h.stop).one_le
  have horder := h.stop.line_column
  constructor
  · simp only [ofSpan]
    omega
  · simp only [ofSpan]
    omega

theorem Range.isProper_of_precedes {p : Position} (h : Position.first.Precedes p) :
    IsProper ⟨p.line - 1, p.column - 1, p.line - 1, p.column - 1 + 1⟩ := by
  have hp := h.one_le
  constructor
  · simp only
    omega
  · refine .inr ⟨rfl, ?_⟩
    simp only
    omega

/-! ## Warnings -/

theorem exists_errorMessage_eq {e : ExpandError} {name : String} (h : e.fileName = some name) :
    ∃ rest, errorMessage e = name ++ ": " ++ rest := by
  rw [errorMessage, h]
  exact ⟨_, String.append_assoc⟩

/-- If the last error has a span and all before it name a file, all are shown at that span. -/
theorem warnings_concat {init : List ExpandError} {last : ExpandError} {span : Span} (hlast : last.span = some span)
    (hinit : ∀ e ∈ init, e.fileName.isSome) :
    warnings (init ++ [last]) = (init ++ [last]).map fun e => ⟨.ofSpan span, errorMessage e, .warning⟩ := by
  have hshown : ∀ e ∈ init ++ [last], shownSpan (some span) e = some span := by
    intro e he
    rw [shownSpan]
    rcases List.mem_append.1 he with he | he
    · rw [if_neg]
      have hfile := hinit e he
      simp [Option.isNone_iff_eq_none, Option.isSome_iff_ne_none.1 hfile]
    · rw [List.mem_singleton.1 he, hlast, ite_self]
  rw [warnings, List.getLast?_concat, Option.bind_some, hlast, ← List.filterMap_eq_map]
  exact List.filterMap_congr fun e he => by rw [hshown e he]; rfl

/-! ## What is published -/

variable {disk : Disk} {setting : Setting} {source : String}

theorem ofText_of_compile {e : Node.TextError} (h : compile setting disk source = .error (.text e)) :
    Node.ofText source = .error e := by
  unfold compile at h
  split at h
  next he =>
    cases h
    exact he
  next =>
    unfold Setting.output at h
    split at h <;> cases h

theorem compile_expand_iff {errors : List ExpandError} : compile setting disk source = .error (.expand errors) ↔
    ∃ nodes, Node.ofText source = .ok nodes ∧
      (expand disk setting.limit nodes (setting.document source)).1 = .error (.failed errors) := by
  constructor
  · intro h
    unfold compile at h
    split at h
    next => cases h
    next nodes hn =>
      unfold Setting.output at h
      split at h
      next hrun =>
        cases h
        exact ⟨nodes, hn, hrun⟩
      next => cases h
      next => cases h
  · rintro ⟨nodes, hn, hrun⟩
    simp only [compile, hn, Setting.output, hrun]

theorem expand_of_compile_disk {e : Disk.Error} (h : compile setting disk source = .error (.disk e)) :
    ∃ nodes, (expand disk setting.limit nodes (setting.document source)).1 = .error (.disk e) := by
  unfold compile at h
  split at h
  next => cases h
  next nodes hn =>
    unfold Setting.output at h
    split at h
    next => cases h
    next hrun =>
      cases h
      exact ⟨nodes, hrun⟩
    next => cases h

/-- Expanding a text with a tree fails at a node of the tree, and the last error is located there. -/
theorem located_of_expand_failed {nodes : List Node} (hn : Node.ofText source = .ok nodes) {errors : List ExpandError}
    (h : (expand disk setting.limit nodes (setting.document source)).1 = .error (.failed errors)) :
    ∃ top mid before e, ComesTo (expandNode disk setting.limit) nodes (setting.document source) top mid ∧
      Brings disk setting.limit top mid before e ∧
      errors = before ++ [{ e with span := some top.span, source := source }] := by
  obtain ⟨top, mid, before, e, hc, hb, rfl⟩ := expand_failed_iff.1 h
  have hforward := Node.forward_of_ofText hn top hc.mem
  have hspan : top.span ≠ .builtIn := by
    intro heq
    have hline := hforward.start.one_le.1
    rw [heq] at hline
    exact absurd hline (by decide)
  have hnew : (setting.document source).IsFresh _ source _ := isFresh_new _ _ _ _ _
  refine ⟨top, mid, before, e, hc, hb, ?_⟩
  rw [hnew.errors, List.nil_append, locate_of_span_none hb.failure.1, if_neg hspan, hnew.source]

/-- A text with a tree that cannot be expanded stops at a node of the tree. All errors that are reported
are shown there, and those among them that name a file are the errors in a module's text. -/
theorem warnings_of_expand_failed {nodes : List Node} (hn : Node.ofText source = .ok nodes) {errors : List ExpandError}
    (h : (expand disk setting.limit nodes (setting.document source)).1 = .error (.failed errors)) :
    ∃ top mid f, ComesTo (expandNode disk setting.limit) nodes (setting.document source) top mid ∧
      (expandNode disk setting.limit top mid).1 = .error f ∧ errors ≠ [] ∧
      warnings errors = errors.map (fun e => ⟨.ofSpan top.span, errorMessage e, .warning⟩) ∧
      ∀ e ∈ errors, (e.fileName.isSome ↔ BreaksModule disk setting.limit nodes (setting.document source) e) := by
  obtain ⟨top, mid, before, e, hc, hb, rfl⟩ := located_of_expand_failed hn h
  have hfile : e.fileName = none := by cases hb <;> rfl
  have hbefore : ∀ m ∈ before, m.fileName.isSome ∧
      BreaksModule disk setting.limit nodes (setting.document source) m := by
    intro m hm
    rcases hb.before_cases with rfl | ⟨m', rfl, hm'⟩
    · cases hm
    · obtain rfl := List.mem_singleton.1 hm
      exact ⟨hm', hb.breaksModule hc⟩
  have hstops : ∃ f, (expandNode disk setting.limit top mid).1 = .error f := by
    rcases hb.failure.2 with hf | ⟨hf, -⟩ <;> exact ⟨_, hf⟩
  obtain ⟨f, hf⟩ := hstops
  refine ⟨top, mid, f, hc, hf, by simp, warnings_concat rfl fun m hm => (hbefore m hm).1, fun m hm => ?_⟩
  refine ⟨fun hsome => ?_, BreaksModule.fileName⟩
  rcases List.mem_append.1 hm with hm | hm
  · exact (hbefore m hm).2
  · rw [List.mem_singleton.1 hm, hfile] at hsome
    cases hsome

section

variable {limit : Nat} {fileName : String} {now : BuiltIn.Moment}

/-- What is shown for a text is told by what it compiles to. -/
theorem diagnose_eq (limit : Nat) (disk : Disk) (fileName source : String) (now : BuiltIn.Moment) :
    diagnose limit disk fileName source now =
      match compile ⟨fileName, [], [], now, limit⟩ disk source with
      | .ok _ => .ok []
      | .error (.text e) => .ok [ofTextError e]
      | .error (.expand errors) => .ok (warnings errors)
      | .error (.disk e) => .error (.disk e) := by
  rw [diagnose, compile]
  cases Node.ofText source with
  | error e => rfl
  | ok nodes =>
    simp only [Setting.output, Setting.document]
    rcases (Document.expand disk limit nodes (.new fileName source [] [] now)).1 with (errors | e) | text <;> rfl

theorem diagnose_of_disk {nodes : List Node} {e : Disk.Error} (hn : Node.ofText source = .ok nodes)
    (h : (expand disk limit nodes (.new fileName source [] [] now)).1 = .error (.disk e)) :
    diagnose limit disk fileName source now = .error (.disk e) := by
  rw [diagnose, hn]
  simp only [h]

/-- Nothing is shown exactly for a text that has an output, and what is shown has proper ranges. -/
theorem diagnose_proper {ds : List Diagnostic} (h : diagnose limit disk fileName source now = .ok ds) :
    (ds = [] ↔ ∃ output, compile ⟨fileName, [], [], now, limit⟩ disk source = .ok output) ∧
      ∀ d ∈ ds, d.range.IsProper := by
  rw [diagnose_eq] at h
  cases hc : compile ⟨fileName, [], [], now, limit⟩ disk source with
  | ok output =>
    rw [hc] at h
    cases h
    exact ⟨⟨fun _ => ⟨output, rfl⟩, fun _ => rfl⟩, nofun⟩
  | error e =>
    rw [hc] at h
    cases e with
    | text e =>
      have hplace := Node.TextError.forward_of_ofText (ofText_of_compile hc)
      cases h
      refine ⟨⟨nofun, nofun⟩, List.forall_mem_singleton.2 ?_⟩
      cases e with
      | tokens e => exact Range.isProper_of_precedes hplace
      | tree e => exact Range.isProper_of_forward hplace
    | expand errors =>
      obtain ⟨nodes, hn, hrun⟩ := compile_expand_iff.1 hc
      obtain ⟨top, mid, f, hcomes, -, hne, hwarnings, -⟩ := warnings_of_expand_failed hn hrun
      simp only [hwarnings, Except.ok.injEq] at h
      subst h
      refine ⟨⟨fun he => absurd (List.map_eq_nil_iff.1 he) hne, nofun⟩, List.forall_mem_map.2 fun e _ => ?_⟩
      exact Range.isProper_of_forward (Node.forward_of_ofText hn top hcomes.mem)
    | disk e => cases h

/-- Nothing can be told exactly where the disk gives no module. -/
theorem diagnose_error_iff {failure : Failure} : diagnose limit disk fileName source now = .error failure ↔
    ∃ e, failure = .disk e ∧ compile ⟨fileName, [], [], now, limit⟩ disk source = .error (.disk e) := by
  rw [diagnose_eq]
  rcases compile ⟨fileName, [], [], now, limit⟩ disk source with (e | errors | e) | output
  · simp
  · simp
  · simp [eq_comm]
  · simp

end

/-- What is published for a text follows from what the text compiles to in the file whose path its URI
names, or which is named by the URI itself: nothing if it has an output; for an error in the text that
error, a place in it one column wide; and if it cannot be expanded a warning for each error, in order, at
the first node at its top that fails, with the module's file if the error is one in a module's text. Ranges
count from 0 and do not end before they start. Nothing is published exactly where the disk gives no
module, though it should give one or none: where it does not tell if a file is there, where a name has a
NUL character, or where a file is no text. -/
theorem publish_agrees {pathOf : UriReader} {uri : String} {path : Option String} (h : pathOf uri = .ok path)
    (limit : Nat) (disk : Disk) (source : String) (now : BuiltIn.Moment) :
    let setting : Setting := ⟨(path.filter fun path => !path.isEmpty).getD uri, [], [], now, limit⟩
    (∀ ds, publish limit pathOf disk uri source now = .ok ds →
        (ds = [] ↔ ∃ output, compile setting disk source = .ok output) ∧ ∀ d ∈ ds, d.range.IsProper) ∧
      (∀ e, compile setting disk source = .error (.text (.tokens e)) →
        publish limit pathOf disk uri source now = .ok [⟨⟨e.position.line - 1, e.position.column - 1,
          e.position.line - 1, e.position.column - 1 + 1⟩, e.message, .error⟩]) ∧
      (∀ e, compile setting disk source = .error (.text (.tree e)) →
        publish limit pathOf disk uri source now = .ok [⟨.ofSpan e.span, e.message, .error⟩]) ∧
      (∀ errors, compile setting disk source = .error (.expand errors) →
        ∃ nodes top mid f, Node.ofText source = .ok nodes ∧
          ComesTo (expandNode disk limit) nodes (setting.document source) top mid ∧
          (expandNode disk limit top mid).1 = .error f ∧
          publish limit pathOf disk uri source now =
            .ok (errors.map fun e => ⟨.ofSpan top.span, errorMessage e, .warning⟩) ∧
          ∀ e ∈ errors, (e.fileName.isSome ↔ BreaksModule disk limit nodes (setting.document source) e) ∧
            ∀ name, e.fileName = some name → ∃ rest, errorMessage e = name ++ ": " ++ rest) ∧
      (∀ failure, publish limit pathOf disk uri source now = .error failure ↔
        ∃ e, failure = .disk e ∧ compile setting disk source = .error (.disk e)) ∧
      ∀ e, compile setting disk source = .error (.disk e) →
        (∃ fault place, fault.leavesOpen = true ∧ e = .refused fault place) ∨ e = .unnameable ∨
          e = .undecodable ∧ ∃ file, disk.readText file = .error .undecodable := by
  intro setting
  have hpublish : publish limit pathOf disk uri source now = diagnose limit disk setting.fileName source now := by
    rw [publish, h]
  rw [hpublish]
  refine ⟨fun ds => diagnose_proper, fun e hc => ?_, fun e hc => ?_, fun errors hc => ?_,
    fun failure => diagnose_error_iff, fun e hc => ?_⟩
  · rw [diagnose_eq, hc]
    rfl
  · rw [diagnose_eq, hc]
    rfl
  · obtain ⟨nodes, hn, hrun⟩ := compile_expand_iff.1 hc
    obtain ⟨top, mid, f, hcomes, hf, -, hwarnings, hfile⟩ := warnings_of_expand_failed hn hrun
    rw [diagnose_eq, hc]
    exact ⟨nodes, top, mid, f, hn, hcomes, hf, congrArg Except.ok hwarnings,
      fun e he => ⟨hfile e he, fun name => exists_errorMessage_eq⟩⟩
  · obtain ⟨nodes, hrun⟩ := expand_of_compile_disk hc
    obtain ⟨name, place, hload⟩ := exists_loadFile_of_expand_disk hrun
    exact loadFile_disk hload

/-- An import of a module whose text is one open parenthesis: both errors are shown at the import. -/
theorem publish_agrees_broken_module :
    let disk : Disk := .ofEntries [(⟨.above 0, ["m.write"]⟩, ⟨.file "(".toUTF8, 0⟩)] 0
    let pathOf : UriReader := fun _ => .ok none
    ∃ first second, publish 1 pathOf disk "d.write" "#use m" default = .ok [first, second] ∧
      first.range = ⟨0, 0, 0, 6⟩ ∧ second.range = ⟨0, 0, 0, 6⟩ ∧ ∃ rest, first.message = "m.write: " ++ rest := by
  intro disk pathOf
  have hbroken : Node.ofText "(" = .error (.tokens ⟨.missingName, ⟨1, 2, 1⟩⟩) := by cbv
  let setting : Setting := ⟨"d.write", [], [], default, 1⟩
  let place : Span := ⟨⟨1, 1, 0⟩, ⟨1, 7, 6⟩⟩
  have hscan : Token.scan "#use m" = .ok [⟨.keyword .useWord, "use", "#use", ⟨⟨1, 1, 0⟩, ⟨1, 5, 4⟩⟩⟩,
      ⟨.identifier, "m", "m", ⟨⟨1, 6, 5⟩, ⟨1, 7, 6⟩⟩⟩, ⟨.endOfInput, "", "", ⟨⟨1, 7, 6⟩, ⟨1, 7, 6⟩⟩⟩] := by cbv
  have htree : Node.ofText "#use m" = .ok [.use "m" false place] := by
    rw [Node.ofText, hscan]
    rfl
  have hnew : (setting.document "#use m").IsFresh "d.write" "#use m" [] := isFresh_new _ _ _ _ _
  have hdirectory : (setting.document "#use m").directory = ⟨.none, []⟩ := hnew.directory.trans (by decide)
  have hfile : (setting.document "#use m").moduleFile disk "m" = .ok ⟨.none, ["m.write"]⟩ := by
    rw [moduleFile, moduleFiles, hdirectory, hnew.modulePaths]
    rfl
  have htext : disk.readText ⟨.none, ["m.write"]⟩ = .ok "(" := rfl
  have hleads : Task.Leads disk ⟨1, .use "m" false place, setting.document "#use m"⟩ []
      ⟨0 + 1, .use "m" false place, setting.document "#use m"⟩ := .here _
  have hbreaks : BreaksModule disk 1 [.use "m" false place] (setting.document "#use m") _ :=
    .intro (.here _ _ _) hleads hfile htext hbroken
  obtain ⟨last, hrun⟩ := hbreaks.failed
  have hcompile : compile setting disk "#use m" = .error (.expand _) := compile_expand_iff.2 ⟨_, htree, hrun⟩
  rw [hnew.errors, List.nil_append] at hcompile
  have hpath : pathOf "d.write" = .ok none := rfl
  obtain ⟨-, -, -, hexpand, -⟩ := publish_agrees hpath 1 disk "#use m" default
  obtain ⟨nodes, top, mid, f, hn, hc, -, hpublish, hmessage⟩ := hexpand _ hcompile
  rw [htree, Except.ok.injEq] at hn
  subst hn
  obtain rfl : top = .use "m" false place := List.mem_singleton.1 hc.mem
  refine ⟨_, _, hpublish, rfl, rfl, ?_⟩
  exact (hmessage _ List.mem_cons_self).2 _ rfl

/-- A module whose name has 256 characters with its suffix is imported, and there is no file at all: the
text cannot be compiled, and nothing is published. -/
theorem publish_long_name :
    let name := String.ofList (List.replicate 250 'a')
    ∃ place, publish 1 (fun _ => .ok none) .empty "a.write" ("#use " ++ name) default =
      .error (.disk (.refused .nameTooLong place)) := by
  intro name
  have hall : ∀ c ∈ name.toList, c = 'a' := by
    intro c hc
    rw [String.toList_ofList] at hc
    exact List.eq_of_mem_replicate hc
  have hn : ∀ c ∈ name.toList, Text.isNameChar c = true := fun c hc => hall c hc ▸ by decide
  have hblank : ∀ c ∈ name.toList, Text.isAsciiBlank c = false := fun c hc => hall c hc ▸ by decide
  have hslash : '/' ∉ name.toList := fun h => absurd (hall _ h) (by decide)
  have hnul : '\x00' ∉ name.toList := fun h => absurd (hall _ h) (by decide)
  have hlong : Disk.longestName < (name ++ ".write").utf8ByteSize := by decide +kernel
  have hlength : name.toList.length = 250 := by rw [String.toList_ofList, List.length_replicate]
  clear_value name
  have hne : name ≠ "" := by
    rintro rfl
    cases hlength
  have hfile : BuiltIn.moduleNames.contains name = false := by
    have hshort : ∀ other ∈ BuiltIn.moduleNames, other.toList.length ≠ 250 := by decide
    rw [← Bool.not_eq_true, List.contains_iff_mem]
    exact fun h => hshort name h hlength
  obtain ⟨span, htree⟩ := Node.exists_ofText_use hn hne hblank
  rw [hfile] at htree
  have hdirectory : (new "a.write" ("#use " ++ name) [] [] default).directory = ⟨.none, []⟩ :=
    (isFresh_new _ _ _ _ _).directory.trans (by decide)
  have hsearch : Disk.empty.denies .search ⟨.above 0, []⟩ = false := rfl
  have himport := importModule_of_long_name hdirectory hsearch hslash hnul hlong
  refine ⟨⟨.none, [name ++ ".write"]⟩, ?_⟩
  have hrun := expand_use_of_disk himport 0 span []
  exact diagnose_of_disk htree (congrArg Prod.fst hrun)

end LanguageServer

end Markup
