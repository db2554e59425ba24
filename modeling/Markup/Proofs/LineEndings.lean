/-
Line endings: a text with returns before its newlines is compiled as it is
without them.

The command reads its input with every line end a newline, and a language server
takes the text as it stands; by `compile_unify` they agree. New documents are alike,
because what is put into them at the start has no returns, and from there on reading
and expansion keep what they give alike.
-/
import Markup.Proofs.Diagnostics
import Markup.Proofs.ParserRoom
import Markup.Proofs.ParseStarts
import Markup.Proofs.UnifiedRuns

namespace Markup

/-! ## New documents -/

namespace Text

theorem word_of_mem_placeholders {body name : String} (h : name ∈ placeholders body) : Likeness.unified.word name := by
  have hall := fun c => isPlaceholderChar_of_mem_placeholders h (c := c)
  exact ⟨fun hc => absurd (hall _ hc) (by decide), fun hc => absurd (hall _ hc) (by decide)⟩

end Text

theorem BuiltIn.notMem_of_mem_bodies (now : Moment) : ∀ entry ∈ bodies now, '\r' ∉ entry.2.toList := by
  have hnumber : ∀ n : Nat, '\r' ∉ Nat.toDigits 10 n :=
    fun n hm => absurd (Binary64.isDigit_of_mem_toDigits hm) (by decide)
  have hmark : ∀ mark : String, toString mark = mark := fun _ => rfl
  simp [bodies, hnumber, hmark]

namespace Document

section

variable {doc other : Document} (h : doc.Twin .unified other)
include h

theorem Twin.defineText (name : String) {body : String} (hb : '\r' ∉ body.toList) :
    (doc.defineText name body).Twin .unified (other.defineText name body) :=
  h.define rfl ⟨rfl, rfl, fun _ hm => Text.word_of_mem_placeholders hm,
    .cons (.text (.of_notMem hb) ⟨.refl _, trivial⟩) .nil, ⟨.refl _, trivial⟩⟩

theorem Twin.letText (name : String) {value : String} (hv : '\r' ∉ value.toList) :
    (doc.letText name value).Twin .unified (other.letText name value) :=
  h.insertBinding rfl
    ⟨rfl, rfl, .cons (.text (.of_notMem hv) ⟨.refl _, trivial⟩) .nil, rfl, ⟨.refl _, trivial⟩⟩

end

theorem twin_new (fileName source text : String) {presets : List (String × String)}
    (hp : ∀ preset ∈ presets, '\r' ∉ preset.2.toList) (modulePaths : List Path) (now : BuiltIn.Moment) :
    (new fileName source presets modulePaths now).Twin .unified (new fileName text presets modulePaths now) := by
  refine List.foldl_rel (List.foldl_rel ?_ ?_) ?_
  · exact ⟨rfl, rfl, trivial, Table.twin_empty, Table.twin_empty, rfl, rfl, rfl⟩
  · exact fun entry hm _ _ h => h.defineText entry.1 (BuiltIn.notMem_of_mem_bodies now entry hm)
  · exact fun entry hm _ _ h => h.letText entry.1 (hp entry hm)

end Document

/-! ## Compiling -/

/-- Whether two texts have no output for errors of one kind, the last of them in the same line and column. -/
inductive CompileError.Alike : CompileError → CompileError → Prop where
  | text {e f : Node.TextError} : e.Alike f → Alike (.text e) (.text f)
  | expand {init : List ExpandError} {e f : ExpandError} : e.Alike f →
      Alike (.expand (init ++ [e])) (.expand (init ++ [f]))
  | disk {e : Disk.Error} : Alike (.disk e) (.disk e)

theorem Node.one_le_line_of_ofText {text : String} {nodes : List Node} (h : Node.ofText text = .ok nodes) :
    ∀ node ∈ nodes, 1 ≤ node.span.start.line := by
  intro node hn
  obtain ⟨tokens, hs, hp⟩ := Node.ofText_ok_iff.1 h
  exact Node.one_le_line_of_parse hs hp (Node.mem_preorderAll_iff.2 ⟨node, hn, node.mem_preorder_self⟩)

theorem compile_like (setting : Setting) (disk : Disk) {source : String} (hs : Text.Paired source.toList)
    (hp : ∀ preset ∈ setting.presets, '\r' ∉ preset.2.toList) :
    Agree CompileError.Alike Text.Unifies (compile setting disk source) (compile setting disk (Text.unify source)) := by
  have htree := Node.ofText_unify hs
  have hline : ∀ nodes, Node.ofText source = .ok nodes → ∀ node ∈ nodes, 1 ≤ node.span.start.line :=
    fun _ => Node.one_le_line_of_ofText
  rw [compile, compile]
  generalize Node.ofText source = tree at htree hline
  generalize Node.ofText (Text.unify source) = other at htree
  cases htree with
  | error he => exact .error (.text he)
  | @ok nodes others hn =>
    have hdoc := Document.twin_new setting.fileName source (Text.unify source) hp setting.modulePaths setting.now
    have hrun := Document.expand_like disk setting.limit hn (hline nodes rfl) hdoc
    simp only [Setting.output, Setting.document]
    generalize (Document.expand disk setting.limit nodes _).1 = result at hrun
    generalize (Document.expand disk setting.limit others _).1 = result' at hrun
    cases hrun with
    | ok ht => exact .ok ht.strip
    | error he =>
      cases he with
      | failed he => exact .error (.expand he)
      | disk => exact .error .disk

/-! ## The command -/

theorem Disk.readText_of_readExactly {disk : Disk} {path : Path} {source : String}
    (h : disk.readExactly path = .ok source) : disk.readText path = .ok (Text.unify source) := by
  rw [readText, h, Text.unify]

namespace CommandLine

/-- What the command says of a text that has no output. -/
def FileError.ofCompile (source : String) : CompileError → FileError
  | .disk e => .ofDisk e
  | e => .text e source

/-- The command compiles the text that it reads, if it imports no modules before. -/
theorem compileFile_eq {host : Host} {o : Options} (ho : o.modules = []) {disk : Disk} {source : String}
    (hr : disk.readText o.input = .ok source) (hroom : host.HasRoom source) (now : BuiltIn.Moment) :
    (compileFile host o disk now).2 =
      ((compile (o.setting host now) disk source).map (· ++ "\n")).mapError (.ofCompile source) := by
  have hprelude : o.prelude = [] := by rw [Options.prelude, ho, List.map_nil]
  rw [compileFile, hr, compile]
  simp only [compileText_snd hroom]
  cases Node.ofText source with
  | error e => rfl
  | ok nodes =>
  simp only [finishFile, hprelude, List.nil_append]
  cases (o.setting host now).output disk source nodes with
  | ok text => rfl
  | error e => cases e <;> rfl

end CommandLine

/-! ## The language server -/

namespace LanguageServer

/-- Whether two diagnostics are as grave and start in the same line and column. Warnings say the same. -/
structure Diagnostic.Alike (d other : Diagnostic) : Prop where
  startLine : other.range.startLine = d.range.startLine
  startColumn : other.range.startColumn = d.range.startColumn
  severity : other.severity = d.severity
  message : d.severity = .warning → other.message = d.message

theorem warning_alike {span around : Span} (h : span.start.Alike around.start) (message : String) :
    Diagnostic.Alike ⟨.ofSpan span, message, .warning⟩ ⟨.ofSpan around, message, .warning⟩ :=
  ⟨congrArg (· - 1) h.1.symm, congrArg (· - 1) h.2.symm, rfl, fun _ => rfl⟩

theorem warnings_alike {init : List ExpandError} {e f : ExpandError} (h : e.Alike f) :
    List.Forall₂ Diagnostic.Alike (warnings (init ++ [e])) (warnings (init ++ [f])) := by
  obtain ⟨span, around, hs, ht, hstart⟩ := h.start
  have hsame : errorMessage f = errorMessage e := by
    rw [errorMessage, errorMessage, ExpandError.message, ExpandError.message, h.fileName, h.cause, h.callStack]
  have herrors : List.Forall₂ (fun x y : ExpandError => x = y ∨ x = e ∧ y = f) (init ++ [e]) (init ++ [f]) :=
    List.rel_append (List.forall₂_same.2 fun _ _ => .inl rfl) (.cons (.inr ⟨rfl, rfl⟩) .nil)
  simp only [warnings, List.getLast?_concat, Option.bind_some, hs, ht]
  refine List.rel_filterMap ?_ herrors
  rintro x y (rfl | ⟨rfl, rfl⟩)
  · -- An error that was reported before stands where it stood, or where the last one stands.
    simp only [shownSpan]
    split
    next hown =>
      obtain ⟨own, ho⟩ := Option.isSome_iff_exists.1 (Bool.and_eq_true_iff.1 hown).2
      rw [ho]
      exact .some (warning_alike (.refl _) _)
    next => exact .some (warning_alike hstart _)
  · simp only [shownSpan, hs, ht, ite_self, Option.map_some, hsame]
    exact .some (warning_alike hstart _)

theorem ofTextError_alike {e f : Node.TextError} (h : e.Alike f) : (ofTextError e).Alike (ofTextError f) := by
  have hstart := h.start
  cases h <;> exact ⟨congrArg (· - 1) hstart.1.symm, congrArg (· - 1) hstart.2.symm, rfl, nofun⟩

theorem diagnose_alike {limit : Nat} {disk : Disk} {fileName source other : String} {now : BuiltIn.Moment}
    {R : String → String → Prop} (h : Agree CompileError.Alike R
      (compile ⟨fileName, [], [], now, limit⟩ disk source) (compile ⟨fileName, [], [], now, limit⟩ disk other)) :
    Agree (· = ·) (List.Forall₂ Diagnostic.Alike) (diagnose limit disk fileName source now)
      (diagnose limit disk fileName other now) := by
  rw [diagnose_eq, diagnose_eq]
  generalize compile _ disk source = result at h
  generalize compile _ disk other = result' at h
  cases h with
  | ok => exact .ok .nil
  | error he =>
    cases he with
    | text he => exact .ok (.cons (ofTextError_alike he) .nil)
    | expand he => exact .ok (warnings_alike he)
    | disk => exact .error rfl

end LanguageServer

/-! ## Line endings -/

open CommandLine LanguageServer in
/-- A text with returns before its newlines compiles as it does without them: to the same output but
for the returns, or to an error of the same kind in the same line and column. So the command, which
reads its input without them, agrees with what the text itself compiles to, if it has room to read it, and
a language server publishes as much for the one as for the other. -/
theorem compile_unify (setting : Setting) (disk : Disk) {source : String} (hs : Text.Paired source.toList)
    (hp : ∀ preset ∈ setting.presets, '\r' ∉ preset.2.toList) :
    Agree CompileError.Alike (fun out other => Text.Paired out.toList ∧ other = Text.unify out)
        (compile setting disk source) (compile setting disk (Text.unify source)) ∧
      (∀ (host : Host) (o : Options) (now : BuiltIn.Moment), o.setting host now = setting → o.modules = [] →
        disk.readExactly o.input = .ok source → host.HasRoom (Text.unify source) →
          Agree (fun e f => ∃ twin, e.Alike twin ∧ f = FileError.ofCompile (Text.unify source) twin)
            (fun out other => other = Text.unify out ++ "\n")
            (compile setting disk source) (compileFile host o disk now).2) ∧
      ∀ (limit : Nat) (fileName : String) (now : BuiltIn.Moment), Agree (· = ·) (List.Forall₂ Diagnostic.Alike)
        (diagnose limit disk fileName source now) (diagnose limit disk fileName (Text.unify source) now) := by
  have hcompile := compile_like setting disk hs hp
  refine ⟨hcompile.imp id fun ht => ⟨ht.paired, ht.eq_unify⟩, ?_, ?_⟩
  · rintro host o now rfl ho hr hroom
    rw [compileFile_eq ho (Disk.readText_of_readExactly hr) hroom]
    generalize compile (o.setting host now) disk source = result at hcompile
    generalize compile (o.setting host now) disk (Text.unify source) = result' at hcompile
    cases hcompile with
    | ok ht => exact .ok (congrArg (· ++ "\n") ht.eq_unify)
    | error he => exact .error ⟨_, he, rfl⟩
  · intro limit fileName now
    exact diagnose_alike (compile_like ⟨fileName, [], [], now, limit⟩ disk hs nofun)

/-- Returns stand in an argument, behind one, at the end of a value and behind a comment. -/
theorem compile_unify_call_over_lines :
    let setting : Setting := ⟨"d.write", [("v", "w")], [], default, 3⟩
    let source := "(. a\r\nb \r\n)\r\n#let x #v \r\n#x\t#! c\r\n"
    Text.Paired source.toList ∧ (∀ preset ∈ setting.presets, '\r' ∉ preset.2.toList) ∧
      compile setting .empty source = .ok "a\r\nb\r\nw" ∧
      compile setting .empty (Text.unify source) = .ok "a\nb\nw" := by
  intro setting source
  have hs : Text.Paired source.toList := by decide +kernel
  have hp : ∀ preset ∈ setting.presets, '\r' ∉ preset.2.toList := by decide +kernel
  have hc : compile setting .empty source = .ok "a\r\nb\r\nw" := by decide +kernel
  have hagree := (compile_unify setting .empty hs hp).1
  rw [hc] at hagree
  refine ⟨hs, hp, hc, ?_⟩
  generalize compile setting .empty (Text.unify source) = result at hagree
  cases hagree with
  | ok hr =>
    have hout : Text.unify "a\r\nb\r\nw" = "a\nb\nw" := by decide +kernel
    rw [hr.2, hout]

end Markup
