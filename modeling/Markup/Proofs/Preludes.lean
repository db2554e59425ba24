/-
Modules that are imported before a document.

The command goes its own way from a file to its output. It is the way of `compile`, with
the modules that the options name imported into the new document before its nodes are
expanded (`expand_prelude`). A node that comes from no text has no place where an error
could be located, so the error of such an import is handed over as it was raised
(`importAll_error`).

What is printed of the tokens and the tree on the way depends on the input alone
(`outlines`), and changes nothing of what a run does (`compileFile_agrees`).
-/
import Markup.Proofs.Diagnostics
import Markup.Proofs.ErrorLedger
import Markup.Proofs.LineEndings

namespace Markup

namespace Document

/-- Imports modules one behind the other; one that ships with the language is not looked for in a file. -/
def importAll (disk : Disk) : List String → Document → Outcome Unit
  | [], doc => (.ok (), doc)
  | name :: rest, doc =>
    (doc.importModule disk name (BuiltIn.moduleNames.contains name)).andThen fun _ doc => importAll disk rest doc

/-- What nodes give in a document. -/
def output (disk : Disk) (limit : Nat) (nodes : List Node) (doc : Document) : Except CompileError String :=
  match (expand disk limit nodes doc).1 with
  | .error (.failed errors) => .error (.expand errors)
  | .error (.disk e) => .error (.disk e)
  | .ok text => .ok (Text.strip text)

/-- What nodes give in a document behind imports. Where an import fails, the errors that there are then are
handed over. -/
def outputAfter (disk : Disk) (limit : Nat) (names : List String) (nodes : List Node) (doc : Document) :
    Except CompileError String :=
  match importAll disk names doc with
  | (.ok (), ready) => ready.output disk limit nodes
  | (.error (.disk e), _) => .error (.disk e)
  | (.error _, failed) => .error (.expand failed.errors)

/-- The node of no text that imports a module. -/
def preludeNode (name : String) : Node := .use name (BuiltIn.moduleNames.contains name) .builtIn

variable {disk : Disk} {limit : Nat} {names : List String} {doc failed : Document} {e : Failure}

/-- An import fails by itself: for the disk, or with an error that is not located yet. One more stands
before it only if it is in a module's file. -/
theorem importModule_error {name : String} {builtIn : Bool}
    (h : doc.importModule disk name builtIn = (.error e, failed)) :
    (∃ f, e = .disk f) ∨ ∃ raised before, e = .raised raised ∧ raised.span = none ∧
      (before = [] ∨ ∃ m, before = [m] ∧ m.fileName.isSome) ∧ failed.errors = doc.errors ++ before ++ [raised] := by
  obtain ⟨new, hf, hnew⟩ : ∃ new, Task.Fails disk ⟨1, .use name builtIn .builtIn, doc⟩ e new ∧
      failed.errors = doc.errors ++ new := importModule_error_cases .builtIn h
  cases hf with
  | disk => exact .inl ⟨_, rfl⟩
  | raised hr =>
    have hbrings := Brings.raised (.here ⟨1, .use name builtIn .builtIn, doc⟩) hr
    exact .inr ⟨_, _, rfl, rfl, hbrings.before_cases, by rw [hnew, List.append_assoc]⟩

theorem errors_of_importModule {name : String} {builtIn : Bool}
    (h : doc.importModule disk name builtIn = (.ok (), failed)) : failed.errors = doc.errors := by
  have hlaw := changeLaw_errors.importModule disk name builtIn doc
  rw [h] at hlaw
  exact hlaw

/-- Imports that fail hand over what was there before, and what the import that fails brings. -/
theorem importAll_error (h : importAll disk names doc = (.error e, failed)) :
    (∃ f, e = .disk f) ∨ ∃ raised before, e = .raised raised ∧ raised.span = none ∧
      (before = [] ∨ ∃ m, before = [m] ∧ m.fileName.isSome) ∧ failed.errors = doc.errors ++ before ++ [raised] := by
  induction names generalizing doc with
  | nil => cases h
  | cons name rest ih =>
    rw [importAll, Outcome.andThen_error_iff] at h
    rcases h with h | ⟨_, mid, hm, h⟩
    · exact importModule_error h
    · rw [← errors_of_importModule hm]
      exact ih h

theorem report_of_span_builtIn {node : Node} (h : node.span = .builtIn) (doc : Document) :
    doc.report node = (.error (.failed doc.errors), { doc with errors := [] }) := by
  have hlocate : ∀ e : ExpandError, e.locate .builtIn doc.source = e := by simp [ExpandError.locate]
  rcases List.eq_nil_or_concat' doc.errors with hnil | ⟨init, last, hlast⟩
  · rw [report, hnil]
    rfl
  · rw [report_of_errors hlast, h, hlocate, hlast]

/-- A node of no text changes nothing but the document that a run goes on in. -/
theorem expand_cons_of_empty {node : Node} {next : Document} (h : expandNode disk limit node doc = (.ok "", next))
    (rest : List Node) : expand disk limit (node :: rest) doc = expand disk limit rest next := by
  rw [expand_cons_of_ok h]
  obtain ⟨_ | text, last⟩ := expand disk limit rest next
  · rfl
  · simp only [Except.map, String.empty_append]

/-- A run over imports and more nodes is the imports, and then a run over the nodes. -/
theorem expand_prelude (nodes : List Node) :
    expand disk (limit + 1) (names.map preludeNode ++ nodes) doc =
      match importAll disk names doc with
      | (.ok (), ready) => expand disk (limit + 1) nodes ready
      | (.error (.disk e), failed) => (.error (.disk e), failed)
      | (.error _, failed) => (.error (.failed failed.errors), { failed with errors := [] }) := by
  induction names generalizing doc with
  | nil => rfl
  | cons name rest ih =>
    have hnode : expandNode disk (limit + 1) (preludeNode name) doc =
        silent (doc.importModule disk name (BuiltIn.moduleNames.contains name)) := rfl
    rw [List.map_cons, List.cons_append, importAll]
    cases hm : doc.importModule disk name (BuiltIn.moduleNames.contains name) with
    | mk result mid =>
    rw [hm] at hnode
    cases result with
    | ok =>
      rw [expand_cons_of_empty hnode, ih, Outcome.andThen_ok]
    | error e =>
      rw [expand_cons_of_error hnode, Outcome.andThen_error]
      rcases importModule_error hm with ⟨f, rfl⟩ | ⟨raised, before, rfl, -⟩
      · rfl
      · exact report_of_span_builtIn rfl mid

theorem output_prelude (hl : 0 < limit) (disk : Disk) (names : List String) (nodes : List Node) (doc : Document) :
    doc.output disk limit (names.map preludeNode ++ nodes) = doc.outputAfter disk limit names nodes := by
  rw [output, outputAfter, ← Nat.sub_add_cancel hl, expand_prelude]
  obtain ⟨e | _, mid⟩ := importAll disk names doc
  · cases e <;> rfl
  · rfl

end Document

/-- What a text gives if modules are imported into its document before. Errors in the text come first. -/
def Setting.compileAfter (s : Setting) (disk : Disk) (names : List String) (source : String) :
    Except CompileError String :=
  match Node.ofText source with
  | .error e => .error (.text e)
  | .ok nodes => (s.document source).outputAfter disk s.limit names nodes

theorem Setting.compileAfter_nil (s : Setting) (disk : Disk) (source : String) :
    s.compileAfter disk [] source = compile s disk source := by
  rw [compileAfter, compile]
  rfl

namespace CommandLine

/-! ## What is printed on the way -/

/-- The outlines of an input's tokens and tree, as far as there are any. -/
def outlines (host : Host) (disk : Disk) (path : Path) : String :=
  match disk.readText path with
  | .error _ => ""
  | .ok source =>
    match Token.scan source with
    | .error _ => ""
    | .ok tokens => Token.outline tokens ++ match Node.parseWithin host.isFull tokens with
      | .error _ => ""
      | .ok nodes => Node.outline nodes

/-- Prints a text before everything that goes to the error output. -/
def Outcome.behind (text : String) : Outcome → Outcome
  | .finished code effect => .finished code { effect with stderr := text ++ effect.stderr }
  | .watching o => .watching o
  | .crashed cause effect => .crashed cause { effect with stderr := text ++ effect.stderr }

/-- Options that ask for outlines, or do not. -/
def Options.withDebug (debug : Bool) (o : Options) : Options := { o with debug := debug }

theorem compileFile_fst (host : Host) (o : Options) (disk : Disk) (now : BuiltIn.Moment) :
    (compileFile host o disk now).1 = if o.debug then outlines host disk o.input else "" := by
  rw [compileFile, outlines]
  cases disk.readText o.input with
  | error => exact (ite_self "").symm
  | ok source =>
  simp only [compileText]
  cases Token.scan source with
  | error => exact (ite_self "").symm
  | ok tokens =>
  simp only
  cases Node.parseWithin host.isFull tokens with
  | error halt => cases halt <;> cases o.debug <;> simp
  | ok nodes => cases o.debug <;> simp

theorem compileFile_snd_withDebug (host : Host) (debug : Bool) (o : Options) (disk : Disk) (now : BuiltIn.Moment) :
    (compileFile host (o.withDebug debug) disk now).2 = (compileFile host o disk now).2 := by
  rw [compileFile, compileFile, show (o.withDebug debug).input = o.input from rfl]
  cases disk.readText o.input with
  | error => rfl
  | ok source =>
    by_cases hroom : host.HasRoom source
    · simp only [compileText_snd hroom]
      rfl
    · simp only [compileText_of_not_hasRoom hroom]

/-- A run prints the outlines before all else, if they are wanted, and is the same run otherwise. -/
theorem runOnce_withDebug (host : Host) (debug : Bool) (o : Options) (disk : Disk) (now : BuiltIn.Moment) :
    runOnce host (o.withDebug debug) disk now =
      (runOnce host (o.withDebug false) disk now).behind (if debug then outlines host disk o.input else "") := by
  have hfile : ∀ debug, compileFile host (o.withDebug debug) disk now =
      (if debug then outlines host disk o.input else "", (compileFile host o disk now).2) := fun debug =>
    Prod.ext (compileFile_fst host (o.withDebug debug) disk now) (compileFile_snd_withDebug host debug o disk now)
  rw [runOnce, runOnce, hfile, hfile]
  cases (compileFile host o disk now).2 with
  | error e =>
    cases e with
    | refused fault path => simp [Outcome.behind, failed, Options.withDebug, String.append_assoc]
    | text e source => simp [Outcome.behind, failed, Options.withDebug, String.append_assoc]
    | crash cause => simp [Outcome.behind]
  | ok text =>
    have hemit : ∀ debug, emit host (o.withDebug debug) disk text = emit host o disk text := fun _ => rfl
    simp only [hemit]
    cases (emit host o disk text).result with
    | ok => simp [Outcome.behind]
    | error e =>
      cases e with
      | unopened e => cases e <;> simp [Outcome.behind, Options.withDebug, Options.outputName, String.append_assoc]
      | broken => simp [Outcome.behind, Options.withDebug, Options.outputName, String.append_assoc]
      | unencodable => simp [Outcome.behind]

/-! ## Two ways to the output -/

/-- The output of an input, where `output` tells that of a text: the text is what the file holds, with every
line end a newline, and a newline is put behind the output. -/
def outputOf (disk : Disk) (path : Path) (output : String → Except CompileError String) : Except FileError String :=
  match disk.readExactly path with
  | .error e => .error (.ofDisk e)
  | .ok raw => ((output (Text.unify raw)).map (· ++ "\n")).mapError (.ofCompile (Text.unify raw))

theorem outputOf_of_readExactly {disk : Disk} {path : Path} {raw : String} (h : disk.readExactly path = .ok raw)
    (output : String → Except CompileError String) : outputOf disk path output =
      ((output (Text.unify raw)).map (· ++ "\n")).mapError (.ofCompile (Text.unify raw)) := by
  rw [outputOf, h]

theorem compileFile_eq_outputOf {host : Host} (hl : 0 < host.limit) {o : Options} {disk : Disk}
    (hroom : host.HasRoomAt disk o.input) (now : BuiltIn.Moment) :
    (compileFile host o disk now).2 = outputOf disk o.input ((o.setting host now).compileAfter disk o.modules) := by
  rw [compileFile, outputOf, Disk.readText]
  cases hr : disk.readExactly o.input with
  | error => rfl
  | ok raw =>
  have hsource := hroom _ (Disk.readText_of_readExactly hr)
  rw [Text.unify] at hsource
  simp only [compileText_snd hsource, Setting.compileAfter, Text.unify]
  generalize String.ofList (Text.unifyNewlines raw.toList) = source
  cases Node.ofText source with
  | error => rfl
  | ok nodes =>
  have houtput : (o.setting host now).output disk source (o.prelude ++ nodes) =
      ((o.setting host now).document source).outputAfter disk (o.setting host now).limit o.modules nodes :=
    Document.output_prelude hl ..
  simp only [finishFile, houtput]
  cases ((o.setting host now).document source).outputAfter disk (o.setting host now).limit o.modules nodes with
  | ok => rfl
  | error e => cases e <;> rfl

/-- Outlines do not change what comes of a file: they are printed before all else. Without modules to be
imported that is what `compile` gives for its text, with a newline behind it, or the same error. With them
it is what they and then the text give, where an error in the text comes before any of an import; an import
that fails hands over its error without a place, and before it only one that is in the module's file. All
this is so where there is room for the file; where there is none, that ends the command. -/
theorem compileFile_agrees (host : Host) (o : Options) (disk : Disk) (now : BuiltIn.Moment) :
    (∀ debug, (compileFile host (o.withDebug debug) disk now).2 = (compileFile host o disk now).2 ∧
      (compileFile host (o.withDebug debug) disk now).1 = (if debug then outlines host disk o.input else "") ∧
      runOnce host (o.withDebug debug) disk now =
        (runOnce host (o.withDebug false) disk now).behind (if debug then outlines host disk o.input else "")) ∧
    (host.HasRoomAt disk o.input → o.modules = [] → (compileFile host o disk now).2 =
      outputOf disk o.input (compile ⟨o.input.text, o.presets.entries, o.modulePaths, now, host.limit⟩ disk)) ∧
    (host.HasRoomAt disk o.input → 0 < host.limit → (compileFile host o disk now).2 =
      outputOf disk o.input ((o.setting host now).compileAfter disk o.modules)) ∧
    (¬ host.HasRoomAt disk o.input → (compileFile host o disk now).2 = .error (.crash .full)) ∧
    ∀ source e failed, Document.importAll disk o.modules ((o.setting host now).document source) = (.error e, failed) →
      (∃ f, e = .disk f) ∨ ∃ raised before, e = .raised raised ∧ raised.span = none ∧
        (before = [] ∨ ∃ m, before = [m] ∧ m.fileName.isSome) ∧ failed.errors = before ++ [raised] := by
  refine ⟨fun debug => ⟨compileFile_snd_withDebug host debug o disk now, compileFile_fst host _ disk now,
    runOnce_withDebug host debug o disk now⟩, fun hroom ho => ?_, fun hroom hl => compileFile_eq_outputOf hl hroom now,
    compileFile_of_not_hasRoomAt, fun source e failed h => ?_⟩
  · rw [outputOf]
    cases hr : disk.readExactly o.input with
    | error e => rw [compileFile, Disk.readText, hr]
    | ok raw =>
      have hread := Disk.readText_of_readExactly hr
      exact compileFile_eq ho hread (hroom _ hread) now
  · have hnew : ((o.setting host now).document source).errors = [] := (Document.isFresh_new _ _ _ _ _).errors
    simpa only [hnew, List.nil_append] using Document.importAll_error h

/-- A module that is to be imported before is not there: outlines are printed all the same, and the error has
no place. Without the module the text compiles. -/
theorem compileFile_agrees_missing_module :
    let disk : Disk := .ofEntries [(⟨.above 0, ["d"]⟩, ⟨.file "#x\r\n".toUTF8, 0⟩)] 0
    let o : Options := ⟨.ofText "d", none, ⟨[("x", "v")]⟩, ["m"], [], false, false⟩
    let e : ExpandError := ⟨.unreadableModule "m" ⟨.none, []⟩, none, "", [], none⟩
    let host : Host := .roomy 2
    (compileFile host (o.withDebug true) disk default).2 = .error (.text (.expand [e]) "#x\n") ∧ e.span = none ∧
      (compileFile host { o with modules := [] } disk default).2 = .ok "v\n" := by
  intro disk o e host
  have hroom : host.HasRoomAt disk o.input := fun _ _ => Host.hasRoom_of_isFull (fun _ _ => rfl) _
  obtain ⟨houtlines, -, hoptions, -, himport⟩ := compileFile_agrees host o disk default
  obtain ⟨-, hnone, -⟩ := compileFile_agrees host { o with modules := [] } disk default
  have hread : disk.readExactly o.input = .ok "#x\r\n" := by decide +kernel
  have hunify : Text.unify "#x\r\n" = "#x\n" := by decide +kernel
  have hresult : (Document.importAll disk ["m"] ((o.setting host default).document "#x\n")).1 = .error (.raised e) := by
    decide +kernel
  have hafter : (o.setting host default).compileAfter disk ["m"] "#x\n" = .error (.expand [e]) := by decide +kernel
  have hcompile : compile ⟨o.input.text, o.presets.entries, o.modulePaths, default, host.limit⟩ disk "#x\n" =
      .ok "v" := by decide +kernel
  refine ⟨?_, ?_, ?_⟩
  · rw [(houtlines true).1, hoptions hroom Nat.two_pos, outputOf_of_readExactly hread, hunify, hafter]
    rfl
  · cases hall : Document.importAll disk ["m"] ((o.setting host default).document "#x\n") with
    | mk result failed =>
    obtain rfl : result = .error (.raised e) := by rw [← hresult, hall]
    rcases himport _ _ _ hall with ⟨f, hf⟩ | ⟨raised, _, hf, hspan, -⟩
    · cases hf
    · cases hf
      exact hspan
  · rw [hnone hroom rfl, outputOf_of_readExactly hread, hunify, hcompile]
    rfl

end CommandLine

end Markup
