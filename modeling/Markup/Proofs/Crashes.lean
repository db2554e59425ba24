/-
What ends the command at once.

No error in a text does: it is reported. A file whose bytes are no text does, be it the
input or a module's, and so does a NUL character in the name of the input, of the output
or of a module that the config names, a text for whose tokens there is no room, and an
output with a character that it cannot be handed over with (`Fatal`). A `#use` in a text
names no module with a NUL character (`Node.not_mem_of_use`), and every one that a run
comes across was read from a text or stands for the config (`fatal_of_expand`). A watch
goes on until it finds a disk on which a run would end so (`watch_ends`).
-/
import Markup.Proofs.Attempts
import Markup.Proofs.Diagnostics
import Markup.Proofs.NodesMet
import Markup.Proofs.ParserRoom
import Markup.Proofs.ReadNodes

namespace Markup

/-! ## The modules that a text names -/

/-- A NUL character is no name character. -/
theorem Node.not_mem_of_use {text : String} {nodes : List Node} (h : ofText text = .ok nodes) {name : String}
    {builtIn : Bool} {span : Span} (hn : .use name builtIn span ∈ preorderAll nodes) : '\x00' ∉ name.toList := by
  intro hm
  have hname : IsName name := asRead_of_ofText h _ hn
  exact absurd (hname _ hm) (by decide)

namespace CommandLine

open Document

/-! ## What ends a run -/

/-- The files that a module may be in, in the order in which they are tried. -/
def Options.moduleFiles (o : Options) (name : String) : List Path :=
  ((Path.ofText o.input.text).parent :: o.modulePaths).map (·.join (.ofText (name ++ ".write")))

/-- Why a run that has options ends at once: the bytes of its input or of a module's file are no text, the
name of its input, of its output or of a module that the options name has a NUL character, there is no room
for the tokens of its input, or its output has a character that cannot be printed, or that no file can hold. -/
inductive Fatal (host : Host) (o : Options) (disk : Disk) (now : BuiltIn.Moment) : Crash → Prop where
  | input : disk.NotText o.input → Fatal host o disk now (.disk .undecodable)
  | moduleFile {name path} : path ∈ o.moduleFiles name → disk.NotText path →
      Fatal host o disk now (.disk .undecodable)
  | inputName : o.input.hasNul = true → Fatal host o disk now (.disk .unnameable)
  | outputName {path} : o.output = some path → path.hasNul = true → Fatal host o disk now (.disk .unnameable)
  | moduleName {name} : name ∈ o.modules → '\x00' ∈ name.toList → Fatal host o disk now (.disk .unnameable)
  | full : ¬ host.HasRoomAt disk o.input → Fatal host o disk now .full
  | unprintable {text} : (compileFile host o disk now).2 = .ok text → o.output = none →
      text.toList.any host.unprintable = true → Fatal host o disk now .unencodable
  | unencodable {text path} : (compileFile host o disk now).2 = .ok text → o.output = some path →
      text.toList.any host.unencodable = true → Fatal host o disk now .unencodable

/-- Whether a node imports no module but those that options name and those whose name can be one of a file. -/
def Options.Names (o : Options) (node : Node) : Prop :=
  ∀ name span, node = .use name false span → name ∈ o.modules ∨ '\x00' ∉ name.toList

variable {host : Host} {o : Options} {disk : Disk} {now : BuiltIn.Moment}

theorem Options.isRead_names (o : Options) : Node.IsRead o.Names := by
  rintro text nodes h _ hn name span rfl
  exact .inr (Node.not_mem_of_use h hn)

theorem Options.names_of_prelude (o : Options) {nodes : List Node}
    (hn : ∀ node ∈ Node.preorderAll nodes, o.Names node) :
    ∀ node ∈ Node.preorderAll (o.prelude ++ nodes), o.Names node := by
  intro node hm
  rw [Node.preorderAll_append] at hm
  rcases List.mem_append.1 hm with hm | hm
  · obtain ⟨top, ht, hpart⟩ := Node.mem_preorderAll_iff.1 hm
    obtain ⟨name, hname, rfl⟩ := List.mem_map.1 ht
    rw [Node.preorder] at hpart
    obtain rfl := List.mem_singleton.1 hpart
    intro other place he
    obtain ⟨rfl, -, -⟩ := Node.use.inj he
    exact .inl hname
  · exact hn node hm

/-- What the disk does not tell a run is one of these reasons. -/
theorem fatal_of_expand {source : String} {nodes : List Node} {e : Disk.Error} (hn : Node.ofText source = .ok nodes)
    (h : (expand disk host.limit (o.prelude ++ nodes) ((o.setting host now).document source)).1 = .error (.disk e))
    (hne : ∀ fault path, e ≠ .refused fault path) : Fatal host o disk now (.disk e) := by
  obtain ⟨node, mid, names, left, name, span, place, hc, hl, hload⟩ := exists_use_of_expand_disk h
  have hplaces : place.directory = (Path.ofText o.input.text).parent ∧ place.modulePaths = o.modulePaths := by
    have hnew : ((o.setting host now).document source).IsFresh o.input.text source o.modulePaths :=
      isFresh_new _ _ _ _ _
    have hframe := sameFrame_of_comesTo hc
    have hinside := hl.places
    exact ⟨hinside.1.trans (hframe.directory.trans hnew.directory),
      hinside.2.trans (hframe.modulePaths.trans hnew.modulePaths)⟩
  rcases loadFile_disk_cases hload with ⟨fault, path, -, rfl⟩ | ⟨rfl, hnul⟩ | ⟨rfl, path, hm, hd⟩
  · exact absurd rfl (hne _ _)
  · rcases Path.hasNul_join hnul with hnul | hnul
    · rw [hplaces.1] at hnul
      have htext := Path.hasNul_ofText_iff.1 (Path.hasNul_parent hnul)
      exact .inputName (Path.hasNul_of_mem_text htext)
    · have hchars := Path.hasNul_ofText_iff.1 hnul
      rw [String.toList_append] at hchars
      have hname : '\x00' ∈ name.toList := (List.mem_append.1 hchars).resolve_right (by decide)
      have hnew : ((o.setting host now).document source).Has o.Names := has_new (fun _ _ _ _ => nofun) _ _ _ _ _
      have hall := o.names_of_prelude (o.isRead_names hn)
      have hmet := (has_of_leads o.isRead_names hnew hall hc hl).1
      exact .moduleName ((hmet name span rfl).resolve_right (not_not_intro hname)) hname
  · rw [moduleFiles, hplaces.1, hplaces.2] at hm
    exact .moduleFile hm hd

theorem fatal_of_finishFile {source : String} {nodes : List Node} {cause : Crash} (hn : Node.ofText source = .ok nodes)
    (h : finishFile host o disk now source nodes = .error (.crash cause)) : Fatal host o disk now cause := by
  rw [finishFile, Setting.output] at h
  cases he : (expand disk (o.setting host now).limit (o.prelude ++ nodes) ((o.setting host now).document source)).1 with
  | ok => rw [he] at h; cases h
  | error stop =>
    rw [he] at h
    cases stop with
    | failed => cases h
    | disk e =>
      have hcrash : FileError.ofDisk e = .crash cause := Except.error.inj h
      cases e with
      | refused => cases hcrash
      | unnameable | undecodable =>
        cases hcrash
        exact fatal_of_expand hn he fun _ _ hr => by cases hr

theorem fatal_of_compileFile {cause : Crash} (h : (compileFile host o disk now).2 = .error (.crash cause)) :
    Fatal host o disk now cause := by
  by_cases hroom : host.HasRoomAt disk o.input
  case neg =>
    rw [compileFile_of_not_hasRoomAt hroom] at h
    cases h
    exact .full hroom
  rw [compileFile] at h
  split at h
  next e hr =>
    have hcrash : FileError.ofDisk e = .crash cause := Except.error.inj h
    rcases Disk.readText_error_cases hr with hfault | ⟨rfl, hd⟩
    · cases hfault with
      | refused => cases hcrash
      | unnameable hn =>
        cases hcrash
        exact .inputName hn
    · cases hcrash
      exact .input hd
  next source hr =>
  rw [compileText_snd (hroom source hr)] at h
  split at h
  next => cases h
  next nodes hn => exact fatal_of_finishFile hn h

theorem fatal_of_unopened {text stdout : String} {next : Disk} {e : Disk.Error}
    (h : emit host o disk text = ⟨stdout, next, .error (.unopened e)⟩)
    (hne : ∀ fault path, e ≠ .refused fault path) : Fatal host o disk now (.disk e) := by
  have hgiven := handed host o disk text
  rw [h] at hgiven
  cases hgiven with
  | written ho hwritten =>
    cases hwritten with
    | unopened hw =>
      cases Disk.fileFault_of_locateToWrite hw with
      | refused fault => exact absurd rfl (hne fault _)
      | unnameable hn => exact .outputName ho hn

theorem fatal_of_unencodable {text stdout : String} {next : Disk} (hc : (compileFile host o disk now).2 = .ok text)
    (h : emit host o disk text = ⟨stdout, next, .error .unencodable⟩) : Fatal host o disk now .unencodable := by
  have hgiven := handed host o disk text
  rw [h] at hgiven
  cases hgiven with
  | unprintable ho hu => exact .unprintable hc ho hu
  | written ho hwritten =>
    cases hwritten with
    | unencodable hu => exact .unencodable hc ho hu

theorem fatal_of_runOnce {cause : Crash} {effect : Effect} (h : runOnce host o disk now = .crashed cause effect) :
    Fatal host o disk now cause := by
  obtain ⟨told, hattempt⟩ := attempt_of_runOnce h
  cases hattempt with
  | uncompiled hc => exact fatal_of_compileFile hc
  | unnamed _ he hne => exact fatal_of_unopened he hne
  | unencodable hc he => exact fatal_of_unencodable hc he

theorem fatal_of_refresh {cause : Crash} (h : Watch.refresh host o disk now = .error cause) :
    Fatal host o disk now cause := by
  obtain ⟨outcome, -, hattempt⟩ := attempt_of_refresh h
  cases hattempt with
  | uncompiled hc => exact fatal_of_compileFile hc
  | unnamed _ he hne => exact fatal_of_unopened he hne
  | unencodable hc he => exact fatal_of_unencodable hc he

/-! ## What is reported -/

/-- Whether an error message is printed. -/
def Reports (stderr : String) : Prop := ∃ before message, stderr = before ++ "error: " ++ message

theorem reports_self : Reports "error: " := ⟨"", "", rfl⟩

theorem Reports.append {stderr : String} (h : Reports stderr) (after : String) : Reports (stderr ++ after) := by
  obtain ⟨before, message, rfl⟩ := h
  exact ⟨before, message ++ after, String.append_assoc⟩

theorem Reports.behind {stderr : String} (h : Reports stderr) (outline : String) : Reports (outline ++ stderr) := by
  obtain ⟨before, message, rfl⟩ := h
  exact ⟨outline ++ before, message, by simp only [String.append_assoc]⟩

theorem reports_snippet (message : String) (span : Span) (source fileName : String) :
    Reports (snippet message span source fileName) := by
  unfold snippet
  extract_lets
  simp only [String.append_assoc]
  exact reports_self.append _

theorem reports_render (e : ExpandError) (fileName : String) : Reports (e.render fileName) := by
  rw [ExpandError.render]
  refine .append (.append ?_ _) _
  split
  next =>
    split
    next => exact reports_self.append _
    next => exact reports_snippet _ _ _ _
  next => exact reports_self.append _

theorem reports_renderAll {errors : List ExpandError} (h : errors ≠ []) (fileName : String) :
    Reports (ExpandError.renderAll errors fileName) := by
  cases errors with
  | nil => exact absurd rfl h
  | cons e rest =>
    rw [ExpandError.renderAll, List.map_cons]
    cases rest with
    | nil =>
      rw [List.map_nil, String.intercalate_singleton]
      exact reports_render e fileName
    | cons other rest =>
      rw [List.map_cons, String.intercalate_cons_cons]
      exact ((reports_render e fileName).append _).append _

theorem reports_of_finishFile {source : String} {nodes : List Node} {e : CompileError} {text : String}
    (h : finishFile host o disk now source nodes = .error (.text e text)) (fileName : String) :
    Reports (renderError e text fileName) := by
  rw [finishFile, Setting.output] at h
  cases he : (expand disk (o.setting host now).limit (o.prelude ++ nodes) ((o.setting host now).document source)).1 with
  | ok => rw [he] at h; cases h
  | error stop =>
    rw [he] at h
    cases stop with
    | failed errors =>
      cases h
      obtain ⟨_, _, _, _, -, -, rfl⟩ := expand_failed_iff.1 he
      exact reports_renderAll (by simp) fileName
    | disk e =>
      have hother : FileError.ofDisk e = .text _ _ := Except.error.inj h
      cases e <;> cases hother

theorem reports_renderError {e : CompileError} {source : String}
    (h : (compileFile host o disk now).2 = .error (.text e source)) (fileName : String) :
    Reports (renderError e source fileName) := by
  have hroom : host.HasRoomAt disk o.input := by
    by_contra hfull
    rw [compileFile_of_not_hasRoomAt hfull] at h
    cases h
  rw [compileFile] at h
  split at h
  next e _ =>
    have hother : FileError.ofDisk e = .text _ _ := Except.error.inj h
    cases e <;> cases hother
  next hr =>
  rw [compileText_snd (hroom _ hr)] at h
  split at h
  next =>
    cases h
    exact reports_snippet _ _ _ _
  next => exact reports_of_finishFile h fileName

/-- A run that ends with a code other than 0 ends with 1, and reports why. -/
theorem reports_of_runOnce {code : Nat} {effect : Effect} (h : runOnce host o disk now = .finished code effect) :
    code = 0 ∨ code = 1 ∧ Reports effect.stderr := by
  obtain ⟨told, hattempt⟩ := attempt_of_runOnce h
  cases hattempt with
  | delivered => exact .inl rfl
  | wrong hc => exact .inr ⟨rfl, ((reports_renderError hc _).behind _).append _⟩
  | unread =>
    have hmessage : Reports "error: could not read " := ⟨"", "could not read ", by decide⟩
    exact .inr ⟨rfl, ((((hmessage.behind _).append _).append _).append _).append _⟩
  | unopened | broken =>
    have hmessage : Reports "error: could not write " := ⟨"", "could not write ", by decide⟩
    exact .inr ⟨rfl, ((((hmessage.behind _).append _).append _).append _).append _⟩

/-! ## A watch -/

theorem fatal_of_look {lastChange : Int} {cause : Crash} (h : Watch.look host o now lastChange disk = .error cause) :
    Fatal host o disk now cause := by
  rw [Watch.look] at h
  split at h
  next hm =>
    cases h
    obtain ⟨rfl, hn⟩ := Disk.eq_unnameable_of_modified hm
    exact .inputName hn
  next => cases h
  next =>
  split at h
  next => cases h
  next =>
  split at h
  next hr =>
    cases h
    exact fatal_of_refresh hr
  next => cases h

/-- Looks end at once at a disk on which a run would, be it the first or one that a pause leaves. -/
theorem fatal_of_looks {lastChange : Int} {pauses : List Watch.Pause} {cause : Crash}
    (h : Watch.looks host o now lastChange disk pauses = .error cause) :
    Fatal host o disk now cause ∨ ∃ before pause after looked left, pauses = before ++ pause :: after ∧
      Watch.looks host o now lastChange disk before = .ok looked ∧
      looked.getLast?.map (·.effect.disk) = some left ∧ Fatal host o (pause.edit left) pause.now cause := by
  induction pauses generalizing now lastChange disk with
  | nil =>
    rw [Watch.looks] at h
    split at h
    next hl =>
      cases h
      exact .inl (fatal_of_look hl)
    next => cases h
  | cons pause pauses ih =>
    rw [Watch.looks] at h
    split at h
    next hl =>
      cases h
      exact .inl (fatal_of_look hl)
    next one hl =>
    split at h
    next hmore =>
      cases h
      rcases ih hmore with hf | ⟨before, other, after, looked, left, rfl, hlooked, hleft, hf⟩
      · exact .inr ⟨[], pause, pauses, [one], one.effect.disk, rfl, by rw [Watch.looks, hl], rfl, hf⟩
      · refine .inr ⟨pause :: before, other, after, one :: looked, left, rfl, ?_, ?_, hf⟩
        · rw [Watch.looks, hl]
          simp only [hlooked]
        · cases looked with
          | nil => cases hleft
          | cons => rwa [List.getLast?_cons_cons]
    next => cases h

theorem length_of_looks {lastChange : Int} {pauses : List Watch.Pause} {looked : List Watch.Look}
    (h : Watch.looks host o now lastChange disk pauses = .ok looked) : looked.length = pauses.length + 1 := by
  induction pauses generalizing now lastChange disk looked with
  | nil =>
    rw [Watch.looks] at h
    split at h
    next => cases h
    next =>
      cases h
      rfl
  | cons pause pauses ih =>
    rw [Watch.looks] at h
    split at h
    next => cases h
    next =>
    split at h
    next => cases h
    next more hm =>
      cases h
      rw [List.length_cons, List.length_cons, ih hm]

/-- Whether a watch finds a disk on which a run would end at once: the one it begins with, or what others
make of the one that its looks before have left. -/
inductive FindsFatal (host : Host) (o : Options) (now : BuiltIn.Moment) (disk : Disk) :
    List Watch.Pause → Crash → Prop where
  | first {pauses cause} : Fatal host o disk now cause → FindsFatal host o now disk pauses cause
  | behind {before pause after session left cause} : Watch.run host o now disk before = .ok session →
      session.looks.getLast?.map (·.effect.disk) = some left → Fatal host o (pause.edit left) pause.now cause →
      FindsFatal host o now disk (before ++ pause :: after) cause

/-- A watch looks once more than there are pauses and ends with 0 when it is interrupted, unless it ends
at once, at a disk on which a run would. -/
theorem watch_ends (host : Host) (o : Options) (now : BuiltIn.Moment) (disk : Disk) (pauses : List Watch.Pause) :
    match Watch.run host o now disk pauses with
    | .ok session => session.looks.length = pauses.length + 1 ∧ session.code = 0
    | .error cause => FindsFatal host o now disk pauses cause := by
  rw [Watch.run]
  cases hl : Watch.looks host o now 0 disk pauses with
  | ok looked =>
    refine ⟨?_, rfl⟩
    rw [List.length_modifyHead, length_of_looks hl]
  | error cause =>
    rcases fatal_of_looks hl with hf | ⟨before, pause, after, looked, left, rfl, hlooked, hleft, hf⟩
    · exact .first hf
    · have hsession : Watch.run host o now disk before = .ok ⟨looked.modifyHead (Watch.greet o), 0⟩ := by
        rw [Watch.run, hlooked]
      refine .behind hsession ?_ hf
      rw [← hleft, ← List.getLast?_map, ← List.getLast?_map]
      cases looked <;> rfl

/-! ## The command -/

/-- A command that has an input and is not asked for help reports what is wrong and ends with 1, or ends
with 0; if it is to watch, only with 1, or it watches, and whatever others do to the disk, it looks again
until it is interrupted, and then ends with 0. Otherwise it ends at once, and then for a reason that
`Unresolved` lists, before it has options, or for one that `Fatal` lists, be it of the disk that it begins
with or of one that a watch finds. -/
theorem run_reports_or_crashes (host : Host) {words : List String} {args : Arguments} {input : String}
    (ha : Arguments.ofWords words = .ok args) (hi : args.input = some input) (hh : args.help = false)
    (hv : args.version = false) (disk : Disk) (now : BuiltIn.Moment) :
    match run host words disk now with
    | .finished code effect => code = 0 ∧ args.watch = false ∨ code = 1 ∧ Reports effect.stderr
    | .watching o => args.watch = true ∧ Options.resolve host disk args = .ok o ∧ ∀ pauses,
        match Watch.run host o now disk pauses with
        | .ok session => session.looks.length = pauses.length + 1 ∧ session.code = 0
        | .error cause => FindsFatal host o now disk pauses cause
    | .crashed cause _ => Options.Unresolved host disk args (Options.configFile (.ofText input) args.config) cause ∨
        ∃ o, Options.resolve host disk args = .ok o ∧ args.watch = false ∧ Fatal host o disk now cause := by
  have hinput : args.input.isNone = false := by rw [hi]; rfl
  simp only [run, ha, runArguments, hh, hv, hinput, Bool.false_eq_true, if_false]
  cases hr : Options.resolve host disk args with
  | error e =>
    cases e with
    | config m => exact .inr ⟨rfl, (reports_self.append _).append _⟩
    | define text => exact .inr ⟨rfl, (reports_self.append _).append _⟩
    | crash cause => exact .inl (Options.unresolved_of_resolve hi hr)
  | ok o =>
  have hw := Options.watch_of_resolve hr
  by_cases hwatch : o.watch = true
  · simp only [hwatch, if_true]
    exact ⟨hw.symm.trans hwatch, trivial, watch_ends host o now disk⟩
  · have hnot : args.watch = false := by rw [← hw]; simpa using hwatch
    simp only [hwatch]
    cases hone : runOnce host o disk now with
    | finished code effect =>
      rcases reports_of_runOnce hone with hcode | hcode
      · exact .inl ⟨hcode, hnot⟩
      · exact .inr hcode
    | watching other =>
      obtain ⟨told, hattempt⟩ := attempt_of_runOnce hone
      cases hattempt
    | crashed cause => exact .inr ⟨o, rfl, hnot, fatal_of_runOnce hone⟩

/-- A text with an error. -/
theorem run_reports_or_crashes_bracket :
    let disk : Disk := .ofEntries [(⟨.above 0, ["a.write"]⟩, ⟨.file ")".toUTF8, 1⟩)] 1
    ∃ effect, run (.roomy 9) ["a.write"] disk default = .finished 1 effect ∧ Reports effect.stderr := by
  intro disk
  have ha : Arguments.ofWords ["a.write"] =
      .ok ⟨some "a.write", none, [], [], none, false, false, false, false⟩ := rfl
  have hresult := run_reports_or_crashes (.roomy 9) ha rfl rfl rfl disk default
  have hdone : (match run (.roomy 9) ["a.write"] disk default with
      | .finished code _ => code
      | .watching _ => 0
      | .crashed _ _ => 0) = 1 := by decide +kernel
  generalize run (.roomy 9) ["a.write"] disk default = outcome at hresult hdone
  cases outcome with
  | finished code effect =>
    obtain rfl : code = 1 := hdone
    rcases hresult with ⟨hcode, -⟩ | ⟨-, hreports⟩
    · cases hcode
    · exact ⟨effect, rfl, hreports⟩
  | watching | crashed => cases hdone

/-- An input whose bytes are no text is not reported: it ends a run at once, and a watch at its first
look; so does such a config, before there are options, and an input with a call in a call where there is no
room for that. -/
theorem run_crashes_undecodable :
    let bytes : Disk.Content := .file ⟨#[0xff]⟩
    let disk : Disk := .ofEntries [(⟨.above 0, ["a.write"]⟩, ⟨bytes, 1⟩)] 1
    let o : Options := ⟨⟨.none, ["a.write"]⟩, none, ⟨[]⟩, [], [], true, false⟩
    let config : Disk := .ofEntries [(⟨.above 0, ["writ.toml"]⟩, ⟨bytes, 1⟩)] 1
    let nested : Disk := .ofEntries [(⟨.above 0, ["a.write"]⟩, ⟨.file "(. (. x))".toUTF8, 1⟩)] 1
    let narrow : Host := { Host.roomy 9 with isFull := fun st _ => st.context matches .call _ _ _ _ _ (.call ..) }
    run (.roomy 9) ["a.write"] disk default = .crashed (.disk .undecodable) ⟨"", "", disk⟩ ∧
      run (.roomy 9) ["a.write", "--watch"] disk default = .watching o ∧
      Watch.run (.roomy 9) o default disk [] = .error (.disk .undecodable) ∧
      run (.roomy 9) ["a.write"] config default = .crashed (.disk .undecodable) ⟨"", "", config⟩ ∧
      (run narrow ["a.write"] nested default matches .crashed .full _) = true := by
  intro bytes disk o config nested narrow
  exact ⟨rfl, rfl, rfl, rfl, by decide +kernel⟩

end CommandLine

end Markup
