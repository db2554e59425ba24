/-
The file that a module is read from, and what comes of it.

A module is looked for in the document's directory and then in its module paths, and the
first of its places that leads to a file is chosen (`Document.Chosen`), whatever is in it.
`Document.ImportsAs` lists what can come of an import: a tree is entered, an error in the
text is recorded before the failed import, and where no place leads to a file, or to one
that must not be read, there is one error. Nothing else of the document changes, and
nothing behind the place that is chosen counts (`importModule_search`).

Nor is anything recorded where the disk does not tell: the search ends at a place with a
name too long for a file (`importModule_search_long_name`) or behind a directory that must
not be searched, and a NUL character is met where the first place is read. Bytes that are
no text end the import at once, too.
-/
import Markup.Proofs.FailurePoints
import Markup.Proofs.FileFaults
import Markup.Proofs.ShownLines

namespace Markup

namespace Path

theorem split_of_notMem {cs : List Char} (h : '/' ∉ cs) : split cs = [cs] := by
  induction cs with
  | nil => rfl
  | cons c cs ih =>
    rw [List.mem_cons, not_or] at h
    rw [split, ih h.2]
    simp only [Ne.symm h.1, if_false]

theorem ofText_of_notMem {text : String} (h : '/' ∉ text.toList) (he : text ≠ "") (hp : text ≠ ".") :
    ofText text = ⟨.none, [text]⟩ := by
  have hroot : Root.ofChars text.toList = .none := by
    unfold Root.ofChars
    split
    next he => exact absurd h (by simp [he])
    next he => exact absurd h (by simp [he])
    next he => exact absurd h (by simp [he])
    next => rfl
  rw [ofText, hroot, split_of_notMem h]
  simp [he, hp]

end Path

namespace Disk

/-- Whether a file holds a text, once its line ends are unified. -/
def HasText (d : Disk) (path : Path) (text : String) : Prop :=
  ∃ bytes raw, d.readBytes path = .ok bytes ∧ String.fromUTF8? bytes = some raw ∧
    text = .ofList (Text.unifyNewlines raw.toList)

variable {d : Disk} {path : Path}

theorem readText_of_hasText {text : String} (h : d.HasText path text) : d.readText path = .ok text := by
  obtain ⟨bytes, raw, hb, hd, rfl⟩ := h
  rw [readText, readExactly, hb]
  simp only [hd]

/-- A file holds a text, or bytes that are none, or it must not be read. -/
theorem hasText_cases (h : d.isFile path = .ok true) :
    (∃ text, d.HasText path text) ∨ d.NotText path ∨ d.readBytes path = .error (.refused .denied path) := by
  cases hb : d.readBytes path with
  | ok bytes =>
    cases hd : String.fromUTF8? bytes with
    | none => exact .inr (.inl ⟨bytes, hb, hd⟩)
    | some raw => exact .inl ⟨_, bytes, raw, hb, hd, rfl⟩
  | error e => exact .inr (.inr (readBytes_error_of_isFile h hb ▸ rfl))

theorem readText_of_readBytes_error {e : Error} (h : d.readBytes path = .error e) : d.readText path = .error e := by
  rw [readText, readExactly, h]

theorem readText_of_hasNul (h : path.hasNul = true) : d.readText path = .error .unnameable :=
  readText_of_readBytes_error (by rw [readBytes, locate, if_pos h])

/-- What does not lead to a file is refused, unless it cannot be named. -/
theorem exists_refused_of_not_isFile (h : d.isFile path = .ok false) (hn : path.hasNul = false) :
    ∃ fault place, d.readText path = .error (.refused fault place) := by
  cases hb : d.readBytes path with
  | ok bytes =>
    rw [isFile_of_readBytes hb] at h
    cases h
  | error e =>
    cases fileFault_of_readBytes hb with
    | refused fault => exact ⟨_, _, readText_of_readBytes_error hb⟩
    | unnameable hnul =>
      rw [hn] at hnul
      cases hnul

/-- A name too long for a file leads nowhere, whatever is on the disk. -/
theorem locate_of_long_name (hs : d.denies .search ⟨.above 0, []⟩ = false) {name : String}
    (hn : '\x00' ∉ name.toList) (h : longestName < name.utf8ByteSize) :
    d.locate ⟨.none, [name]⟩ = .error (.refused .nameTooLong ⟨.none, [name]⟩) := by
  have hnul : ¬ Path.hasNul ⟨.none, [name]⟩ = true := by
    rw [Path.hasNul_iff]
    simpa using hn
  rw [locate, if_neg hnul]
  simp only [follow, if_true, hs, Bool.false_eq_true, if_false, if_pos h, ite_self]

/-! ## The first file -/

theorem firstFile?_append {before : List Path} (h : ∀ path ∈ before, d.isFile path = .ok false) (later : List Path) :
    d.firstFile? (before ++ later) = d.firstFile? later := by
  induction before with
  | nil => rfl
  | cons path before ih =>
    obtain ⟨hp, hb⟩ := List.forall_mem_cons.1 h
    rw [List.cons_append, firstFile?, hp]
    exact ih hb

/-- The first path that leads to a file or cannot be told, if there is one. -/
theorem exists_first_file (d : Disk) (paths : List Path) :
    (∃ before path later, paths = before ++ path :: later ∧ (∀ p ∈ before, d.isFile p = .ok false) ∧
      d.isFile path ≠ .ok false) ∨ ∀ path ∈ paths, d.isFile path = .ok false := by
  induction paths with
  | nil => exact .inr (List.forall_mem_nil _)
  | cons path rest ih =>
    by_cases hp : d.isFile path = .ok false
    · rcases ih with ⟨before, other, later, rfl, hb, ho⟩ | hall
      · exact .inl ⟨path :: before, other, later, rfl, List.forall_mem_cons.2 ⟨hp, hb⟩, ho⟩
      · exact .inr (List.forall_mem_cons.2 ⟨hp, hall⟩)
    · exact .inl ⟨[], path, rest, rfl, List.forall_mem_nil _, hp⟩

end Disk

namespace Document

/-- Whether a module is read from a file: it is the first of the module's places that leads to one. -/
def Chosen (doc : Document) (disk : Disk) (name : String) (path : Path) : Prop :=
  ∃ before later, doc.moduleFiles name = before ++ path :: later ∧ (∀ p ∈ before, disk.isFile p = .ok false) ∧
    disk.isFile path = .ok true

/-- What can come of importing a module from a file. -/
inductive ImportsAs (doc : Document) (disk : Disk) (name : String) : Outcome Unit → Prop where
  | tree {path text nodes} : doc.Chosen disk name path → disk.HasText path text → Node.ofText text = .ok nodes →
      ImportsAs doc disk name (doc.enterAll nodes)
  | broken {path text e} : doc.Chosen disk name path → disk.HasText path text → Node.ofText text = .error e →
      ImportsAs doc disk name (.error (.raised (doc.errorOf (.brokenModule name))),
        { doc with errors := doc.errors ++ [e.inModule path text, doc.errorOf (.brokenModule name)] })
  | notText {path} : doc.Chosen disk name path → disk.NotText path →
      ImportsAs doc disk name (.error (.disk .undecodable), doc)
  | denied {path} : doc.Chosen disk name path → disk.readBytes path = .error (.refused .denied path) →
      ImportsAs doc disk name (.error (.raised (doc.errorOf (.unreadableModule name doc.directory))),
        { doc with errors := doc.errors ++ [doc.errorOf (.unreadableModule name doc.directory)] })
  | missing : (∀ path ∈ doc.moduleFiles name, disk.isFile path = .ok false) →
      (doc.directory.join (.ofText (name ++ ".write"))).hasNul = false →
      ImportsAs doc disk name (.error (.raised (doc.errorOf (.unreadableModule name doc.directory))),
        { doc with errors := doc.errors ++ [doc.errorOf (.unreadableModule name doc.directory)] })
  | unnameable : (∀ path ∈ doc.moduleFiles name, disk.isFile path = .ok false) →
      (doc.directory.join (.ofText (name ++ ".write"))).hasNul = true →
      ImportsAs doc disk name (.error (.disk .unnameable), doc)
  | untold {before path later fault place} : doc.moduleFiles name = before ++ path :: later →
      (∀ p ∈ before, disk.isFile p = .ok false) → disk.isFile path = .error (.refused fault place) →
      fault.leavesOpen = true → ImportsAs doc disk name (.error (.disk (.refused fault place)), doc)

variable {disk : Disk} {doc : Document} {name : String} {path : Path}

theorem Chosen.moduleFile (h : doc.Chosen disk name path) : doc.moduleFile disk name = .ok path := by
  obtain ⟨before, later, hfiles, hbefore, hpath⟩ := h
  rw [Document.moduleFile, hfiles, Disk.firstFile?_append hbefore, Disk.firstFile?, hpath]
  rfl

theorem ofText_moduleName {name : String} (h : '/' ∉ name.toList) :
    Path.ofText (name ++ ".write") = ⟨.none, [name ++ ".write"]⟩ := by
  have hlong : 1 < (name ++ ".write").toList.length := by
    rw [String.toList_append, List.length_append]
    exact Nat.lt_add_left _ (by decide)
  refine Path.ofText_of_notMem ?_ ?_ ?_
  · rw [String.toList_append, List.mem_append, not_or]
    exact ⟨h, by decide⟩
  · intro he
    rw [he] at hlong
    exact absurd hlong (by decide)
  · intro he
    rw [he] at hlong
    exact absurd hlong (by decide)

theorem Chosen.loadFile_text (h : doc.Chosen disk name path) {text : String} (ht : disk.HasText path text) :
    doc.loadFile disk name = doc.parseModule name path text := by
  rw [loadFile, h.moduleFile]
  simp only [Disk.readText_of_hasText ht]

theorem importModule_file_eq (doc : Document) (disk : Disk) (name : String) :
    doc.importModule disk name false = (doc.loadFile disk name).andThen fun nodes doc => doc.enterAll nodes := by
  rw [importModule_eq, loadModule, if_neg Bool.false_ne_true]

theorem moduleFile_of_none (h : ∀ path ∈ doc.moduleFiles name, disk.isFile path = .ok false) :
    doc.moduleFile disk name = .ok (doc.directory.join (.ofText (name ++ ".write"))) := by
  have hnone := Disk.firstFile?_append h []
  rw [List.append_nil] at hnone
  rw [moduleFile, hnone]
  rfl

theorem ImportsAs.importModule {outcome : Outcome Unit} (h : doc.ImportsAs disk name outcome) :
    doc.importModule disk name false = outcome := by
  rw [importModule_file_eq]
  cases h with
  | tree hc ht hn =>
    rw [hc.loadFile_text ht, parseModule, hn]
    rfl
  | broken hc ht hn =>
    rw [hc.loadFile_text ht, parseModule, hn]
    simp [raise, record, errorOf, Node.TextError.inModule]
  | notText hc ht =>
    rw [loadFile, hc.moduleFile]
    simp [Disk.readText_of_notText ht]
  | denied hc hb =>
    rw [loadFile, hc.moduleFile]
    simp only [Disk.readText_of_readBytes_error hb]
    rfl
  | missing hall hn =>
    obtain ⟨fault, place, hr⟩ := Disk.exists_refused_of_not_isFile (hall _ List.mem_cons_self) hn
    rw [loadFile, moduleFile_of_none hall]
    simp only [hr]
    rfl
  | unnameable hall hn =>
    rw [loadFile, moduleFile_of_none hall]
    simp only [Disk.readText_of_hasNul hn]
    rfl
  | untold hfiles hbefore hp _ =>
    rw [loadFile, moduleFile, hfiles, Disk.firstFile?_append hbefore, Disk.firstFile?, hp]
    rfl

/-- Every import comes to something that is listed. -/
theorem importsAs_importModule (doc : Document) (disk : Disk) (name : String) :
    doc.ImportsAs disk name (doc.importModule disk name false) := by
  have hlisted : ∃ outcome, doc.ImportsAs disk name outcome := by
    rcases disk.exists_first_file (doc.moduleFiles name) with ⟨before, path, later, hfiles, hbefore, hpath⟩ | hall
    · cases hp : disk.isFile path with
      | error e =>
        obtain ⟨fault, place, ho, rfl⟩ := Disk.isFile_error hp
        exact ⟨_, .untold hfiles hbefore hp ho⟩
      | ok found =>
        cases found with
        | false => exact absurd hp hpath
        | true =>
          have hc : doc.Chosen disk name path := ⟨before, later, hfiles, hbefore, hp⟩
          rcases Disk.hasText_cases hp with ⟨text, ht⟩ | ht | hb
          · cases hn : Node.ofText text with
            | error e => exact ⟨_, .broken hc ht hn⟩
            | ok nodes => exact ⟨_, .tree hc ht hn⟩
          · exact ⟨_, .notText hc ht⟩
          · exact ⟨_, .denied hc hb⟩
    · cases hn : (doc.directory.join (.ofText (name ++ ".write"))).hasNul with
      | false => exact ⟨_, .missing hall hn⟩
      | true => exact ⟨_, .unnameable hall hn⟩
  obtain ⟨outcome, h⟩ := hlisted
  rw [h.importModule]
  exact h

theorem importModule_of_long_name (hd : doc.directory = ⟨.none, []⟩)
    (hs : disk.denies .search ⟨.above 0, []⟩ = false) (hslash : '/' ∉ name.toList) (hnul : '\x00' ∉ name.toList)
    (hlong : Disk.longestName < (name ++ ".write").utf8ByteSize) :
    doc.importModule disk name false =
      (.error (.disk (.refused .nameTooLong ⟨.none, [name ++ ".write"]⟩)), doc) := by
  have hnul : '\x00' ∉ (name ++ ".write").toList := by
    rw [String.toList_append, List.mem_append, not_or]
    exact ⟨hnul, by decide⟩
  have hfirst : ∃ later, doc.moduleFiles name = [] ++ ⟨.none, [name ++ ".write"]⟩ :: later := by
    rw [moduleFiles, List.map_cons, hd, ofText_moduleName hslash]
    exact ⟨_, rfl⟩
  obtain ⟨later, hfiles⟩ := hfirst
  refine (ImportsAs.untold hfiles (List.forall_mem_nil _) ?_ rfl).importModule
  rw [Disk.isFile, Disk.find, Disk.locate_of_long_name hs hnul hlong]
  rfl

/-! ## What does not count -/

/-- A document that looks for modules elsewhere. -/
def withPaths (paths : List Path) (doc : Document) : Document := { doc with modulePaths := paths }

theorem bind_withPaths (paths : List Path) (name : String) (changes : Bool) (value : List Node) (span : Span)
    (doc : Document) : (doc.withPaths paths).bind name changes value span =
      (doc.bind name changes value span).thenIn (withPaths paths) := by
  rw [bind, bind, show (doc.withPaths paths).bindings = doc.bindings from rfl]
  split
  next =>
    cases doc.bindings.get? name <;> rfl
  next => rfl

theorem enterAll_withPaths (paths : List Path) (nodes : List Node) (doc : Document) :
    (doc.withPaths paths).enterAll nodes = (doc.enterAll nodes).thenIn (withPaths paths) := by
  induction nodes generalizing doc with
  | nil => rfl
  | cons node rest ih =>
    cases node with
    | define name params body span =>
      rw [enterAll_define, enterAll_define]
      exact ih (doc.define ⟨name, params, body, span⟩)
    | bind name changes value span =>
      rw [enterAll_bind, enterAll_bind, bind_withPaths]
      obtain ⟨_ | _, mid⟩ := doc.bind name changes value span
      · rfl
      · exact ih mid
    | _ =>
      rw [enterAll_of_ne _ (by simp) (by simp), enterAll_of_ne _ (by simp) (by simp)]
      exact ih doc

/-- Where the same file is chosen and holds the same, the same comes of an import. -/
theorem importModule_withPaths {disk' : Disk} {paths : List Path} (h : doc.Chosen disk name path)
    (h' : (doc.withPaths paths).Chosen disk' name path) (hr : disk'.readBytes path = disk.readBytes path) :
    (doc.withPaths paths).importModule disk' name false =
      (doc.importModule disk name false).thenIn (withPaths paths) := by
  have hread : disk'.readText path = disk.readText path := by
    rw [Disk.readText, Disk.readText, Disk.readExactly, Disk.readExactly, hr]
  rw [importModule_file_eq, importModule_file_eq, loadFile, loadFile, h.moduleFile, h'.moduleFile]
  simp only [hread]
  split
  next => rfl
  next => rfl
  next text _ =>
    rw [parseModule, parseModule]
    cases Node.ofText text with
    | error e => rfl
    | ok nodes => exact enterAll_withPaths paths nodes doc

/-- An import reads the first place of the module that leads to a file, if all before can be told, and comes
to what `ImportsAs` lists: two errors are added for a text without a tree, one where no place leads to a
file. What stands at other places does not count. -/
theorem importModule_search (doc : Document) (disk : Disk) (name : String) :
    (∀ outcome, doc.importModule disk name false = outcome ↔ doc.ImportsAs disk name outcome) ∧
    (∀ path text e, doc.Chosen disk name path → disk.HasText path text → Node.ofText text = .error e →
      ∃ inner outer, doc.importModule disk name false =
          (.error (.raised outer), { doc with errors := doc.errors ++ [inner, outer] }) ∧
        inner.message = e.message ∧ inner.fileName = some path.text ∧ inner.source = text ∧
        inner.span = some e.span ∧ e.span.start.IsIn text.toList ∧
        (∀ f, e = .tokens f → e.span = .ofPosition f.position) ∧
        outer.message = "failed to import module '" ++ name ++ "'") ∧
    ((∀ path ∈ doc.moduleFiles name, disk.isFile path = .ok false) →
      (doc.directory.join (.ofText (name ++ ".write"))).hasNul = false →
      ∃ e, doc.importModule disk name false = (.error (.raised e), { doc with errors := doc.errors ++ [e] }) ∧
        e.message = "could not read module '" ++ name ++ "'") ∧
    (∀ path disk' paths, doc.Chosen disk name path → (doc.withPaths paths).Chosen disk' name path →
      disk'.readBytes path = disk.readBytes path → (doc.withPaths paths).importModule disk' name false =
        (doc.importModule disk name false).thenIn (withPaths paths)) := by
  refine ⟨?_, ?_, ?_, ?_⟩
  · intro outcome
    constructor
    · rintro rfl
      exact importsAs_importModule doc disk name
    · exact ImportsAs.importModule
  · intro path text e hc ht hn
    obtain ⟨before, after, htext, hstart⟩ := Node.TextError.exists_before hn
    refine ⟨e.inModule path text, _, (ImportsAs.broken hc ht hn).importModule, ?_, rfl, rfl, rfl, ?_, ?_, rfl⟩
    · cases e <;> rfl
    · rw [htext, hstart]
      exact Position.isIn_advance before after
    · rintro f rfl
      rfl
  · intro hall hn
    exact ⟨_, (ImportsAs.missing hall hn).importModule, rfl⟩
  · intro path disk' paths hc hc' hr
    exact importModule_withPaths hc hc' hr

/-- A module in the document's directory is broken: where else it may be does not count. -/
theorem importModule_search_broken :
    let disk : Disk := .ofEntries [(⟨.above 0, ["m.write"]⟩, ⟨.file "(".toUTF8, 0⟩)] 0
    let doc : Document := ⟨⟨.none, []⟩, "", "", .empty, .empty, [], [], []⟩
    let later : List Path := [⟨.none, ["later"]⟩]
    (∃ inner outer, doc.importModule disk "m" false =
        (.error (.raised outer), { doc with errors := [inner, outer] }) ∧
      inner.message = "expected macro name after '('" ∧ inner.fileName = some "m.write" ∧
      inner.span = some (.ofPosition ⟨1, 2, 1⟩) ∧ outer.message = "failed to import module 'm'") ∧
    (doc.withPaths later).importModule disk "m" false =
      (doc.importModule disk "m" false).thenIn (withPaths later) := by
  intro disk doc later
  have hc : doc.Chosen disk "m" ⟨.none, ["m.write"]⟩ := ⟨[], _, rfl, List.forall_mem_nil _, rfl⟩
  have hc' : (doc.withPaths later).Chosen disk "m" ⟨.none, ["m.write"]⟩ := ⟨[], _, rfl, List.forall_mem_nil _, rfl⟩
  have ht : disk.HasText ⟨.none, ["m.write"]⟩ "(" := ⟨_, "(", rfl, rfl, rfl⟩
  have hn : Node.ofText "(" = .error (.tokens ⟨.missingName, ⟨1, 2, 1⟩⟩) := by cbv
  obtain ⟨-, hbroken, -, hlater⟩ := importModule_search doc disk "m"
  refine ⟨?_, hlater _ disk later hc hc' rfl⟩
  obtain ⟨inner, outer, hi, hmessage, hfile, -, hspan, -, -, houter⟩ := hbroken _ _ _ hc ht hn
  exact ⟨inner, outer, hi, hmessage, hfile, hspan, houter⟩

/-- A name of 256 characters with its suffix: no place of the module is a file, and no error is added. -/
theorem importModule_search_long_name :
    let name := String.ofList (List.replicate 250 'a')
    let doc : Document := ⟨⟨.none, []⟩, "", "", .empty, .empty, [], [], []⟩
    (∀ path ∈ doc.moduleFiles name, ∀ bytes, Disk.empty.readBytes path ≠ .ok bytes) ∧
      ∃ place, doc.importModule .empty name false = (.error (.disk (.refused .nameTooLong place)), doc) := by
  intro name doc
  have hslash : '/' ∉ name.toList := by
    rw [String.toList_ofList, List.mem_replicate]
    decide
  have hnul : '\x00' ∉ name.toList := by
    rw [String.toList_ofList, List.mem_replicate]
    decide
  have hlong : Disk.longestName < (name ++ ".write").utf8ByteSize := by decide +kernel
  clear_value name
  refine ⟨?_, _, importModule_of_long_name rfl rfl hslash hnul hlong⟩
  have hplaces : doc.moduleFiles name = [⟨.none, [name ++ ".write"]⟩] := by
    rw [moduleFiles, List.map_cons, ofText_moduleName hslash]
    rfl
  have hnul : '\x00' ∉ (name ++ ".write").toList := by
    rw [String.toList_append, List.mem_append, not_or]
    exact ⟨hnul, by decide⟩
  rw [hplaces]
  intro path hp bytes hb
  rw [List.mem_singleton.1 hp, Disk.readBytes, Disk.locate_of_long_name rfl hnul hlong] at hb
  cases hb

end Document

end Markup
