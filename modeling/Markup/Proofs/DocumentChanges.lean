/-
What expansion does to a document, whether it succeeds or not.

A document is changed in few ways: a macro is entered, a variable is given a
value or another one, an error is recorded, a name is put on the call stack
and taken off. What holds of these changes and goes on from one to the next
(`ChangeLaw`) holds between a document and the one behind any part of
expansion (`ChangeLaw.expandNode`) and behind a whole run (`ChangeLaw.expand`).
A law tells steps that fail from those that do not, since only the former
record errors.

Two laws follow: what a document is about and its call stack stay
(`SameFrame`), and a step that gives something records no error. A new
document is entered plain text in the same ways (`new_induction`).
-/
import Markup.Proofs.ExpandSteps

namespace Markup.Document

/-- A law on changes: what holds between a document and the one behind a step, `gives` if the step
gives something and `fails` if it fails. -/
structure ChangeLaw (gives fails : Document → Document → Prop) : Prop where
  refl (doc : Document) : gives doc doc
  trans {doc next last : Document} : gives doc next → gives next last → gives doc last
  /-- A step may fail and change nothing. -/
  stop (doc : Document) : fails doc doc
  behind {doc next last : Document} : gives doc next → fails next last → fails doc last
  record {doc next : Document} (e : ExpandError) : fails doc next → fails doc (next.record e)
  define (doc : Document) (d : Definition) : gives doc (doc.define d)
  give (doc : Document) (name : String) (value : List Node) (span : Span) :
    gives doc { doc with bindings := doc.bindings.insert name ⟨name, some value, false, span⟩ }
  change {doc : Document} {name : String} {b : Binding} (value : List Node) : doc.bindings.get? name = some b →
    gives doc { doc with bindings := doc.bindings.insert name { b with value := some value } }
  leaveGives {doc next : Document} {name : String} : gives (doc.enter name) next → gives doc next.leave
  leaveFails {doc next : Document} {name : String} : fails (doc.enter name) next → fails doc next.leave

/-- Whether the document behind a step is as a law says. -/
def Outcome.Obeys {α : Type} (gives fails : Document → Document → Prop) (doc : Document) : Outcome α → Prop
  | (.ok _, next) => gives doc next
  | (.error _, next) => fails doc next

namespace ChangeLaw

variable {α β : Type} {gives fails : Document → Document → Prop} (law : ChangeLaw gives fails)
include law

/-- A step behind changes that are as the law says is so from the document before them. -/
theorem after {doc mid : Document} (h : gives doc mid) {x : Outcome α} (hx : x.Obeys gives fails mid) :
    x.Obeys gives fails doc := by
  obtain ⟨_ | _, _⟩ := x
  · exact law.behind h hx
  · exact law.trans h hx

theorem andThen {doc : Document} {x : Outcome α} {next : α → Document → Outcome β}
    (h : x.Obeys gives fails doc) (k : ∀ a mid, (next a mid).Obeys gives fails mid) :
    (x.andThen next).Obeys gives fails doc := by
  obtain ⟨_ | a, mid⟩ := x
  · exact h
  · exact law.after h (k a mid)

theorem thenLeave {doc : Document} {name : String} {x : Outcome α} (h : x.Obeys gives fails (doc.enter name)) :
    (x.thenIn leave).Obeys gives fails doc := by
  obtain ⟨_ | a, next⟩ := x
  · exact law.leaveFails h
  · exact law.leaveGives h

theorem ok (doc : Document) (a : α) : Outcome.Obeys gives fails doc (.ok a, doc) := law.refl doc

theorem raise (doc : Document) (cause : ExpandError.Cause) :
    (doc.raise cause : Outcome α).Obeys gives fails doc := law.record _ (law.stop doc)

/-! ## Imports -/

theorem bind (doc : Document) (name : String) (changes : Bool) (value : List Node) (span : Span) :
    (doc.bind name changes value span).Obeys gives fails doc := by
  rw [Document.bind]
  split
  next =>
    split
    next => exact law.raise doc _
    next b hb => exact law.change value hb
  next hn =>
    obtain rfl : changes = false := by simpa using hn
    exact law.give doc name value span

theorem enterAll (nodes : List Node) (doc : Document) : (doc.enterAll nodes).Obeys gives fails doc := by
  induction nodes generalizing doc with
  | nil => exact law.ok doc ()
  | cons node rest ih =>
    cases node with
    | define name params body span =>
      rw [enterAll_define]
      exact law.after (law.define doc _) (ih _)
    | bind name changes value span =>
      rw [enterAll_bind]
      exact law.andThen (law.bind doc name changes value span) fun _ mid => ih mid
    | text | number | call | use | reference | stray => exact ih doc

theorem loadModule (disk : Disk) (name : String) (builtIn : Bool) (doc : Document) :
    (doc.loadModule disk name builtIn).Obeys gives fails doc := by
  rw [Document.loadModule]
  split
  next =>
    split
    next => exact law.raise doc _
    next => exact law.ok doc _
  next =>
    unfold loadFile
    split
    next => exact law.stop doc
    next =>
    split
    next => exact law.raise doc _
    next => exact law.stop doc
    next =>
      rw [parseModule]
      split
      next => exact law.ok doc _
      next => exact law.record _ (law.record _ (law.stop doc))

theorem importModule (disk : Disk) (name : String) (builtIn : Bool) (doc : Document) :
    (doc.importModule disk name builtIn).Obeys gives fails doc := by
  rw [importModule_eq]
  exact law.andThen (law.loadModule disk name builtIn doc) fun nodes mid => law.enterAll nodes mid

/-! ## One level -/

section

variable {one : Expander} (hone : ∀ node doc, (one node doc).Obeys gives fails doc)
include hone

theorem expandAll (nodes : List Node) (doc : Document) : (expandAll one nodes doc).Obeys gives fails doc := by
  induction nodes generalizing doc with
  | nil => exact law.ok doc ""
  | cons node rest ih =>
    rw [expandAll_cons]
    exact law.andThen (hone node doc) fun text mid => law.andThen (ih mid) fun more last => law.ok last _

theorem fill (params : List String) (groups : List Group) (text : String) (doc : Document) :
    (fill one params groups text doc).Obeys gives fails doc := by
  induction params generalizing groups text doc with
  | nil =>
    rw [fill_of_nil one (.inl rfl)]
    exact law.ok doc text
  | cons param params ih =>
    cases groups with
    | nil =>
      rw [fill_of_nil one (.inr rfl)]
      exact law.ok doc text
    | cons group groups =>
      rw [fill_cons]
      exact law.andThen (law.expandAll hone group.values doc) fun argument mid => ih groups _ mid

theorem expandCall (name : String) (groups : List Group) (doc : Document) :
    (expandCall one name groups doc).Obeys gives fails doc := by
  rw [Document.expandCall]
  split
  next d _ =>
    by_cases hl : groups.length = d.params.length
    · rw [expandMacro_of_length one hl, expandBody_eq]
      exact law.thenLeave (law.andThen (law.expandAll hone d.body (doc.enter name)) fun text mid =>
        law.fill hone d.params groups text mid)
    · rw [expandMacro, if_pos hl]
      exact law.raise doc _
  next =>
  split
  next => exact law.raise doc _
  next b _ =>
  split
  next => exact law.expandAll hone b.nodes doc
  next => exact law.raise doc _

theorem expandWith (disk : Disk) (node : Node) (doc : Document) :
    (expandWith disk one node doc).Obeys gives fails doc := by
  cases node with
  | text | number => exact law.ok doc _
  | call name groups span => exact law.expandCall hone name groups doc
  | reference name changes span => exact law.expandCall hone name [] doc
  | use moduleName builtIn span =>
    rw [Document.expandWith, silent_eq]
    exact law.andThen (law.importModule disk moduleName builtIn doc) fun _ mid => law.ok mid _
  | define name params body span => exact law.define doc ⟨name, params, body, span⟩
  | bind name changes value span =>
    rw [Document.expandWith, silent_eq]
    exact law.andThen (law.bind doc name changes value span) fun _ mid => law.ok mid _
  | stray group => exact law.raise doc _

end

/-! ## A whole run -/

/-- A law that holds of single changes holds of the expansion of a node, under any limit. -/
theorem expandNode (disk : Disk) (limit : Nat) (node : Node) (doc : Document) :
    (expandNode disk limit node doc).Obeys gives fails doc := by
  induction limit generalizing node doc with
  | zero => exact law.stop doc
  | succ limit ih => exact law.expandWith ih disk node doc

/-- It holds of a run that gives a text, and, if it goes on when the errors have been reported, of
one that does not. -/
theorem expand (drain : ∀ {doc next : Document}, fails doc next → fails doc { next with errors := [] })
    (disk : Disk) (limit : Nat) (nodes : List Node) (doc : Document) :
    match expand disk limit nodes doc with
    | (.ok _, next) => gives doc next
    | (.error _, next) => fails doc next := by
  induction nodes generalizing doc with
  | nil => exact law.refl doc
  | cons node rest ih =>
    have hnode := law.expandNode disk limit node doc
    cases hr : Document.expandNode disk limit node doc with
    | mk r mid =>
    rw [hr] at hnode
    cases r with
    | error e =>
      rw [expand_cons_of_error hr]
      cases e with
      | raised e => exact drain hnode
      | tooDeep => exact drain (law.record _ hnode)
      | disk e => exact hnode
    | ok text =>
      have hrest := ih mid
      rw [expand_cons_of_ok hr]
      generalize Document.expand disk limit rest mid = x at hrest
      obtain ⟨_ | more, last⟩ := x
      · exact law.behind hnode hrest
      · exact law.trans hnode hrest

end ChangeLaw

section

variable {holds : Document → Document → Prop}

/-- A law that does not tell failures apart holds of the document behind any step. -/
theorem Outcome.Obeys.same {α : Type} {doc : Document} {x : Outcome α} (h : x.Obeys holds holds doc) :
    holds doc x.2 := by
  obtain ⟨_ | _, _⟩ := x <;> exact h

theorem ChangeLaw.expand_same (law : ChangeLaw holds holds)
    (drain : ∀ {doc next : Document}, holds doc next → holds doc { next with errors := [] })
    (disk : Disk) (limit : Nat) (nodes : List Node) (doc : Document) :
    holds doc (Document.expand disk limit nodes doc).2 := by
  have h := law.expand drain disk limit nodes doc
  revert h
  generalize Document.expand disk limit nodes doc = x
  rcases x with ⟨_ | _, next⟩ <;> exact id

end

/-! ## What stays -/

/-- Whether two documents are about the same file and text, with the same macros being expanded. -/
structure SameFrame (doc next : Document) : Prop where
  directory : next.directory = doc.directory
  fileName : next.fileName = doc.fileName
  source : next.source = doc.source
  modulePaths : next.modulePaths = doc.modulePaths
  callStack : next.callStack = doc.callStack

theorem SameFrame.refl (doc : Document) : doc.SameFrame doc := ⟨rfl, rfl, rfl, rfl, rfl⟩

theorem SameFrame.trans {doc next last : Document} (h : doc.SameFrame next) (k : next.SameFrame last) :
    doc.SameFrame last :=
  ⟨k.directory.trans h.directory, k.fileName.trans h.fileName, k.source.trans h.source,
    k.modulePaths.trans h.modulePaths, k.callStack.trans h.callStack⟩

theorem SameFrame.leave {doc next : Document} {name : String} (h : (doc.enter name).SameFrame next) :
    doc.SameFrame next.leave where
  directory := h.directory
  fileName := h.fileName
  source := h.source
  modulePaths := h.modulePaths
  callStack := (congrArg List.dropLast h.callStack).trans List.dropLast_concat

theorem changeLaw_sameFrame : ChangeLaw SameFrame SameFrame where
  refl := .refl
  trans := .trans
  stop := .refl
  behind := .trans
  record _ h := ⟨h.directory, h.fileName, h.source, h.modulePaths, h.callStack⟩
  define _ _ := ⟨rfl, rfl, rfl, rfl, rfl⟩
  give _ _ _ _ := ⟨rfl, rfl, rfl, rfl, rfl⟩
  change _ _ := ⟨rfl, rfl, rfl, rfl, rfl⟩
  leaveGives := .leave
  leaveFails := .leave

/-- However a node's expansion ends, what the document is about and its call stack are as before. -/
theorem sameFrame_expandNode (disk : Disk) (limit : Nat) (node : Node) (doc : Document) :
    doc.SameFrame (expandNode disk limit node doc).2 :=
  (changeLaw_sameFrame.expandNode disk limit node doc).same

theorem sameFrame_expand (disk : Disk) (limit : Nat) (nodes : List Node) (doc : Document) :
    doc.SameFrame (expand disk limit nodes doc).2 :=
  changeLaw_sameFrame.expand_same (fun h => ⟨h.directory, h.fileName, h.source, h.modulePaths, h.callStack⟩)
    disk limit nodes doc

theorem changeLaw_errors : ChangeLaw (fun doc next => next.errors = doc.errors) (fun _ _ => True) where
  refl _ := rfl
  trans h k := k.trans h
  stop _ := trivial
  behind _ _ := trivial
  record _ _ := trivial
  define _ _ := rfl
  give _ _ _ _ := rfl
  change _ _ := rfl
  leaveGives h := h
  leaveFails _ := trivial

/-! ## New documents -/

/-- Whether a document is about a file and a text, and no error has been recorded in it. -/
structure IsFresh (doc : Document) (fileName source : String) (modulePaths : List Path) : Prop where
  directory : doc.directory = (Path.ofText fileName).parent
  source : doc.source = source
  modulePaths : doc.modulePaths = modulePaths
  errors : doc.errors = []

section

variable (fileName source : String) (presets : List (String × String)) (modulePaths : List Path) (now : BuiltIn.Moment)

/-- What is so of a document with empty tables, and stays so as plain text is entered, is so of a new one. -/
theorem new_induction {p : Document → Prop}
    (start : p ⟨(Path.ofText fileName).parent, (Path.ofText fileName).name, source, .empty, .empty, [], modulePaths, []⟩)
    (define : ∀ doc name body, p doc → p (doc.defineText name body))
    (give : ∀ doc name value, p doc → p (doc.letText name value)) :
    p (new fileName source presets modulePaths now) := by
  refine List.foldlRecOn presets _ ?_ fun doc h entry _ => give doc entry.1 entry.2 h
  exact List.foldlRecOn (BuiltIn.bodies now) _ start fun doc h entry _ => define doc entry.1 entry.2 h

theorem isFresh_new : (new fileName source presets modulePaths now).IsFresh fileName source modulePaths := by
  let isFresh (doc : Document) := doc.IsFresh fileName source modulePaths
  refine new_induction (p := isFresh) _ _ _ _ _ ⟨rfl, rfl, rfl, rfl⟩ ?_ ?_
  · exact fun _ _ _ h => ⟨h.directory, h.source, h.modulePaths, h.errors⟩
  · exact fun _ _ _ h => ⟨h.directory, h.source, h.modulePaths, h.errors⟩

end

end Markup.Document
