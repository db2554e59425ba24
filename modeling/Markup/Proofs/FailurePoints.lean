/-
Where expansion fails.

What is done under way to a node's text is a task: a node, the document it is
expanded in, and the limit left. A task starts others, on the nodes of a
macro's body, of its arguments and of a variable's value, one after another as
long as they succeed (`Task.Starts`); a call of a macro puts its name around
what it starts. A task fails exactly if it leads to one that fails by itself
(`Task.run_error_iff`), for one of the reasons that `Raises` lists, and it
records what that one records.

So an error that is raised names the macros around the place where it arises,
outermost first, behind those that were being expanded before; and a run fails
exactly at a node that it comes to and that fails (`expand_failed_iff`).
-/
import Markup.Proofs.DocumentChanges

namespace Markup

/-- The name that a node calls, with the groups of arguments; a reference calls without any. -/
def Node.call? : Node → Option (String × List Group)
  | .call name groups _ => some (name, groups)
  | .reference name _ _ => some (name, [])
  | .text .. | .number .. | .use .. | .define .. | .bind .. | .stray _ => none

/-- The error in the text of a module's file. -/
def Node.TextError.inModule (e : Node.TextError) (path : Path) (text : String) : ExpandError :=
  ⟨e.cause, some e.span, text, [], some path.text⟩

namespace Document

/-! ## One after another -/

/-- Whether going through a list from a document comes to one of it in another document: all before
it have been expanded by then. -/
inductive ComesTo {α : Type} (step : α → Document → Outcome String) : List α → Document → α → Document → Prop where
  | here (a : α) (rest : List α) (doc : Document) : ComesTo step (a :: rest) doc a doc
  | later {a b : α} {rest : List α} {text : String} {doc mid last : Document} :
      step a doc = (.ok text, mid) → ComesTo step rest mid b last → ComesTo step (a :: rest) doc b last

theorem ComesTo.mem {α : Type} {step : α → Document → Outcome String} {as : List α} {a : α} {doc mid : Document}
    (h : ComesTo step as doc a mid) : a ∈ as := by
  induction h with
  | here => exact List.mem_cons_self
  | later _ _ ih => exact List.mem_cons_of_mem _ ih

theorem Outcome.andThen_error_iff {α β : Type} {x : Outcome α} {next : α → Document → Outcome β} {e : Failure}
    {last : Document} : x.andThen next = (.error e, last) ↔
      x = (.error e, last) ∨ ∃ a mid, x = (.ok a, mid) ∧ next a mid = (.error e, last) := by
  obtain ⟨_ | a, mid⟩ := x
  · simp
  · rw [andThen_ok]
    constructor
    · exact fun h => .inr ⟨a, mid, rfl, h⟩
    · rintro (h | ⟨_, _, h, hn⟩)
      · cases h
      · cases h
        exact hn

theorem exists_comesTo_cons_iff {α : Type} {step : α → Document → Outcome String} {a : α} {rest : List α}
    {doc next : Document} {e : Failure} :
    (∃ b mid, ComesTo step (a :: rest) doc b mid ∧ step b mid = (.error e, next)) ↔
      step a doc = (.error e, next) ∨ ∃ text mid, step a doc = (.ok text, mid) ∧
        ∃ b place, ComesTo step rest mid b place ∧ step b place = (.error e, next) := by
  constructor
  · rintro ⟨b, place, hc, he⟩
    cases hc with
    | here => exact .inl he
    | later hr hc => exact .inr ⟨_, _, hr, b, place, hc, he⟩
  · rintro (he | ⟨text, mid, hr, b, place, hc, he⟩)
    · exact ⟨a, doc, .here _ _ _, he⟩
    · exact ⟨b, place, .later hr hc, he⟩

variable {one : Expander}

/-- Nodes fail exactly if one of them fails that they come to. -/
theorem expandAll_error_iff {nodes : List Node} {doc next : Document} {e : Failure} :
    expandAll one nodes doc = (.error e, next) ↔
      ∃ node mid, ComesTo one nodes doc node mid ∧ one node mid = (.error e, next) := by
  induction nodes generalizing doc with
  | nil => exact ⟨nofun, nofun⟩
  | cons node rest ih =>
    rw [expandAll_cons, Outcome.andThen_error_iff, exists_comesTo_cons_iff]
    refine or_congr_right (exists_congr fun text => exists_congr fun mid => and_congr_right fun _ => ?_)
    rw [← ih, Outcome.andThen_error_iff]
    simp

theorem fill_error_iff {params : List String} {groups : List Group} (hl : groups.length = params.length)
    {text : String} {doc next : Document} {e : Failure} :
    fill one params groups text doc = (.error e, next) ↔
      ∃ group mid, ComesTo (fun group => expandAll one group.values) groups doc group mid ∧
        expandAll one group.values mid = (.error e, next) := by
  induction groups generalizing params text doc with
  | nil =>
    rw [fill_of_nil one (.inr rfl)]
    exact ⟨nofun, nofun⟩
  | cons group groups ih =>
    cases params with
    | nil => cases hl
    | cons param params =>
    rw [fill_cons, Outcome.andThen_error_iff, exists_comesTo_cons_iff]
    exact or_congr_right (exists_congr fun text => exists_congr fun mid => and_congr_right fun _ =>
      ih (Nat.succ.inj hl))

/-! ## Failing by itself -/

/-- Why a node raises an error by itself, with the errors that are recorded before its own: a call of
what is not defined, of a variable with arguments or of a macro with too few or too many, the change
of a variable without a value, also in a module, an import, and a group outside a call. -/
inductive Raises (disk : Disk) (doc : Document) : Node → List ExpandError → ExpandError.Cause → Prop where
  | unknownName {node name groups} : node.call? = some (name, groups) → doc.definitions.get? name = none →
      doc.bindings.get? name = none → Raises disk doc node [] (.unknownName name)
  | argumentsForVariable {node name groups b} : node.call? = some (name, groups) →
      doc.definitions.get? name = none → doc.bindings.get? name = some b → groups ≠ [] →
      Raises disk doc node [] (.argumentsForVariable name)
  | argumentCount {node name groups d} : node.call? = some (name, groups) →
      doc.definitions.get? name = some d → groups.length ≠ d.params.length →
      Raises disk doc node [] (.argumentCount name d.params groups.length)
  | neverGiven {name value span} : doc.bindings.get? name = none →
      Raises disk doc (.bind name true value span) [] (.neverGiven name)
  | neverGivenInModule {moduleName builtIn around nodes name next} :
      doc.loadModule disk moduleName builtIn = (.ok nodes, doc) →
      doc.enterAll nodes = (.error (.raised (doc.errorOf (.neverGiven name))), next) →
      Raises disk doc (.use moduleName builtIn around) [] (.neverGiven name)
  | unknownBuiltIn {name span} : BuiltIn.moduleNodes? name = none →
      Raises disk doc (.use name true span) [] (.unknownBuiltIn name)
  | unreadableModule {name span path fault place} : doc.moduleFile disk name = .ok path →
      disk.readText path = .error (.refused fault place) →
      Raises disk doc (.use name false span) [] (.unreadableModule name doc.directory)
  | brokenModule {name span path text e} : doc.moduleFile disk name = .ok path →
      disk.readText path = .ok text → Node.ofText text = .error e →
      Raises disk doc (.use name false span) [e.inModule path text] (.brokenModule name)
  | strayGroup {group} : Raises disk doc (.stray group) [] .strayGroup

/-- A node that is to be expanded, the document it is expanded in, and the limit on nesting left. -/
structure Task where
  limit : Nat
  node : Node
  doc : Document

namespace Task

/-- What a task gives. -/
def run (disk : Disk) (t : Task) : Outcome String := expandNode disk t.limit t.node t.doc

/-- How a task fails by itself, with the errors that are recorded: at the limit, at a file that the
disk does not give as a text, or for a reason of its own. -/
inductive Fails (disk : Disk) : Task → Failure → List ExpandError → Prop where
  | tooDeep (node : Node) (doc : Document) : Fails disk ⟨0, node, doc⟩ .tooDeep []
  | disk {limit name span doc e} : doc.loadFile disk name = (.error (.disk e), doc) →
      Fails disk ⟨limit + 1, .use name false span, doc⟩ (.disk e) []
  | raised {limit node doc before cause} : Raises disk doc node before cause →
      Fails disk ⟨limit + 1, node, doc⟩ (.raised (doc.errorOf cause)) (before ++ [doc.errorOf cause])

/-- Whether a task starts another, inside of calls of macros with the given names: on a node of the
macro's body, of an argument, or of a variable's value. -/
inductive Starts (disk : Disk) : Task → List String → Task → Prop where
  | body {limit node doc name groups d inner mid} : node.call? = some (name, groups) →
      doc.definitions.get? name = some d → groups.length = d.params.length →
      ComesTo (expandNode disk limit) d.body (doc.enter name) inner mid →
      Starts disk ⟨limit + 1, node, doc⟩ [name] ⟨limit, inner, mid⟩
  | argument {limit node doc name groups d text behind group before inner mid} :
      node.call? = some (name, groups) → doc.definitions.get? name = some d →
      groups.length = d.params.length →
      expandAll (expandNode disk limit) d.body (doc.enter name) = (.ok text, behind) →
      ComesTo (fun group => expandAll (expandNode disk limit) group.values) groups behind group before →
      ComesTo (expandNode disk limit) group.values before inner mid →
      Starts disk ⟨limit + 1, node, doc⟩ [name] ⟨limit, inner, mid⟩
  | value {limit node doc name b inner mid} : node.call? = some (name, []) →
      doc.definitions.get? name = none → doc.bindings.get? name = some b →
      ComesTo (expandNode disk limit) b.nodes doc inner mid →
      Starts disk ⟨limit + 1, node, doc⟩ [] ⟨limit, inner, mid⟩

/-- Whether a task leads to another, inside of calls of macros with the given names, outermost first. -/
inductive Leads (disk : Disk) : Task → List String → Task → Prop where
  | here (t : Task) : Leads disk t [] t
  | inside {t u v : Task} {names more : List String} : t.Starts disk names u → u.Leads disk more v →
      Leads disk t (names ++ more) v

end Task

/-! ## One level -/

theorem expandNode_of_call? {node : Node} {name : String} {groups : List Group}
    (h : node.call? = some (name, groups)) (disk : Disk) (limit : Nat) (doc : Document) :
    expandNode disk (limit + 1) node doc = expandCall (expandNode disk limit) name groups doc := by
  cases node with
  | call | reference => cases h; rfl
  | text | number | use | define | bind | stray => cases h

section

variable {disk : Disk} {limit : Nat} {name : String} {groups : List Group} {doc next : Document}

/-- A call of a macro fails in its body or in an argument, and takes its name off the call stack. -/
theorem expandMacro_error_iff {d : Definition} (hl : groups.length = d.params.length) {e : Failure} :
    expandMacro one name d groups doc = (.error e, next) ↔ ∃ last, next = last.leave ∧
      ((∃ node mid, ComesTo one d.body (doc.enter name) node mid ∧ one node mid = (.error e, last)) ∨
        ∃ text behind group before node mid, expandAll one d.body (doc.enter name) = (.ok text, behind) ∧
          ComesTo (fun group => expandAll one group.values) groups behind group before ∧
          ComesTo one group.values before node mid ∧ one node mid = (.error e, last)) := by
  have hleave : ∀ x : Outcome String, x.thenIn leave = (.error e, next) ↔
      ∃ last, next = last.leave ∧ x = (.error e, last) := by
    rintro ⟨r, last⟩
    simp only [Outcome.thenIn_mk, Prod.mk.injEq]
    constructor
    · rintro ⟨rfl, rfl⟩
      exact ⟨last, rfl, rfl, rfl⟩
    · rintro ⟨_, rfl, rfl, rfl⟩
      exact ⟨rfl, rfl⟩
  rw [expandMacro_of_length one hl, hleave]
  refine exists_congr fun last => and_congr_right fun _ => ?_
  rw [expandBody_eq, Outcome.andThen_error_iff, expandAll_error_iff]
  refine or_congr_right (exists_congr fun text => exists_congr fun behind => ?_)
  rw [fill_error_iff hl]
  simp only [expandAll_error_iff]
  constructor
  · rintro ⟨hb, group, before, hg, node, mid, hn, he⟩
    exact ⟨group, before, node, mid, hb, hg, hn, he⟩
  · rintro ⟨group, before, node, mid, hb, hg, hn, he⟩
    exact ⟨hb, group, before, hg, node, mid, hn, he⟩

theorem expandCall_error_cases {node : Node} (hn : node.call? = some (name, groups)) {e : Failure}
    (h : expandCall (expandNode disk limit) name groups doc = (.error e, next)) :
    (∃ new, Task.Fails disk ⟨limit + 1, node, doc⟩ e new ∧ next.errors = doc.errors ++ new) ∨
      ∃ names u last, Task.Starts disk ⟨limit + 1, node, doc⟩ names u ∧ u.run disk = (.error e, last) ∧
        next.errors = last.errors := by
  rw [expandCall] at h
  split at h
  next d hd =>
    by_cases hl : groups.length = d.params.length
    · obtain ⟨last, rfl, ⟨inner, mid, hc, he⟩ | ⟨text, behind, group, before, inner, mid, hb, hg, hc, he⟩⟩ :=
        (expandMacro_error_iff hl).1 h
      · exact .inr ⟨_, _, last, .body hn hd hl hc, he, rfl⟩
      · exact .inr ⟨_, _, last, .argument hn hd hl hb hg hc, he, rfl⟩
    · rw [expandMacro, if_pos hl] at h
      cases h
      exact .inl ⟨_, .raised (.argumentCount hn hd hl), rfl⟩
  next hd =>
  split at h
  next hb =>
    cases h
    exact .inl ⟨_, .raised (.unknownName hn hd hb), rfl⟩
  next b hb =>
  split at h
  next hg =>
    obtain rfl := List.isEmpty_iff.1 hg
    obtain ⟨inner, mid, hc, he⟩ := expandAll_error_iff.1 h
    exact .inr ⟨_, _, next, .value hn hd hb hc, he, rfl⟩
  next hg =>
    cases h
    exact .inl ⟨_, .raised (.argumentsForVariable hn hd hb (by simpa using hg)), rfl⟩

/-- The nodes of a module fail only where one of them changes a variable without a value. -/
theorem enterAll_error {nodes : List Node} {e : Failure} (h : doc.enterAll nodes = (.error e, next)) :
    ∃ name, e = .raised (doc.errorOf (.neverGiven name)) ∧
      next.errors = doc.errors ++ [doc.errorOf (.neverGiven name)] := by
  induction nodes generalizing doc with
  | nil => cases h
  | cons node rest ih =>
    cases node with
    | define name params body span =>
      rw [enterAll_define] at h
      have hrest := ih h
      exact hrest
    | bind name changes value span =>
      rw [enterAll_bind, Outcome.andThen_error_iff, Document.bind] at h
      split at h
      next =>
        split at h
        next =>
          rcases h with h | ⟨_, _, h, _⟩ <;> cases h
          exact ⟨name, rfl, rfl⟩
        next =>
          rcases h with h | ⟨_, _, h, hrest⟩ <;> cases h
          have hrest := ih hrest
          exact hrest
      next =>
        rcases h with h | ⟨_, _, h, hrest⟩ <;> cases h
        have hrest := ih hrest
        exact hrest
    | text | number | call | use | reference | stray => exact ih h

theorem loadModule_ok_cases {moduleName : String} {builtIn : Bool} {nodes : List Node}
    (h : doc.loadModule disk moduleName builtIn = (.ok nodes, next)) :
    next = doc ∧ (BuiltIn.moduleNodes? moduleName = some nodes ∨
      ∃ path text, disk.readText path = .ok text ∧ Node.ofText text = .ok nodes) := by
  rw [loadModule] at h
  split at h
  next =>
    split at h
    next => cases h
    next hm =>
      cases h
      exact ⟨rfl, .inl hm⟩
  next =>
  rw [loadFile] at h
  split at h
  next => cases h
  next path _ =>
  split at h
  next => cases h
  next => cases h
  next text hr =>
  rw [parseModule] at h
  split at h
  next hn =>
    cases h
    exact ⟨rfl, .inr ⟨path, text, hr, hn⟩⟩
  next => cases h

theorem loadModule_ok {moduleName : String} {builtIn : Bool} {nodes : List Node}
    (h : doc.loadModule disk moduleName builtIn = (.ok nodes, next)) : next = doc := (loadModule_ok_cases h).1

theorem loadModule_error_cases {moduleName : String} {builtIn : Bool} {e : Failure} (span : Span)
    (h : doc.loadModule disk moduleName builtIn = (.error e, next)) :
    ∃ new, Task.Fails disk ⟨limit + 1, .use moduleName builtIn span, doc⟩ e new ∧
      next.errors = doc.errors ++ new := by
  cases builtIn with
  | true =>
    rw [loadModule, if_pos rfl] at h
    split at h
    next hm =>
      cases h
      exact ⟨_, .raised (.unknownBuiltIn hm), rfl⟩
    next => cases h
  | false =>
    have h : doc.loadFile disk moduleName = (.error e, next) := h
    have hload := h
    unfold loadFile at h
    split at h
    next f hf =>
      cases h
      exact ⟨_, .disk hload, (List.append_nil _).symm⟩
    next path hf =>
    split at h
    next fault place hr =>
      cases h
      exact ⟨_, .raised (.unreadableModule hf hr), rfl⟩
    next f _ hr =>
      cases h
      exact ⟨_, .disk hload, (List.append_nil _).symm⟩
    next text hr =>
      rw [parseModule] at h
      split at h
      next => cases h
      next f ht =>
        cases h
        exact ⟨_, .raised (.brokenModule hf hr ht), List.append_assoc _ _ _⟩

theorem importModule_error_cases {moduleName : String} {builtIn : Bool} {e : Failure} (span : Span)
    (h : doc.importModule disk moduleName builtIn = (.error e, next)) :
    ∃ new, Task.Fails disk ⟨limit + 1, .use moduleName builtIn span, doc⟩ e new ∧
      next.errors = doc.errors ++ new := by
  rw [importModule_eq, Outcome.andThen_error_iff] at h
  rcases h with h | ⟨nodes, mid, hload, h⟩
  · exact loadModule_error_cases span h
  · obtain rfl := loadModule_ok hload
    obtain ⟨name, rfl, hnext⟩ := enterAll_error h
    exact ⟨_, .raised (.neverGivenInModule hload h), hnext⟩

/-- An expansion that fails at the top of a task fails there by itself, or at a task that is started. -/
theorem expandNode_error_cases {node : Node} {e : Failure}
    (h : expandNode disk (limit + 1) node doc = (.error e, next)) :
    (∃ new, Task.Fails disk ⟨limit + 1, node, doc⟩ e new ∧ next.errors = doc.errors ++ new) ∨
      ∃ names u last, Task.Starts disk ⟨limit + 1, node, doc⟩ names u ∧ u.run disk = (.error e, last) ∧
        next.errors = last.errors := by
  cases node with
  | text | number | define => cases h
  | call name groups span => exact expandCall_error_cases rfl h
  | reference name changes span => exact expandCall_error_cases rfl h
  | use moduleName builtIn span =>
    rw [expandNode, expandWith, silent_eq, Outcome.andThen_error_iff] at h
    rcases h with h | ⟨_, _, _, h⟩
    · exact .inl (importModule_error_cases span h)
    · cases h
  | bind name changes value span =>
    rw [expandNode, expandWith, silent_eq, Document.bind] at h
    split at h
    next hc =>
      split at h
      next hb =>
        subst hc
        cases h
        exact .inl ⟨_, .raised (.neverGiven hb), rfl⟩
      next => cases h
    next => cases h
  | stray group =>
    cases h
    exact .inl ⟨_, .raised .strayGroup, rfl⟩

end

/-! ## What a task does to its document -/

/-- A law on changes holds up to what a list comes to. -/
theorem ChangeLaw.comesTo {gives fails : Document → Document → Prop} (law : ChangeLaw gives fails) {α : Type}
    {step : α → Document → Outcome String} (hstep : ∀ a doc, (step a doc).Obeys gives fails doc)
    {as : List α} {a : α} {doc mid : Document} (h : ComesTo step as doc a mid) : gives doc mid := by
  induction h with
  | here a rest doc => exact law.refl doc
  | @later a b rest text doc mid last hr _ ih =>
    have hgives := hstep a doc
    rw [hr] at hgives
    exact law.trans hgives ih

/-- The document inside of calls of macros with the given names. -/
def within (names : List String) (doc : Document) : Document := { doc with callStack := doc.callStack ++ names }

theorem within_nil (doc : Document) : doc.within [] = doc := by rw [within, List.append_nil]

namespace Task

variable {disk : Disk} {t u : Task} {names : List String}

/-- A law on changes holds from inside of a task's call up to the document of a task that it starts. -/
theorem Starts.gives {gives fails : Document → Document → Prop} (h : t.Starts disk names u)
    (law : ChangeLaw gives fails) : gives (t.doc.within names) u.doc := by
  have hone : ∀ limit node doc, (expandNode disk limit node doc).Obeys gives fails doc := law.expandNode disk
  cases h with
  | body hn hd hl hc => exact law.comesTo (hone _) hc
  | @argument limit node doc name groups d text behind group before inner mid hn hd hl hb hg hc =>
    have hbody : Outcome.Obeys gives fails (doc.enter name) (.ok text, behind) := hb ▸ law.expandAll (hone limit) _ _
    have hgroups : gives behind before := law.comesTo (fun group => law.expandAll (hone limit) (Group.values group)) hg
    exact law.trans hbody (law.trans hgroups (law.comesTo (hone limit) hc))
  | value hn hd hb hc =>
    rw [within_nil]
    exact law.comesTo (hone _) hc

/-- The call stack inside of tasks has the names of the calls around them, and no error has been
recorded on the way. -/
theorem Leads.callStack_errors (h : t.Leads disk names u) :
    u.doc.callStack = t.doc.callStack ++ names ∧ u.doc.errors = t.doc.errors := by
  induction h with
  | here t => exact ⟨(List.append_nil _).symm, rfl⟩
  | inside hs _ ih =>
    have hframe := hs.gives changeLaw_sameFrame
    have herrors := hs.gives changeLaw_errors
    refine ⟨?_, ih.2.trans herrors⟩
    rw [ih.1, hframe.callStack, within, List.append_assoc]

theorem Leads.places (h : t.Leads disk names u) :
    u.doc.directory = t.doc.directory ∧ u.doc.modulePaths = t.doc.modulePaths := by
  induction h with
  | here t => exact ⟨rfl, rfl⟩
  | inside hs _ ih =>
    have hframe := hs.gives changeLaw_sameFrame
    exact ⟨ih.1.trans hframe.directory, ih.2.trans hframe.modulePaths⟩

/-! ## Where a task fails -/

/-- What fails by itself raises its error, and records it behind those that come with it. -/
theorem Fails.run {e : Failure} {new : List ExpandError} (h : t.Fails disk e new) :
    ∃ next, t.run disk = (.error e, next) ∧ next.errors = t.doc.errors ++ new := by
  cases h with
  | tooDeep node doc => exact ⟨doc, rfl, (List.append_nil _).symm⟩
  | @disk limit name span doc e hl =>
    refine ⟨doc, ?_, (List.append_nil _).symm⟩
    have hl : doc.loadModule disk name false = (.error (.disk e), doc) := hl
    simp only [Task.run, expandNode, expandWith, importModule, hl, silent]
  | @raised limit node doc before cause hr =>
    simp only [Task.run]
    cases hr with
    | unknownName hn hd hb =>
      rw [expandNode_of_call? hn, expandCall]
      simp only [hd, hb]
      exact ⟨_, rfl, rfl⟩
    | argumentsForVariable hn hd hb hg =>
      rw [expandNode_of_call? hn, expandCall]
      simp only [hd, hb]
      rw [if_neg (by simpa using hg)]
      exact ⟨_, rfl, rfl⟩
    | argumentCount hn hd hl =>
      rw [expandNode_of_call? hn, expandCall]
      simp only [hd]
      rw [expandMacro, if_pos hl]
      exact ⟨_, rfl, rfl⟩
    | neverGiven hb =>
      simp only [expandNode, expandWith, bind, if_true, hb]
      exact ⟨_, rfl, rfl⟩
    | neverGivenInModule hl he =>
      obtain ⟨other, ho, hnext⟩ := enterAll_error he
      simp only [expandNode, expandWith, importModule, hl, he, silent]
      rw [Failure.raised.injEq] at ho
      exact ⟨_, rfl, by rw [hnext, ho, List.nil_append]⟩
    | unknownBuiltIn hm =>
      simp only [expandNode, expandWith, importModule, loadModule, if_true, hm]
      exact ⟨_, rfl, rfl⟩
    | unreadableModule hf hr =>
      simp only [expandNode, expandWith, importModule, loadModule, loadFile, Bool.false_eq_true, if_false, hf, hr]
      exact ⟨_, rfl, rfl⟩
    | brokenModule hf hr ht =>
      simp only [expandNode, expandWith, importModule, loadModule, loadFile, parseModule, Bool.false_eq_true,
        if_false, hf, hr, ht]
      exact ⟨_, rfl, List.append_assoc _ _ _⟩
    | strayGroup => exact ⟨_, rfl, rfl⟩

/-- A task fails if one that it starts does, and has recorded what that one has. -/
theorem Starts.run {e : Failure} {last : Document} (h : t.Starts disk names u)
    (hu : u.run disk = (.error e, last)) :
    ∃ next, t.run disk = (.error e, next) ∧ next.errors = last.errors := by
  simp only [Task.run] at hu ⊢
  cases h with
  | body hn hd hl hc =>
    rw [expandNode_of_call? hn, expandCall]
    simp only [hd]
    exact ⟨last.leave, (expandMacro_error_iff hl).2 ⟨last, rfl, .inl ⟨_, _, hc, hu⟩⟩, rfl⟩
  | argument hn hd hl hb hg hc =>
    rw [expandNode_of_call? hn, expandCall]
    simp only [hd]
    exact ⟨last.leave, (expandMacro_error_iff hl).2 ⟨last, rfl, .inr ⟨_, _, _, _, _, _, hb, hg, hc, hu⟩⟩, rfl⟩
  | value hn hd hb hc =>
    rw [expandNode_of_call? hn, expandCall]
    simp only [hd, hb]
    exact ⟨last, expandAll_error_iff.2 ⟨_, _, hc, hu⟩, rfl⟩

theorem Leads.run {e : Failure} {new : List ExpandError} (h : t.Leads disk names u) (hu : u.Fails disk e new) :
    ∃ next, t.run disk = (.error e, next) ∧ next.errors = t.doc.errors ++ new := by
  induction h with
  | here t => exact hu.run
  | inside hs hl ih =>
    obtain ⟨last, hr, hlast⟩ := ih hu
    obtain ⟨next, hrun, hnext⟩ := hs.run hr
    refine ⟨next, hrun, ?_⟩
    have herrors := hs.gives changeLaw_errors
    rw [hnext, hlast, herrors]
    rfl

/-- What fails leads to a task that fails by itself, and has recorded what that one has. -/
theorem exists_leads_of_run {e : Failure} {next : Document} (h : t.run disk = (.error e, next)) :
    ∃ names u new, t.Leads disk names u ∧ u.Fails disk e new ∧ next.errors = t.doc.errors ++ new := by
  obtain ⟨limit, node, doc⟩ := t
  induction limit generalizing node doc next with
  | zero =>
    cases h
    exact ⟨[], _, _, .here _, .tooDeep node doc, (List.append_nil _).symm⟩
  | succ limit ih =>
    rcases expandNode_error_cases h with ⟨new, hf, hnext⟩ | ⟨names, u, last, hs, hu, hnext⟩
    · exact ⟨[], _, new, .here _, hf, hnext⟩
    · obtain rfl : u.limit = limit := by cases hs <;> rfl
      obtain ⟨more, v, new, hl, hf, hlast⟩ := ih u.node u.doc hu
      have herrors := hs.gives changeLaw_errors
      exact ⟨names ++ more, v, new, .inside hs hl, hf, by rw [hnext, hlast, herrors]; rfl⟩

/-- A task fails exactly if it leads to one that fails by itself. -/
theorem run_error_iff {e : Failure} :
    (t.run disk).1 = .error e ↔ ∃ names u new, t.Leads disk names u ∧ u.Fails disk e new := by
  constructor
  · intro h
    have hrun : t.run disk = (.error e, (t.run disk).2) := by rw [← h]
    obtain ⟨names, u, new, hl, hf, -⟩ := exists_leads_of_run hrun
    exact ⟨names, u, new, hl, hf⟩
  · rintro ⟨names, u, new, hl, hf⟩
    obtain ⟨next, hr, -⟩ := hl.run hf
    rw [hr]

end Task

/-! ## A whole run -/

section

variable {disk : Disk} {limit : Nat}

/-- A run stops exactly at a node that it comes to and that fails. -/
theorem expand_error_iff {nodes : List Node} {doc next : Document} {s : Stop} :
    expand disk limit nodes doc = (.error s, next) ↔
      ∃ node mid e last, ComesTo (expandNode disk limit) nodes doc node mid ∧
        expandNode disk limit node mid = (.error e, last) ∧ last.stopAt node e = (.error s, next) := by
  induction nodes generalizing doc with
  | nil =>
    rw [expand]
    constructor
    · intro h
      cases h
    · rintro ⟨_, _, _, _, hc, _⟩
      cases hc
  | cons node rest ih =>
    cases hr : expandNode disk limit node doc with
    | mk r mid =>
    constructor
    · intro h
      cases r with
      | error e =>
        rw [expand_cons_of_error hr] at h
        exact ⟨node, doc, e, mid, .here _ _ _, hr, h⟩
      | ok text =>
        rw [expand_cons_of_ok hr] at h
        have hrest : expand disk limit rest mid = (.error s, next) := by
          cases hm : expand disk limit rest mid with
          | mk r last =>
          rw [hm] at h
          cases r with
          | error s' => exact h
          | ok more => cases h
        obtain ⟨inner, place, e, last, hc, he, hs⟩ := ih.1 hrest
        exact ⟨inner, place, e, last, .later hr hc, he, hs⟩
    · rintro ⟨inner, place, e, last, hc, he, hs⟩
      cases hc with
      | here => rw [expand_cons_of_error he, hs]
      | later hr' hc => rw [expand_cons_of_ok hr', ih.2 ⟨inner, place, e, last, hc, he, hs⟩]; rfl

theorem sameFrame_of_comesTo {nodes : List Node} {node : Node} {doc mid : Document}
    (h : ComesTo (expandNode disk limit) nodes doc node mid) : doc.SameFrame mid :=
  changeLaw_sameFrame.comesTo (changeLaw_sameFrame.expandNode disk limit) h

theorem errors_of_comesTo {nodes : List Node} {node : Node} {doc mid : Document}
    (h : ComesTo (expandNode disk limit) nodes doc node mid) : mid.errors = doc.errors :=
  changeLaw_errors.comesTo (changeLaw_errors.expandNode disk limit) h

/-- What a node's failure brings to be reported: the error that says why, not located yet, and what
is recorded with it. Nesting past the limit is told with the macros around the node alone. -/
inductive Brings (disk : Disk) (limit : Nat) (node : Node) (doc : Document) : List ExpandError → ExpandError → Prop where
  | raised {names left inner place before cause} :
      Task.Leads disk ⟨limit, node, doc⟩ names ⟨left + 1, inner, place⟩ → Raises disk place inner before cause →
      Brings disk limit node doc before ⟨cause, none, "", doc.callStack ++ names, none⟩
  | tooDeep {names inner place} : Task.Leads disk ⟨limit, node, doc⟩ names ⟨0, inner, place⟩ →
      Brings disk limit node doc [] ⟨.tooDeep, none, "", doc.callStack, none⟩

theorem errors_of_raised {node : Node} {doc last : Document} {e : ExpandError}
    (h : expandNode disk limit node doc = (.error (.raised e), last)) :
    e.span = none ∧ ∃ init, last.errors = init ++ [e] := by
  obtain ⟨_, _, new, -, hf, hlast⟩ := Task.exists_leads_of_run (t := ⟨limit, node, doc⟩) h
  cases hf with
  | raised => exact ⟨rfl, _, by rw [hlast, List.append_assoc]⟩

theorem report_of_errors {doc : Document} {init : List ExpandError} {e : ExpandError} (h : doc.errors = init ++ [e])
    (node : Node) : doc.report node =
      (.error (.failed (init ++ [e.locate node.span doc.source])), { doc with errors := [] }) := by
  rw [report, h, List.getLast?_concat, List.dropLast_concat]
  rfl

/-- A node that fails, and not for the disk, ends a run with what it brings. -/
theorem stopAt_of_brings {node : Node} {mid : Document} {before : List ExpandError} {e : ExpandError}
    (h : Brings disk limit node mid before e) : ∃ failure last, expandNode disk limit node mid = (.error failure, last) ∧
      last.stopAt node failure =
        (.error (.failed (mid.errors ++ before ++ [e.locate node.span mid.source])), { last with errors := [] }) := by
  have hframe : ∀ {r last}, expandNode disk limit node mid = (r, last) → mid.SameFrame last := by
    intro r last hr
    have h := sameFrame_expandNode disk limit node mid
    rwa [hr] at h
  cases h with
  | @raised names left inner place _ cause hl hr =>
    obtain ⟨last, hrun, hlast⟩ := hl.run (.raised hr)
    have hrun : expandNode disk limit node mid = _ := hrun
    have herror : place.errorOf cause = ⟨cause, none, "", mid.callStack ++ names, none⟩ := by
      rw [errorOf, hl.callStack_errors.1]
    rw [← List.append_assoc, herror] at hlast
    refine ⟨_, last, hrun, ?_⟩
    rw [stopAt, report_of_errors hlast, (hframe hrun).source]
  | tooDeep hl =>
    obtain ⟨last, hrun, hlast⟩ := hl.run (.tooDeep _ _)
    have hrun : expandNode disk limit node mid = _ := hrun
    refine ⟨_, last, hrun, ?_⟩
    have herrors : (last.record (last.errorOf .tooDeep)).errors =
        mid.errors ++ [] ++ [⟨.tooDeep, none, "", mid.callStack, none⟩] := by
      rw [record, errorOf, hlast, (hframe hrun).callStack]
    rw [stopAt, report_of_errors herrors]
    simp only [record, (hframe hrun).source]

/-- A run fails exactly if it comes to a node that fails, and it reports the errors that were there
before and what that node brings, the last one located at the node. -/
theorem expand_failed_iff {nodes : List Node} {doc : Document} {errors : List ExpandError} :
    (expand disk limit nodes doc).1 = .error (.failed errors) ↔
      ∃ node mid before e, ComesTo (expandNode disk limit) nodes doc node mid ∧ Brings disk limit node mid before e ∧
        errors = doc.errors ++ before ++ [e.locate node.span doc.source] := by
  constructor
  · intro h
    obtain ⟨node, mid, failure, last, hc, he, hs⟩ := expand_error_iff.1 (Prod.ext h rfl)
    have hbrings : ∃ before e, Brings disk limit node mid before e := by
      obtain ⟨names, ⟨left, inner, place⟩, new, hl, hf, -⟩ :=
        Task.exists_leads_of_run (t := ⟨limit, node, mid⟩) he
      cases hf with
      | tooDeep => exact ⟨_, _, .tooDeep hl⟩
      | raised hr => exact ⟨_, _, .raised hl hr⟩
      | disk => cases hs
    obtain ⟨before, e, hb⟩ := hbrings
    obtain ⟨failure', last', he', hs'⟩ := stopAt_of_brings hb
    rw [he, Prod.mk.injEq, Except.error.injEq] at he'
    obtain ⟨rfl, rfl⟩ := he'
    rw [hs, errors_of_comesTo hc, (sameFrame_of_comesTo hc).source] at hs'
    exact ⟨node, mid, before, e, hc, hb, by simpa using congrArg Prod.fst hs'⟩
  · rintro ⟨node, mid, before, e, hc, hb, rfl⟩
    obtain ⟨failure, last, he, hs⟩ := stopAt_of_brings hb
    rw [errors_of_comesTo hc, (sameFrame_of_comesTo hc).source] at hs
    rw [expand_error_iff.2 ⟨node, mid, failure, last, hc, he, hs⟩]

theorem exists_use_of_expand_disk {nodes : List Node} {doc : Document} {e : Disk.Error}
    (h : (expand disk limit nodes doc).1 = .error (.disk e)) :
    ∃ node mid names left name span place, ComesTo (expandNode disk limit) nodes doc node mid ∧
      Task.Leads disk ⟨limit, node, mid⟩ names ⟨left + 1, .use name false span, place⟩ ∧
      loadFile place disk name = (.error (.disk e), place) := by
  obtain ⟨node, mid, failure, last, hc, he, hs⟩ := expand_error_iff.1 (Prod.ext h rfl)
  cases failure with
  | raised | tooDeep => cases hs
  | disk f =>
    cases hs
    obtain ⟨names, u, new, hl, hf, -⟩ := Task.exists_leads_of_run (t := ⟨limit, node, mid⟩) he
    cases hf with
    | disk hload => exact ⟨node, mid, names, _, _, _, _, hc, hl, hload⟩

theorem errors_of_expand_failed {nodes : List Node} {doc : Document} {errors : List ExpandError}
    (h : (expand disk limit nodes doc).1 = .error (.failed errors)) :
    (expand disk limit nodes doc).2.errors = [] := by
  obtain ⟨node, mid, failure, last, -, -, hs⟩ := expand_error_iff.1 (Prod.ext h rfl)
  have hlast := congrArg (fun x => x.2.errors) hs
  cases failure with
  | raised | tooDeep => exact hlast.symm
  | disk => cases hs

/-! ## The macros around an error -/

/-- However the expansion of a node or a run ends, the call stack is as before. A node raises an error
exactly if expanding it leads, inside of calls of macros, to one that raises an error by itself; the
error names the macros that were being expanded before, and behind them those of these calls. The last
error of a run is one that the node it stops at raises, or says that the nesting went past the limit,
and then it names the macros that were being expanded before alone. -/
theorem callStack_unwinds (disk : Disk) (limit : Nat) (node : Node) (doc : Document) :
    (expandNode disk limit node doc).2.callStack = doc.callStack ∧
      (∀ nodes, (expand disk limit nodes doc).2.callStack = doc.callStack) ∧
      (∀ e, (expandNode disk limit node doc).1 = .error (.raised e) ↔
        ∃ names left inner place before cause, Task.Leads disk ⟨limit, node, doc⟩ names ⟨left + 1, inner, place⟩ ∧
          Raises disk place inner before cause ∧ e = ⟨cause, none, "", doc.callStack ++ names, none⟩) ∧
      ∀ nodes errors, (expand disk limit nodes doc).1 = .error (.failed errors) →
        ∃ top mid last, ComesTo (expandNode disk limit) nodes doc top mid ∧ errors.getLast? = some last ∧
          ((∃ names left inner place before, Task.Leads disk ⟨limit, top, mid⟩ names ⟨left + 1, inner, place⟩ ∧
              Raises disk place inner before last.cause ∧ last.callStack = doc.callStack ++ names) ∨
            (expandNode disk limit top mid).1 = .error .tooDeep ∧ last.cause = .tooDeep ∧
              last.callStack = doc.callStack) := by
  refine ⟨(sameFrame_expandNode disk limit node doc).callStack,
    fun nodes => (sameFrame_expand disk limit nodes doc).callStack, fun e => ?_, fun nodes errors h => ?_⟩
  · have hiff : ((⟨limit, node, doc⟩ : Task).run disk).1 = .error (.raised e) ↔ _ := Task.run_error_iff
    refine hiff.trans ⟨?_, ?_⟩
    · rintro ⟨names, u, new, hl, hf⟩
      cases hf with
      | @raised left inner place before cause hr =>
        exact ⟨names, left, inner, place, before, cause, hl, hr, by rw [errorOf, hl.callStack_errors.1]⟩
    · rintro ⟨names, left, inner, place, before, cause, hl, hr, rfl⟩
      refine ⟨names, _, before ++ [place.errorOf cause], hl, ?_⟩
      have hstack : place.callStack = doc.callStack ++ names := hl.callStack_errors.1
      rw [← hstack]
      exact .raised hr
  · obtain ⟨top, mid, before, e, hc, hb, rfl⟩ := expand_failed_iff.1 h
    have hlocate : (e.locate top.span doc.source).cause = e.cause ∧
        (e.locate top.span doc.source).callStack = e.callStack := by
      rw [ExpandError.locate]
      split <;> exact ⟨rfl, rfl⟩
    refine ⟨top, mid, _, hc, List.getLast?_concat, ?_⟩
    rw [hlocate.1, hlocate.2, ← (sameFrame_of_comesTo hc).callStack]
    cases hb with
    | raised hl hr => exact .inl ⟨_, _, _, _, _, hl, hr, rfl⟩
    | tooDeep hl => exact .inr ⟨Task.run_error_iff.2 ⟨_, _, _, hl, .tooDeep _ _⟩, rfl, rfl⟩

/-- An argument refers to a variable, which calls what is not defined: the variable is not named. -/
theorem callStack_unwinds_from_argument :
    let doc : Document := ⟨⟨.none, []⟩, "", "", ⟨[("f", ⟨"f", [], [.call "g" [⟨0, [.reference "v" false .builtIn],
      .builtIn⟩] .builtIn], .builtIn⟩), ("g", ⟨"g", ["x"], [.text "$x" .builtIn], .builtIn⟩)]⟩,
      ⟨[("v", ⟨"v", some [.call "h" [] .builtIn], false, .builtIn⟩)]⟩, [], [], ["top"]⟩
    let node : Node := .call "f" [] .builtIn
    let e : ExpandError := ⟨.unknownName "h", none, "", ["top", "f", "g"], none⟩
    (expand .empty 9 [node] doc).1 = .error (.failed [e]) ∧ (expand .empty 9 [node] doc).2.callStack = ["top"] ∧
      ∃ top mid left inner place groups, ComesTo (expandNode .empty 9) [node] doc top mid ∧
        Task.Leads .empty ⟨9, top, mid⟩ ["f", "g"] ⟨left + 1, inner, place⟩ ∧
          inner.call? = some ("h", groups) := by
  intro doc node e
  obtain ⟨-, hstack, -, hrun⟩ := callStack_unwinds .empty 9 node doc
  have hfails : (expand .empty 9 [node] doc).1 = .error (.failed [e]) := rfl
  refine ⟨hfails, hstack [node], ?_⟩
  obtain ⟨top, mid, last, hc, hlast, hwhere⟩ := hrun [node] [e] hfails
  obtain rfl : e = last := Option.some.inj hlast
  rcases hwhere with ⟨names, left, inner, place, before, hl, hr, hnames⟩ | ⟨-, hcause, -⟩
  · obtain rfl : ["f", "g"] = names := (List.cons.inj hnames).2
    cases hr with
    | unknownName hn => exact ⟨top, mid, left, inner, place, _, hc, hl, hn⟩
  · cases hcause

end

end Document

end Markup
