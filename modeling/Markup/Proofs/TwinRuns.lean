/-
Runs that go side by side.

`Twins` says what counts as the same in two runs: which texts, which lists of
nodes and which spans do, which names the runs may come across, and what else is
defined in the second one, under other names. Nodes that count as the same have the
same kind, their texts and parts count as the same again, and the names in them are
known (`Node.Twin`). Texts stay the same where they are joined and where one is put
for a placeholder in another (`TextTwins`).

Then the runs stay together (`expandNode_twin`): they give texts that count as the
same or fail for the same reason, in documents that still differ in nothing else, as
long as the trees of the modules that the first run imports (`Task.Imports`) count as
the same as themselves. A whole run reports the same errors, the last one located at
nodes that count as the same (`expand_twin`).
-/
import Markup.Proofs.FailurePoints
import Markup.Proofs.Likeness
import Markup.Proofs.Moving
import Markup.Proofs.Preorder

namespace Markup

/-! ## Tables that differ in entries under other names -/

namespace Table

variable {α β : Type} {known : String → Bool} {R : α → β → Prop} {name : String}

theorem filter_insertEntry_of_known (hk : known name = true) (value : α) (entries : List (String × α)) :
    (insertEntry name value entries).filter (fun entry => known entry.1) =
      insertEntry name value (entries.filter fun entry => known entry.1) := by
  induction entries with
  | nil => simp [insertEntry, hk]
  | cons entry rest ih =>
    obtain ⟨key, old⟩ := entry
    by_cases he : name = key
    · subst he
      simp [insertEntry, hk]
    · by_cases hkey : known key = true
      · simp [insertEntry, he, hkey, ih]
      · simp [insertEntry, he, hkey, ih]

theorem filter_insertEntry_of_other {p : String → Bool} (hp : p name = false) (value : α)
    (entries : List (String × α)) :
    (insertEntry name value entries).filter (fun entry => p entry.1) = entries.filter fun entry => p entry.1 := by
  induction entries with
  | nil => simp [insertEntry, hp]
  | cons entry rest ih =>
    obtain ⟨key, old⟩ := entry
    by_cases he : name = key
    · subst he
      simp [insertEntry, hp]
    · simp [insertEntry, he, List.filter_cons, ih]

theorem lookupEntry_filter (hk : known name = true) (entries : List (String × α)) :
    lookupEntry name (entries.filter fun entry => known entry.1) = lookupEntry name entries := by
  induction entries with
  | nil => rfl
  | cons entry rest ih =>
    obtain ⟨key, old⟩ := entry
    by_cases he : name = key
    · subst he
      simp [lookupEntry, hk]
    · by_cases hkey : known key = true
      · simp [lookupEntry, he, hkey, ih]
      · simp [lookupEntry, he, hkey, ih]

/-- Whether two entries have the same name and related values. -/
def Entry (R : α → β → Prop) (entry : String × α) (other : String × β) : Prop :=
  other.1 = entry.1 ∧ R entry.2 other.2

theorem rel_lookupEntry {entries : List (String × α)} {others : List (String × β)}
    (h : List.Forall₂ (Entry R) entries others) (name : String) :
    Option.Rel R (lookupEntry name entries) (lookupEntry name others) := by
  induction h with
  | nil => exact .none
  | @cons entry other rest more he _ ih =>
    obtain ⟨hkey, hv⟩ := he
    rw [lookupEntry, lookupEntry, hkey]
    split
    next => exact .some hv
    next => exact ih

theorem forall₂_insertEntry {entries : List (String × α)} {others : List (String × β)}
    (h : List.Forall₂ (Entry R) entries others) (name : String) {value : α} {twin : β} (hv : R value twin) :
    List.Forall₂ (Entry R) (insertEntry name value entries) (insertEntry name twin others) := by
  induction h with
  | nil => exact .cons ⟨rfl, hv⟩ .nil
  | @cons entry other rest more he hrest ih =>
    obtain ⟨key, old⟩ := entry
    obtain ⟨_, before⟩ := other
    obtain ⟨rfl, hold⟩ := he
    simp only [insertEntry]
    split
    next => exact .cons ⟨rfl, hv⟩ hrest
    next => exact .cons ⟨rfl, hold⟩ ih

/-- Whether the entries of a table under known names are those of another one, in the same order and
related, and its other entries are the given ones. -/
structure Twin (known : String → Bool) (R : α → β → Prop) (extra : List (String × β)) (t : Table α)
    (u : Table β) : Prop where
  same : List.Forall₂ (Entry R) t.entries (u.entries.filter fun entry => known entry.1)
  others : (u.entries.filter fun entry => !known entry.1) = extra

variable {extra : List (String × β)} {t : Table α} {u : Table β}

theorem twin_empty : Twin known R [] .empty .empty := ⟨.nil, rfl⟩

theorem twin_self_iff {R : α → α → Prop} {t : Table α} :
    Twin (fun _ => true) R [] t t ↔ ∀ entry ∈ t.entries, R entry.2 entry.2 := by
  constructor
  · intro h entry he
    have hsame := h.same
    rw [List.filter_true] at hsame
    exact (List.forall₂_same.1 hsame entry he).2
  · intro hr
    refine ⟨?_, by simp⟩
    rw [List.filter_true]
    exact List.forall₂_same.2 fun entry he => ⟨rfl, hr entry he⟩

theorem Twin.get? (h : Twin known R extra t u) (hk : known name = true) :
    Option.Rel R (t.get? name) (u.get? name) := by
  have hrel := rel_lookupEntry h.same name
  rwa [lookupEntry_filter hk] at hrel

theorem Twin.insert (h : Twin known R extra t u) (hk : known name = true) {value : α} {twin : β}
    (hv : R value twin) : Twin known R extra (t.insert name value) (u.insert name twin) where
  same := by
    rw [Table.insert, Table.insert, filter_insertEntry_of_known hk]
    exact forall₂_insertEntry h.same name hv
  others := by
    rw [Table.insert, filter_insertEntry_of_other (p := fun name => !known name) (by simp [hk])]
    exact h.others

end Table

/-! ## What counts as the same -/

/-- Which texts count as the same in two runs. -/
structure TextTwins where
  same : String → String → Prop
  /-- Which words may be parameters. -/
  word : String → Prop
  same_empty : same "" ""
  same_literal : ∀ number : Binary64, same number.toLiteral number.toLiteral
  same_append : ∀ {s t v w}, same s t → same v w → same (s ++ v) (t ++ w)
  same_substitute : ∀ {param s t v w}, word param → same s t → same v w →
    same (Text.substitute s param (Text.strip v)) (Text.substitute t param (Text.strip w))

/-- Texts are the same if they are equal. -/
def TextTwins.equal : TextTwins where
  same s t := t = s
  word _ := True
  same_empty := rfl
  same_literal _ := rfl
  same_append hs hv := by rw [hs, hv]
  same_substitute _ hs hv := by rw [hs, hv]

/-- Whether two nodes have the same kind, texts, spans and parts that count as the same, and known names. -/
inductive Node.Twin (texts : TextTwins) (nodes : List Node → List Node → Prop) (span : Span → Span → Prop)
    (known : String → Bool) : Node → Node → Prop where
  | text {value other place around} : texts.same value other → span place around →
      Node.Twin texts nodes span known (.text value place) (.text other around)
  | number {value place around} : span place around →
      Node.Twin texts nodes span known (.number value place) (.number value around)
  | call {name groups others place around} : known name = true →
      List.Forall₂ (fun group other : Group => nodes group.values other.values) groups others → span place around →
      Node.Twin texts nodes span known (.call name groups place) (.call name others around)
  | use {moduleName builtIn place around} : span place around →
      Node.Twin texts nodes span known (.use moduleName builtIn place) (.use moduleName builtIn around)
  | define {name params body other place around} : known name = true → (∀ param ∈ params, texts.word param) →
      nodes body other → span place around →
      Node.Twin texts nodes span known (.define name params body place) (.define name params other around)
  | bind {name changes value other place around} : known name = true → nodes value other → span place around →
      Node.Twin texts nodes span known (.bind name changes value place) (.bind name changes other around)
  | reference {name changes place around} : known name = true → span place around →
      Node.Twin texts nodes span known (.reference name changes place) (.reference name changes around)
  | stray {group other : Group} : span group.span other.span →
      Node.Twin texts nodes span known (.stray group) (.stray other)

/-- The name that a node calls, refers to, defines or gives a value. -/
def Node.name? : Node → Option String
  | .call name _ _ | .define name _ _ _ | .bind name _ _ _ | .reference name _ _ => some name
  | .text .. | .number .. | .use .. | .stray _ => none

section

variable {p : Node → Prop} {nodes : List Node → List Node → Prop} {span : Span → Span → Prop} {known : String → Bool}
  {f : Position → Position}
  (hn : ∀ {part}, (∀ node ∈ Node.preorderAll part, p node) → nodes part (part.map (Node.moved f)))
  (hs : ∀ {node}, p node → span node.span (node.span.moved f))
  (hk : ∀ {node name}, p node → node.name? = some name → known name = true)
include hn hs hk

/-- A node counts as the same where it is moved to, if the parts of such nodes do, and their spans. -/
theorem Node.twin_moved {node : Node} (h : ∀ part ∈ node.preorder, p part) :
    Node.Twin .equal nodes span known node (node.moved f) := by
  have hself : p node := h node node.mem_preorder_self
  have hplace : span node.span (node.moved f).span := node.span_moved f ▸ hs hself
  cases node with
  | text => exact .text rfl hplace
  | number => exact .number hplace
  | call name groups place =>
    rw [moved, groupMovedAll_eq_map]
    refine .call (hk hself rfl) (List.forall₂_map_right_iff.2 (List.forall₂_same.2 fun group hg => ?_)) hplace
    have hv := hn fun part hp => h part (preorderAll_values_subset hg name place hp)
    obtain ⟨index, values, _⟩ := group
    rwa [← movedAll_eq_map] at hv
  | use => exact .use hplace
  | define name params body place =>
    rw [moved, movedAll_eq_map]
    have hbody := hn fun part hp => h part (preorderAll_body_subset name params body place hp)
    exact .define (hk hself rfl) (fun _ _ => trivial) hbody hplace
  | bind name changes value place =>
    rw [moved, movedAll_eq_map]
    have hvalue := hn fun part hp => h part (preorderAll_value_subset name changes value place hp)
    exact .bind (hk hself rfl) hvalue hplace
  | reference => exact .reference (hk hself rfl) hplace
  | stray group =>
    obtain ⟨_, _, _⟩ := group
    exact .stray hplace

theorem Node.forall₂_twin_moved {ours : List Node} (h : ∀ node ∈ Node.preorderAll ours, p node) :
    List.Forall₂ (Node.Twin .equal nodes span known) ours (ours.map (Node.moved f)) := by
  refine List.forall₂_map_right_iff.2 (List.forall₂_same.2 fun node hnode => ?_)
  exact Node.twin_moved hn hs hk fun part hp => h part (Node.mem_preorderAll_iff.2 ⟨node, hnode, hp⟩)

end

/-- What counts as the same in two runs. -/
structure Twins extends TextTwins where
  /-- Which nodes do. -/
  nodes : List Node → List Node → Prop
  /-- Which spans do. -/
  span : Span → Span → Prop
  /-- Which texts that nodes were read from do. -/
  source : String → String → Prop
  /-- The names that the runs may come across. -/
  known : String → Bool
  /-- The macros under other names, which are defined in the second run alone. -/
  definitions : List (String × Definition)
  /-- The variables under other names, which are given a value in the second run alone. -/
  bindings : List (String × Binding)
  twin_of_nodes : ∀ {ours theirs}, nodes ours theirs →
    List.Forall₂ (Node.Twin toTextTwins nodes span known) ours theirs

/-- Whether two nodes count as the same. -/
abbrev Twins.node (T : Twins) : Node → Node → Prop := Node.Twin T.toTextTwins T.nodes T.span T.known

variable {T : Twins}

/-- Whether two macros count as the same. -/
structure Definition.Twin (T : Twins) (d other : Definition) : Prop where
  name : other.name = d.name
  params : other.params = d.params
  word : ∀ param ∈ d.params, T.word param
  body : T.nodes d.body other.body
  span : T.span d.span other.span

/-- Whether two variables count as the same. -/
structure Binding.Twin (T : Twins) (b other : Binding) : Prop where
  name : other.name = b.name
  isSome_value : other.value.isSome = b.value.isSome
  nodes : T.nodes b.nodes other.nodes
  changes : other.changes = b.changes
  span : T.span b.span other.span

namespace Document

/-- Whether a document differs from another in nothing but what counts as the same and in what else is
defined in it. -/
structure Twin (T : Twins) (doc other : Document) : Prop where
  directory : other.directory = doc.directory
  fileName : other.fileName = doc.fileName
  source : T.source doc.source other.source
  definitions : Table.Twin T.known (Definition.Twin T) T.definitions doc.definitions other.definitions
  bindings : Table.Twin T.known (Binding.Twin T) T.bindings doc.bindings other.bindings
  errors : other.errors = doc.errors
  modulePaths : other.modulePaths = doc.modulePaths
  callStack : other.callStack = doc.callStack

section

variable {doc other : Document} (h : doc.Twin T other)
include h

theorem Twin.define {d twin : Definition} (hk : T.known d.name = true) (hd : d.Twin T twin) :
    (doc.define d).Twin T (other.define twin) :=
  { h with
    definitions := by
      rw [Document.define, Document.define, hd.name]
      exact h.definitions.insert hk hd }

theorem Twin.insertBinding {name : String} (hk : T.known name = true) {b twin : Binding} (hb : b.Twin T twin) :
    Twin T { doc with bindings := doc.bindings.insert name b }
      { other with bindings := other.bindings.insert name twin } :=
  { h with bindings := h.bindings.insert hk hb }

theorem Twin.record (e : ExpandError) : (doc.record e).Twin T (other.record e) :=
  { h with errors := congrArg (· ++ [e]) h.errors }

theorem Twin.enter (name : String) : (doc.enter name).Twin T (other.enter name) :=
  { h with callStack := congrArg (· ++ [name]) h.callStack }

theorem Twin.leave : doc.leave.Twin T other.leave :=
  { h with callStack := congrArg List.dropLast h.callStack }

theorem Twin.errorOf_eq (cause : ExpandError.Cause) : other.errorOf cause = doc.errorOf cause := by
  rw [errorOf, errorOf, h.callStack]

theorem Twin.moduleFile_eq (disk : Disk) (name : String) : other.moduleFile disk name = doc.moduleFile disk name := by
  rw [moduleFile, moduleFile, moduleFiles, moduleFiles, h.directory, h.modulePaths]

end

/-! ## Steps -/

/-- Whether two steps give what is related, or fail for the same reason, in documents that count as the
same. -/
structure Outcome.Twin {α β : Type} (T : Twins) (R : α → β → Prop) (x : Outcome α) (y : Outcome β) : Prop where
  result : Agree (fun e f : Failure => f = e) R x.1 y.1
  document : x.2.Twin T y.2

namespace Outcome.Twin

variable {α β α' β' : Type} {R : α → β → Prop} {S : α' → β' → Prop} {doc other : Document}

theorem ok {a : α} {b : β} (hr : R a b) (h : doc.Twin T other) : Twin T R (.ok a, doc) (.ok b, other) := ⟨.ok hr, h⟩

theorem error (e : Failure) (h : doc.Twin T other) : Twin T R (.error e, doc) (.error e, other) := ⟨.error rfl, h⟩

theorem raise (h : doc.Twin T other) (cause : ExpandError.Cause) :
    Twin T R (doc.raise cause) (other.raise cause) := by
  rw [Document.raise, Document.raise, h.errorOf_eq]
  exact .error _ (h.record _)

theorem andThen {x : Outcome α} {y : Outcome β} {next : α → Document → Outcome α'}
    {follow : β → Document → Outcome β'} (h : Twin T R x y)
    (k : ∀ {a b mid last}, x = (.ok a, mid) → R a b → mid.Twin T last → Twin T S (next a mid) (follow b last)) :
    Twin T S (x.andThen next) (y.andThen follow) := by
  obtain ⟨r, doc⟩ := x
  obtain ⟨r', other⟩ := y
  have hdoc : doc.Twin T other := h.document
  cases h.result with
  | ok hr => exact k rfl hr hdoc
  | error he =>
    subst he
    exact .error _ hdoc

theorem thenLeave {x : Outcome α} {y : Outcome β} (h : Twin T R x y) :
    Twin T R (x.thenIn leave) (y.thenIn leave) :=
  ⟨h.result, h.document.leave⟩

end Outcome.Twin

section

variable {doc other : Document}

theorem bind_twin (h : doc.Twin T other) {name : String} (hk : T.known name = true) (changes : Bool)
    {value twin : List Node} (hv : T.nodes value twin) {span around : Span} (hs : T.span span around) :
    Outcome.Twin T (fun _ _ => True) (doc.bind name changes value span) (other.bind name changes twin around) := by
  rw [bind, bind]
  split
  next =>
    have hold := h.bindings.get? hk
    generalize doc.bindings.get? name = old at hold
    generalize other.bindings.get? name = before at hold
    cases hold with
    | none => exact .raise h _
    | some hb => exact .ok trivial (h.insertBinding hk ⟨hb.name, rfl, hv, hb.changes, hb.span⟩)
  next => exact .ok trivial (h.insertBinding hk ⟨rfl, rfl, hv, rfl, hs⟩)

theorem enterAll_twin {nodes others : List Node} (hn : List.Forall₂ T.node nodes others) (h : doc.Twin T other) :
    Outcome.Twin T (fun _ _ => True) (doc.enterAll nodes) (other.enterAll others) := by
  induction hn generalizing doc other with
  | nil => exact .ok trivial h
  | cons hnode _ ih =>
    cases hnode with
    | define hk hw hb hs =>
      rw [enterAll_define, enterAll_define]
      exact ih (h.define hk ⟨rfl, rfl, hw, hb, hs⟩)
    | bind hk hv hs =>
      rw [enterAll_bind, enterAll_bind]
      exact (bind_twin h hk _ hv hs).andThen fun _ _ hd => ih hd
    | text | number | call | use | reference | stray => exact ih h

end

/-! ## Imports -/

/-- Whether a task comes to import a module with the given tree. -/
def Task.Imports (disk : Disk) (t : Task) (tree : List Node) : Prop :=
  ∃ names limit moduleName builtIn span doc, t.Leads disk names ⟨limit + 1, .use moduleName builtIn span, doc⟩ ∧
    doc.loadModule disk moduleName builtIn = (.ok tree, doc)

/-- What a task that is started imports is imported. -/
theorem Task.Imports.of_starts {disk : Disk} {t u : Task} {names : List String} {tree : List Node}
    (h : u.Imports disk tree) (hs : t.Starts disk names u) : t.Imports disk tree := by
  obtain ⟨more, limit, moduleName, builtIn, span, doc, hl, hload⟩ := h
  exact ⟨_, limit, moduleName, builtIn, span, doc, .inside hs hl, hload⟩

/-- Whether a run over nodes comes to import a module with the given tree. -/
def Imports (disk : Disk) (limit : Nat) (nodes : List Node) (doc : Document) (tree : List Node) : Prop :=
  ∃ node mid, ComesTo (expandNode disk limit) nodes doc node mid ∧ Task.Imports disk ⟨limit, node, mid⟩ tree

theorem Imports.cases {disk : Disk} {limit : Nat} {nodes : List Node} {doc : Document} {tree : List Node}
    (h : Imports disk limit nodes doc tree) : (∃ name, BuiltIn.moduleNodes? name = some tree) ∨
      ∃ path text, disk.readText path = .ok text ∧ Node.ofText text = .ok tree := by
  obtain ⟨_, _, -, _, _, name, _, _, _, -, hload⟩ := h
  exact (loadModule_ok_cases hload).2.imp (⟨name, ·⟩) id

/-- Whether the trees that a task imports count as the same as themselves. -/
def Task.Admitted (T : Twins) (disk : Disk) (t : Task) : Prop := ∀ tree, t.Imports disk tree → T.nodes tree tree

theorem Task.Admitted.start {disk : Disk} {t u : Task} {names : List String} (h : t.Admitted T disk)
    (hs : t.Starts disk names u) : u.Admitted T disk := fun tree hi => h tree (hi.of_starts hs)

section

variable {doc other : Document} (h : doc.Twin T other) (disk : Disk)
include h

theorem loadModule_twin (name : String) (builtIn : Bool) :
    Outcome.Twin T (fun tree twin => twin = tree) (doc.loadModule disk name builtIn)
      (other.loadModule disk name builtIn) := by
  rw [loadModule, loadModule]
  split
  next =>
    split
    next => exact .raise h _
    next => exact .ok rfl h
  next =>
  rw [loadFile, loadFile, h.moduleFile_eq, h.directory]
  split
  next => exact .error _ h
  next path _ =>
  split
  next => exact .raise h _
  next => exact .error _ h
  next text _ =>
  rw [parseModule, parseModule]
  split
  next => exact .ok rfl h
  next => exact .raise (h.record _) _

theorem importModule_twin {limit : Nat} {name : String} {builtIn : Bool} {span : Span}
    (ha : Task.Admitted T disk ⟨limit + 1, .use name builtIn span, doc⟩) :
    Outcome.Twin T (fun _ _ => True) (doc.importModule disk name builtIn) (other.importModule disk name builtIn) := by
  rw [importModule_eq, importModule_eq]
  refine (loadModule_twin h disk name builtIn).andThen fun hload htree hmid => ?_
  obtain rfl := loadModule_ok hload
  subst htree
  exact enterAll_twin (T.twin_of_nodes (ha _ ⟨_, _, _, _, _, _, .here _, hload⟩)) hmid

end

/-! ## One level -/

section

variable {disk : Disk} {limit : Nat}
  (hone : ∀ {node twin : Node} {doc other : Document}, Task.Admitted T disk ⟨limit, node, doc⟩ →
    T.node node twin → doc.Twin T other →
    Outcome.Twin T T.same (expandNode disk limit node doc) (expandNode disk limit twin other))
include hone

theorem expandAll_twin {nodes others : List Node} (hn : List.Forall₂ T.node nodes others) {doc other : Document}
    (h : doc.Twin T other)
    (ha : ∀ node mid, ComesTo (expandNode disk limit) nodes doc node mid → Task.Admitted T disk ⟨limit, node, mid⟩) :
    Outcome.Twin T T.same (expandAll (expandNode disk limit) nodes doc)
      (expandAll (expandNode disk limit) others other) := by
  induction hn generalizing doc other with
  | nil => exact .ok T.same_empty h
  | cons hnode _ ih =>
    rw [expandAll_cons, expandAll_cons]
    refine (hone (ha _ _ (.here _ _ _)) hnode h).andThen fun hx ht hmid => ?_
    refine (ih hmid fun node mid hc => ha node mid (.later hx hc)).andThen fun _ hmore hl => ?_
    exact .ok (T.same_append ht hmore) hl

theorem fill_twin {params : List String} (hw : ∀ param ∈ params, T.word param) {groups others : List Group}
    (hg : List.Forall₂ (fun group other : Group => T.nodes group.values other.values) groups others)
    {text twin : String} (ht : T.same text twin) {doc other : Document} (h : doc.Twin T other)
    (ha : ∀ group before node mid,
      ComesTo (fun group => expandAll (expandNode disk limit) group.values) groups doc group before →
      ComesTo (expandNode disk limit) group.values before node mid → Task.Admitted T disk ⟨limit, node, mid⟩) :
    Outcome.Twin T T.same (fill (expandNode disk limit) params groups text doc)
      (fill (expandNode disk limit) params others twin other) := by
  induction params generalizing groups others text twin doc other with
  | nil =>
    rw [fill_of_nil _ (.inl rfl), fill_of_nil _ (.inl rfl)]
    exact .ok ht h
  | cons param params ih =>
    obtain ⟨hparam, hrest⟩ := List.forall_mem_cons.1 hw
    cases hg with
    | nil =>
      rw [fill_of_nil _ (.inr rfl), fill_of_nil _ (.inr rfl)]
      exact .ok ht h
    | cons hv hmore =>
      rw [fill_cons, fill_cons]
      refine (expandAll_twin hone (T.twin_of_nodes hv) h (ha _ _ · · (.here _ _ _))).andThen fun hx hargument hmid => ?_
      exact ih hrest hmore (T.same_substitute hparam ht hargument) hmid
        fun group before node mid hc => ha group before node mid (.later hx hc)

theorem expandCall_twin {node : Node} {name : String} {groups others : List Group}
    (hcall : node.call? = some (name, groups)) (hk : T.known name = true)
    (hg : List.Forall₂ (fun group other : Group => T.nodes group.values other.values) groups others)
    {doc other : Document} (h : doc.Twin T other) (ha : Task.Admitted T disk ⟨limit + 1, node, doc⟩) :
    Outcome.Twin T T.same (expandCall (expandNode disk limit) name groups doc)
      (expandCall (expandNode disk limit) name others other) := by
  rw [expandCall, expandCall]
  have hdefinition := h.definitions.get? hk
  cases hd : doc.definitions.get? name with
  | some d =>
    rw [hd] at hdefinition
    generalize other.definitions.get? name = twin at hdefinition
    cases hdefinition with
    | some htwin =>
    by_cases hl : groups.length = d.params.length
    · have hl' : others.length = d.params.length := hg.length_eq ▸ hl
      simp only
      rw [expandMacro_of_length _ hl, expandMacro_of_length _ (htwin.params ▸ hl'), expandBody_eq, expandBody_eq,
        htwin.params]
      refine Outcome.Twin.thenLeave ?_
      refine (expandAll_twin hone (T.twin_of_nodes htwin.body) (h.enter name)
        fun inner mid hc => ha.start (.body hcall hd hl hc)).andThen fun hx ht hmid => ?_
      exact fill_twin hone htwin.word hg ht hmid fun group before inner mid hgroup hc =>
        ha.start (.argument hcall hd hl hx hgroup hc)
    · simp only [expandMacro, ← hg.length_eq, htwin.params, if_pos hl]
      exact .raise h _
  | none =>
  rw [hd] at hdefinition
  generalize other.definitions.get? name = twin at hdefinition
  cases hdefinition
  have hbinding := h.bindings.get? hk
  cases hb : doc.bindings.get? name with
  | none =>
    rw [hb] at hbinding
    generalize other.bindings.get? name = twin at hbinding
    cases hbinding
    exact .raise h _
  | some b =>
    rw [hb] at hbinding
    generalize other.bindings.get? name = twin at hbinding
    cases hbinding with
    | some htwin =>
    simp only [Node.isEmpty_eq_of_forall₂ hg]
    split
    next he =>
      obtain rfl : groups = [] := List.isEmpty_iff.1 he
      exact expandAll_twin hone (T.twin_of_nodes htwin.nodes) h fun inner mid hc => ha.start (.value hcall hd hb hc)
    next => exact .raise h _

theorem expandWith_twin {node twin : Node} (hn : T.node node twin) {doc other : Document} (h : doc.Twin T other)
    (ha : Task.Admitted T disk ⟨limit + 1, node, doc⟩) :
    Outcome.Twin T T.same (expandWith disk (expandNode disk limit) node doc)
      (expandWith disk (expandNode disk limit) twin other) := by
  cases hn with
  | text ht => exact .ok ht h
  | number => exact .ok (T.same_literal _) h
  | call hk hg => exact expandCall_twin hone rfl hk hg h ha
  | use =>
    rw [expandWith, expandWith, silent_eq, silent_eq]
    exact (importModule_twin h disk ha).andThen fun _ _ hd => .ok T.same_empty hd
  | define hk hw hb hs => exact .ok T.same_empty (h.define hk ⟨rfl, rfl, hw, hb, hs⟩)
  | bind hk hv hs =>
    rw [expandWith, expandWith, silent_eq, silent_eq]
    exact (bind_twin h hk _ hv hs).andThen fun _ _ hd => .ok T.same_empty hd
  | reference hk => exact expandCall_twin hone rfl hk .nil h ha
  | stray => exact .raise h _

end

/-- Nodes that count as the same give texts that do, or fail for the same reason. -/
theorem expandNode_twin {disk : Disk} {limit : Nat} {node twin : Node} {doc other : Document}
    (ha : Task.Admitted T disk ⟨limit, node, doc⟩) (hn : T.node node twin) (h : doc.Twin T other) :
    Outcome.Twin T T.same (expandNode disk limit node doc) (expandNode disk limit twin other) := by
  induction limit generalizing node twin doc other with
  | zero => exact .error _ h
  | succ limit ih => exact expandWith_twin ih hn h ha

/-! ## The whole document -/

/-- Whether two runs are stopped for the same reason: by the disk, or by the same errors, the last of
them located at spans that are related. -/
inductive Stop.Twin (T : Twins) (S : Span → Span → Prop) : Stop → Stop → Prop where
  | disk (e : Disk.Error) : Stop.Twin T S (.disk e) (.disk e)
  | failed {init : List ExpandError} {e : ExpandError} {span around : Span} {source text : String} :
      e.span = none → S span around → T.source source text →
      Stop.Twin T S (.failed (init ++ [e.locate span source])) (.failed (init ++ [e.locate around text]))

section

variable {S : Span → Span → Prop} {R : String → String → Prop} {doc other : Document} (h : doc.Twin T other)
  {node twin : Node} (hs : S node.span twin.span)
include h hs

theorem report_twin {init : List ExpandError} {e : ExpandError} (hl : doc.errors = init ++ [e]) (he : e.span = none) :
    Agree (Stop.Twin T S) R (doc.report node).1 (other.report twin).1 ∧
      (doc.report node).2.Twin T (other.report twin).2 := by
  rw [report_of_errors hl, report_of_errors (h.errors.trans hl)]
  exact ⟨.error (.failed he hs h.source), { h with errors := rfl }⟩

theorem stopAt_twin {failure : Failure}
    (hf : ∀ e, failure = .raised e → e.span = none ∧ ∃ init, doc.errors = init ++ [e]) :
    Agree (Stop.Twin T S) R (doc.stopAt node failure).1 (other.stopAt twin failure).1 ∧
      (doc.stopAt node failure).2.Twin T (other.stopAt twin failure).2 := by
  cases failure with
  | raised e =>
    obtain ⟨he, init, hl⟩ := hf e rfl
    exact report_twin h hs hl he
  | tooDeep =>
    rw [stopAt, stopAt, h.errorOf_eq]
    exact report_twin (h.record _) hs rfl rfl
  | disk => exact ⟨.error (.disk _), h⟩

end

/-- Runs over nodes that count as the same give texts that do or are stopped for the same reason, and
leave documents that count as the same. -/
theorem expand_twin {S : Span → Span → Prop} {disk : Disk} {limit : Nat} {nodes others : List Node}
    {doc other : Document} (hi : ∀ tree, Imports disk limit nodes doc tree → T.nodes tree tree)
    (hn : List.Forall₂ T.node nodes others)
    (hs : List.Forall₂ (fun node twin : Node => S node.span twin.span) nodes others) (h : doc.Twin T other) :
    Agree (Stop.Twin T S) T.same (expand disk limit nodes doc).1 (expand disk limit others other).1 ∧
      (expand disk limit nodes doc).2.Twin T (expand disk limit others other).2 := by
  induction hn generalizing doc other with
  | nil => exact ⟨.ok T.same_empty, h⟩
  | @cons node twin rest more hnode _ ih =>
    obtain ⟨hplace, hplaces⟩ := List.forall₂_cons.1 hs
    have ha : Task.Admitted T disk ⟨limit, node, doc⟩ := fun tree ht => hi tree ⟨_, _, .here _ _ _, ht⟩
    have hstep := expandNode_twin ha hnode h
    cases hr : expandNode disk limit node doc with
    | mk r next =>
    cases hr' : expandNode disk limit twin other with
    | mk r' follow =>
    rw [hr, hr'] at hstep
    have hdoc : next.Twin T follow := hstep.document
    cases hstep.result with
    | error he =>
      subst he
      rw [expand_cons_of_error hr, expand_cons_of_error hr']
      exact stopAt_twin hdoc hplace fun e he => errors_of_raised (he ▸ hr)
    | @ok text _ ht =>
      have hafter : ∀ tree, Imports disk limit rest next tree → T.nodes tree tree := by
        rintro tree ⟨inner, mid, hc, htree⟩
        exact hi tree ⟨inner, mid, .later hr hc, htree⟩
      obtain ⟨hresult, hlast⟩ := ih hafter hplaces hdoc
      rw [expand_cons_of_ok hr, expand_cons_of_ok hr']
      refine ⟨?_, hlast⟩
      generalize (expand disk limit rest next).1 = result at hresult
      generalize (expand disk limit more follow).1 = result' at hresult
      cases hresult with
      | ok hmore => exact .ok (T.same_append ht hmore)
      | error he => exact .error he

end Document

end Markup
