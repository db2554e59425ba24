/-
Sessions: a document on which one thing is done after another.

Whatever is done, and whether it fails or not, the tables stay in order
(`keepsTables_apply`): every macro and every variable is entered under its own
name, once, and no name is ever lost. A change of a variable's value leaves all
else of its entry, and of the document, as it was.
-/
import Markup.Proofs.DocumentChanges

namespace Markup.Document

/-! ## What is done with a document -/

/-- What may be done with a document. -/
inductive Operation where
  /-- Nodes are expanded as those at the top of a document. -/
  | expand (disk : Disk) (limit : Nat) (nodes : List Node)
  /-- A text that has a tree becomes that of the document, and is expanded. -/
  | expandText (disk : Disk) (limit : Nat) (text : String)
  | expandNode (disk : Disk) (limit : Nat) (node : Node)
  | letText (name value : String)
  | defineText (name body : String)
  | importModule (disk : Disk) (name : String) (builtIn : Bool)
  /-- An error is recorded and not raised. -/
  | record (cause : ExpandError.Cause)

namespace Operation

/-- The document behind an operation, whether it fails or not. -/
def apply : Operation → Document → Document
  | expand disk limit nodes, doc => (doc.expand disk limit nodes).2
  | expandText disk limit text, doc =>
    match Node.ofText text with
    | .error _ => doc
    | .ok nodes => (Document.expand disk limit nodes { doc with source := text }).2
  | expandNode disk limit node, doc => (Document.expandNode disk limit node doc).2
  | letText name value, doc => doc.letText name value
  | defineText name body, doc => doc.defineText name body
  | importModule disk name builtIn, doc => (doc.importModule disk name builtIn).2
  | record cause, doc => doc.record (doc.errorOf cause)

/-- The document behind operations, one after another. -/
def applyAll (ops : List Operation) (doc : Document) : Document := ops.foldl (fun doc op => op.apply doc) doc

end Operation

/-- A law that does not tell failures apart, and that takes no notice of the text and of the errors,
holds between the documents before and behind an operation. -/
theorem ChangeLaw.apply {holds : Document → Document → Prop} (law : ChangeLaw holds holds)
    (read : ∀ (doc : Document) (text : String), holds doc { doc with source := text })
    (drain : ∀ {doc next : Document}, holds doc next → holds doc { next with errors := [] })
    (op : Operation) (doc : Document) : holds doc (op.apply doc) := by
  cases op with
  | expand disk limit nodes => exact law.expand_same drain disk limit nodes doc
  | expandText disk limit text =>
    rw [Operation.apply]
    split
    next => exact law.refl doc
    next => exact law.trans (read doc text) (law.expand_same drain disk limit _ _)
  | expandNode disk limit node => exact (law.expandNode disk limit node doc).same
  | letText name value => exact law.give doc name [.text value .builtIn] .builtIn
  | defineText name body => exact law.define doc (textDefinition name body)
  | importModule disk name builtIn => exact (law.importModule disk name builtIn doc).same
  | record cause => exact law.record _ (law.stop doc)

/-! ## The tables -/

/-- Whether the tables are in order: every entry stands under its own name, once, and an entry for a
variable has a value and is no change of one. -/
structure IsKeyed (doc : Document) : Prop where
  definitions : ∀ entry ∈ doc.definitions.entries, entry.2.name = entry.1
  bindings : ∀ entry ∈ doc.bindings.entries,
    entry.2.name = entry.1 ∧ entry.2.value.isSome = true ∧ entry.2.changes = false
  definitions_nodup : doc.definitions.names.Nodup
  bindings_nodup : doc.bindings.names.Nodup

/-- Whether the tables stay in order from a document to another, and lose no name. -/
structure KeepsTables (doc next : Document) : Prop where
  isKeyed : doc.IsKeyed → next.IsKeyed
  definitions : doc.definitions.names ⊆ next.definitions.names
  bindings : doc.bindings.names ⊆ next.bindings.names

section

variable {doc : Document} (h : doc.IsKeyed)
include h

theorem IsKeyed.define (d : Definition) : (doc.define d).IsKeyed where
  definitions entry he := by
    rcases Table.mem_insert he with rfl | he
    · rfl
    · exact h.definitions entry he
  bindings := h.bindings
  definitions_nodup := Table.nodup_names_insert h.definitions_nodup _ _
  bindings_nodup := h.bindings_nodup

theorem IsKeyed.insertBinding (name : String) (value : List Node) (span : Span) :
    IsKeyed { doc with bindings := doc.bindings.insert name ⟨name, some value, false, span⟩ } where
  definitions := h.definitions
  bindings entry he := by
    rcases Table.mem_insert he with rfl | he
    · exact ⟨rfl, rfl, rfl⟩
    · exact h.bindings entry he
  definitions_nodup := h.definitions_nodup
  bindings_nodup := Table.nodup_names_insert h.bindings_nodup _ _

/-- What the table of variables has for a name is that variable, as a node that gives a value has it. -/
theorem IsKeyed.exists_value {name : String} {b : Binding} (hb : doc.bindings.get? name = some b) :
    ∃ value, b = ⟨name, some value, false, b.span⟩ := by
  obtain ⟨hname, hsome, hchanges⟩ := h.bindings _ (Table.mem_of_get? hb)
  obtain ⟨value, hvalue⟩ := Option.isSome_iff_exists.1 hsome
  obtain ⟨_, _, _, span⟩ := b
  exact ⟨value, by simp only at hname hvalue hchanges ⊢; rw [hname, hvalue, hchanges]⟩

theorem IsKeyed.of_tables {next : Document} (hd : next.definitions = doc.definitions)
    (hb : next.bindings = doc.bindings) : next.IsKeyed := by
  constructor
  · rw [hd]; exact h.definitions
  · rw [hb]; exact h.bindings
  · rw [hd]; exact h.definitions_nodup
  · rw [hb]; exact h.bindings_nodup

end

namespace KeepsTables

variable {doc next last : Document}

theorem refl (doc : Document) : doc.KeepsTables doc := ⟨id, List.Subset.refl _, List.Subset.refl _⟩

theorem trans (h : doc.KeepsTables next) (k : next.KeepsTables last) : doc.KeepsTables last :=
  ⟨k.isKeyed ∘ h.isKeyed, List.Subset.trans h.definitions k.definitions, List.Subset.trans h.bindings k.bindings⟩

theorem insertBinding {name : String} {b : Binding}
    (hb : doc.IsKeyed → ∃ value span, b = ⟨name, some value, false, span⟩) :
    doc.KeepsTables { doc with bindings := doc.bindings.insert name b } where
  isKeyed hk := by
    obtain ⟨value, span, rfl⟩ := hb hk
    exact hk.insertBinding name value span
  definitions := List.Subset.refl _
  bindings := Table.names_subset_insert _ _ _

theorem between {doc' next' : Document} (h : doc.KeepsTables next) (hd : doc'.definitions = doc.definitions)
    (hb : doc'.bindings = doc.bindings) (hd' : next'.definitions = next.definitions)
    (hb' : next'.bindings = next.bindings) : doc'.KeepsTables next' where
  isKeyed hk := (h.isKeyed (hk.of_tables hd.symm hb.symm)).of_tables hd' hb'
  definitions := by rw [hd, hd']; exact h.definitions
  bindings := by rw [hb, hb']; exact h.bindings

end KeepsTables

/-- Nothing that expansion does to a document puts its tables out of order or loses a name. -/
theorem changeLaw_keepsTables : ChangeLaw KeepsTables KeepsTables where
  refl := .refl
  trans := .trans
  stop := .refl
  behind := .trans
  record _ h := h.between rfl rfl rfl rfl
  define _ d := ⟨fun hk => hk.define d, Table.names_subset_insert _ _ _, List.Subset.refl _⟩
  give _ _ value span := .insertBinding fun _ => ⟨value, span, rfl⟩
  change value hb := .insertBinding fun hk => by
    -- the entry that is changed was given a value before, so that only the value is another
    obtain ⟨_, hold⟩ := hk.exists_value hb
    rw [hold]
    exact ⟨value, _, rfl⟩
  leaveGives h := h.between rfl rfl rfl rfl
  leaveFails h := h.between rfl rfl rfl rfl

theorem keepsTables_apply (op : Operation) (doc : Document) : doc.KeepsTables (op.apply doc) :=
  changeLaw_keepsTables.apply (fun doc _ => (KeepsTables.refl doc).between rfl rfl rfl rfl)
    (fun h => h.between rfl rfl rfl rfl) op doc

theorem keepsTables_applyAll (ops : List Operation) (doc : Document) :
    doc.KeepsTables (Operation.applyAll ops doc) := by
  induction ops generalizing doc with
  | nil => exact .refl doc
  | cons op ops ih => exact (keepsTables_apply op doc).trans (ih (op.apply doc))

theorem isKeyed_new (fileName source : String) (presets : List (String × String)) (modulePaths : List Path)
    (now : BuiltIn.Moment) : (new fileName source presets modulePaths now).IsKeyed := by
  refine new_induction _ _ _ _ _ ⟨nofun, nofun, .nil, .nil⟩ ?_ ?_
  · exact fun doc name body hk => hk.define (textDefinition name body)
  · exact fun doc name value hk => hk.insertBinding name _ _

/-- Whether a document comes of a new one by operations. -/
inductive Reachable : Document → Prop where
  | new (fileName source : String) (presets : List (String × String)) (modulePaths : List Path)
      (now : BuiltIn.Moment) : Reachable (.new fileName source presets modulePaths now)
  | step {doc : Document} (op : Operation) : Reachable doc → Reachable (op.apply doc)

theorem Reachable.isKeyed {doc : Document} (h : doc.Reachable) : doc.IsKeyed := by
  induction h with
  | new fileName source presets modulePaths now => exact isKeyed_new fileName source presets modulePaths now
  | @step doc op _ ih => exact (keepsTables_apply op doc).isKeyed ih

theorem expandNode_change {doc : Document} {name : String} {old : Binding}
    (h : doc.bindings.get? name = some old) (disk : Disk) (limit : Nat) (value : List Node) (span : Span) :
    expandNode disk (limit + 1) (.bind name true value span) doc =
      (.ok "", { doc with bindings := doc.bindings.insert name { old with value := some value } }) := by
  rw [expandNode, expandWith, Document.bind, if_pos rfl, h]
  rfl

/-- However a document was come to from a new one, every macro and every variable is entered under
its own name, once, a variable with a value and as no change of one; whatever is done next, no name is
lost; and a change of a variable's value leaves all else of its entry, all other variables, and all else
of the document. -/
theorem Reachable.tables_in_order {doc : Document} (h : doc.Reachable) :
    doc.IsKeyed ∧
      (∀ ops : List Operation, doc.definitions.names ⊆ (Operation.applyAll ops doc).definitions.names ∧
        doc.bindings.names ⊆ (Operation.applyAll ops doc).bindings.names) ∧
      ∀ (disk : Disk) (limit : Nat) (name : String) (value : List Node) (span : Span) (old : Binding),
        doc.bindings.get? name = some old →
          ∃ next, expandNode disk (limit + 1) (.bind name true value span) doc = (.ok "", next) ∧
            (∀ other, next.bindings.get? other =
              if other = name then some { old with value := some value } else doc.bindings.get? other) ∧
            (old.name = name ∧ old.value.isSome = true ∧ old.changes = false) ∧
            next.bindings.names = doc.bindings.names ∧ next = { doc with bindings := next.bindings } := by
  have hkeyed := h.isKeyed
  refine ⟨hkeyed, fun ops => ?_, fun disk limit name value span old hold => ?_⟩
  · have hkeeps := keepsTables_applyAll ops doc
    exact ⟨hkeeps.definitions, hkeeps.bindings⟩
  · refine ⟨_, expandNode_change hold disk limit value span, fun other => ?_,
      hkeyed.bindings _ (Table.mem_of_get? hold), ?_, rfl⟩
    · rw [Table.get?_insert]
    · rw [Table.names_insert, if_pos]
      exact List.mem_map_of_mem (Table.mem_of_get? hold)

/-- A run that fails at a change of `z`, behind `y` that it gave a value; `y` is changed after that. -/
theorem tables_in_order_after_failed_run :
    let place : Span := ⟨⟨2, 1, 5⟩, ⟨2, 9, 13⟩⟩
    let doc := Operation.apply (.expand .empty 9 [.define "f" [] [.bind "y" false [.text "a" .builtIn] place,
      .bind "z" true [] .builtIn] .builtIn, .call "f" [] .builtIn]) (new "d.write" "" [("x", "1")] [] default)
    doc.Reachable ∧ doc.IsKeyed ∧ doc.bindings.names = ["x", "y"] ∧
      ∃ next, expandNode .empty 1 (.bind "y" true [] .builtIn) doc = (.ok "", next) ∧
        next.bindings.get? "y" = some ⟨"y", some [], false, place⟩ := by
  intro place doc
  have hr : doc.Reachable := .step _ (.new _ _ _ _ _)
  obtain ⟨hkeyed, -, hchange⟩ := hr.tables_in_order
  obtain ⟨next, hnext, hget, -⟩ := hchange .empty 0 "y" [] .builtIn ⟨"y", some [.text "a" .builtIn], false, place⟩ rfl
  exact ⟨hr, hkeyed, rfl, next, hnext, hget "y"⟩

end Markup.Document
