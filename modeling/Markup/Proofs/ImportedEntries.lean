/-
What a document takes over from a module.

Of a module's tree only the definitions and bindings at its top count, in order
(`Node.entries`). Entering them one behind the other is one fold over them
(`Document.takeOver`): the last definition of a name stays, the last `#let` of a name
gives the variable and the last binding of it the value. An import does just this up to
the first `#set` of a variable that is bound neither before nor by the entries up to it,
and doing it twice is doing it once (`importModule_takesOver`).
-/
import Markup.Proofs.DiskWrites
import Markup.Proofs.ExpandSteps
import Markup.Proofs.TableWrites

namespace Markup

/-! ## Entries -/

/-- What a module gives a document at its top. -/
inductive Entry where
  | define (d : Definition)
  /-- `#let`. -/
  | give (name : String) (value : List Node) (span : Span)
  /-- `#set`, which keeps everything of the variable but its value. -/
  | change (name : String) (value : List Node)

namespace Entry

/-- The macro of the name that an entry defines. -/
def definition? (name : String) : Entry → Option Definition
  | define d => if d.name = name then some d else none
  | give .. | change .. => none

/-- The variable of the name that an entry gives. -/
def binding? (name : String) : Entry → Option Binding
  | give other value span => if other = name then some ⟨other, some value, false, span⟩ else none
  | define _ | change .. => none

/-- The value that an entry gives the variable of the name. -/
def value? (name : String) : Entry → Option (List Node)
  | give other value _ | change other value => if other = name then some value else none
  | define _ => none

/-- Enters an entry; there is no variable to change where there is none of the name. -/
def enteredIn (doc : Document) : Entry → Document
  | define d => doc.define d
  | give name value span =>
    { doc with bindings := doc.bindings.insert name ⟨name, some value, false, span⟩ }
  | change name value =>
    match doc.bindings.get? name with
    | none => doc
    | some old => { doc with bindings := doc.bindings.insert name { old with value := some value } }

/-- What the last entry gives that gives something. -/
def last? {α : Type} (gives : Entry → Option α) (entries : List Entry) : Option α :=
  entries.reverse.findSome? gives

theorem last?_cons {α : Type} (gives : Entry → Option α) (entry : Entry) (entries : List Entry) :
    last? gives (entry :: entries) = (last? gives entries).or (gives entry) := by
  rw [last?, List.reverse_cons, List.findSome?_append, List.findSome?_singleton, last?]

theorem exists_value {name : String} : ∀ {entries : List Entry} {b : Binding},
    last? (binding? name) entries = some b → ∃ value, last? (value? name) entries = some value
  | [], _, h => by cases h
  | entry :: entries, b, h => by
    rw [last?_cons, Option.or_eq_some_iff] at h
    rw [last?_cons]
    rcases h with h | ⟨-, h⟩
    · obtain ⟨value, hv⟩ := exists_value h
      exact ⟨value, by rw [hv, Option.some_or]⟩
    · obtain ⟨value, hv⟩ : ∃ value, entry.value? name = some value := by
        cases entry with
        | define | change => cases h
        | give other value span =>
          rw [binding?, Option.ite_none_right_eq_some] at h
          exact ⟨value, if_pos h.1⟩
      rw [hv, Option.or_some]
      exact ⟨_, rfl⟩

end Entry

/-- A variable with another value, if there is one. -/
def Binding.withValue (b : Binding) (value? : Option (List Node)) : Binding :=
  { b with value := value?.or b.value }

theorem Binding.map_withValue_none (b? : Option Binding) : b?.map (·.withValue none) = b? := by
  cases b? <;> rfl

theorem Binding.withValue_withValue (b : Binding) (first? last? : Option (List Node)) :
    (b.withValue first?).withValue last? = b.withValue (last?.or first?) := by
  cases last? <;> rfl

/-- What a node at the top of a module gives. -/
def Node.entry? : Node → Option Entry
  | .define name params body span => some (.define ⟨name, params, body, span⟩)
  | .bind name false value span => some (.give name value span)
  | .bind name true value _ => some (.change name value)
  | _ => none

/-- A node that gives an entry. -/
def Entry.toNode : Entry → Node
  | define d => d.toNode
  | give name value span => .bind name false value span
  | change name value => .bind name true value .builtIn

theorem Entry.entry?_toNode (entry : Entry) : entry.toNode.entry? = some entry := by
  cases entry <;> rfl

/-- What a module gives, in order. -/
def Node.entries (nodes : List Node) : List Entry := nodes.filterMap Node.entry?

namespace Document

/-- Enters entries, one behind the other. -/
def takeOver (doc : Document) (entries : List Entry) : Document := entries.foldl Entry.enteredIn doc

/-- Whether a variable is bound in a document or by entries behind it. -/
def Bound (doc : Document) (entries : List Entry) (name : String) : Prop :=
  name ∈ doc.bindings.names ∨ ∃ value span, Entry.give name value span ∈ entries

/-- Whether every variable that is changed is bound by then. -/
def AllBound (doc : Document) (entries : List Entry) : Prop :=
  ∀ before name value after, entries = before ++ .change name value :: after → doc.Bound before name

variable {doc next : Document}

theorem takeOver_cons (entry : Entry) (entries : List Entry) :
    doc.takeOver (entry :: entries) = (entry.enteredIn doc).takeOver entries := rfl

/-! ## The tables behind entries -/

theorem definitions_enteredIn (entry : Entry) (name : String) :
    (entry.enteredIn doc).definitions.get? name = (entry.definition? name).or (doc.definitions.get? name) := by
  cases entry with
  | define d =>
    rw [Entry.enteredIn, define, Table.get?_insert, Entry.definition?]
    by_cases hn : name = d.name
    · simp [hn]
    · simp [hn, Ne.symm hn]
  | give => rfl
  | change other value =>
    rw [Entry.enteredIn]
    split <;> rfl

/-- The last definition of a name stays. -/
theorem definitions_takeOver (entries : List Entry) (name : String) :
    (doc.takeOver entries).definitions.get? name =
      (Entry.last? (Entry.definition? name) entries).or (doc.definitions.get? name) := by
  induction entries generalizing doc with
  | nil => rfl
  | cons entry entries ih =>
    rw [takeOver_cons, ih, definitions_enteredIn, Entry.last?_cons, Option.or_assoc]

theorem bindings_enteredIn (entry : Entry) (name : String) :
    (entry.enteredIn doc).bindings.get? name =
      ((entry.binding? name).or (doc.bindings.get? name)).map (·.withValue (entry.value? name)) := by
  cases entry with
  | define d =>
    simp only [Entry.enteredIn, define, Entry.binding?, Entry.value?, Option.none_or]
    exact (Binding.map_withValue_none _).symm
  | give other value span =>
    rw [Entry.enteredIn, Table.get?_insert, Entry.binding?, Entry.value?]
    by_cases hn : name = other
    · simp [hn, Binding.withValue]
    · simpa [hn, Ne.symm hn] using (Binding.map_withValue_none _).symm
  | change other value =>
    rw [Entry.enteredIn, Entry.binding?, Entry.value?, Option.none_or]
    split
    next ho =>
      by_cases hn : other = name
      · rw [← hn, ho]
        rfl
      · rw [if_neg hn, Binding.map_withValue_none]
    next old ho =>
      rw [Table.get?_insert]
      by_cases hn : other = name
      · rw [if_pos hn.symm, if_pos hn, ← hn, ho]
        rfl
      · rw [if_neg (Ne.symm hn), if_neg hn, Binding.map_withValue_none]

/-- The last `#let` of a name gives the variable, and the last binding of it the value. -/
theorem bindings_takeOver (entries : List Entry) (name : String) :
    (doc.takeOver entries).bindings.get? name =
      ((Entry.last? (Entry.binding? name) entries).or (doc.bindings.get? name)).map
        (·.withValue (Entry.last? (Entry.value? name) entries)) := by
  induction entries generalizing doc with
  | nil => exact (Binding.map_withValue_none _).symm
  | cons entry entries ih =>
    rw [takeOver_cons, ih, bindings_enteredIn, Entry.last?_cons, Entry.last?_cons]
    cases hl : Entry.last? (Entry.binding? name) entries with
    | none =>
      rw [Option.none_or, Option.none_or, Option.map_map]
      refine congrFun (congrArg Option.map (funext fun b => ?_)) _
      exact Binding.withValue_withValue b _ _
    | some b =>
      obtain ⟨value, hv⟩ := Entry.exists_value hl
      rw [hv]
      rfl

variable (doc) in
theorem takeOver_rest (entries : List Entry) :
    doc.takeOver entries = { doc with
      definitions := (doc.takeOver entries).definitions, bindings := (doc.takeOver entries).bindings } := by
  induction entries generalizing doc with
  | nil => rfl
  | cons entry entries ih =>
    have hentry : entry.enteredIn doc = { doc with
        definitions := (entry.enteredIn doc).definitions, bindings := (entry.enteredIn doc).bindings } := by
      cases entry with
      | define | give => rfl
      | change name value =>
        rw [Entry.enteredIn]
        split <;> rfl
    rw [takeOver_cons, ih, hentry]

theorem errorOf_takeOver (entries : List Entry) (cause : ExpandError.Cause) :
    (doc.takeOver entries).errorOf cause = doc.errorOf cause := by
  rw [takeOver_rest]
  rfl

variable (doc) in
theorem exists_insertAll_takeOver (entries : List Entry) :
    (∃ writes, (doc.takeOver entries).definitions = doc.definitions.insertAll writes) ∧
      ∃ writes, (doc.takeOver entries).bindings = doc.bindings.insertAll writes := by
  induction entries generalizing doc with
  | nil => exact ⟨⟨[], rfl⟩, ⟨[], rfl⟩⟩
  | cons entry entries ih =>
    obtain ⟨⟨definitions, hd⟩, ⟨bindings, hb⟩⟩ := ih (entry.enteredIn doc)
    rw [takeOver_cons, hd, hb]
    cases entry with
    | define d => exact ⟨⟨(d.name, d) :: definitions, rfl⟩, ⟨bindings, rfl⟩⟩
    | give name value span => exact ⟨⟨definitions, rfl⟩, ⟨(name, ⟨name, some value, false, span⟩) :: bindings, rfl⟩⟩
    | change name value =>
      rw [Entry.enteredIn]
      split
      next => exact ⟨⟨definitions, rfl⟩, ⟨bindings, rfl⟩⟩
      next old _ => exact ⟨⟨definitions, rfl⟩, ⟨(name, { old with value := some value }) :: bindings, rfl⟩⟩

/-- Entries that have been entered change nothing any more. -/
theorem takeOver_takeOver (entries : List Entry) : (doc.takeOver entries).takeOver entries = doc.takeOver entries := by
  obtain ⟨⟨definitions, hd⟩, ⟨bindings, hb⟩⟩ := exists_insertAll_takeOver (doc.takeOver entries) entries
  rw [takeOver_rest (doc.takeOver entries), hd, hb, Table.insertAll_eq_self, Table.insertAll_eq_self]
  · intro name
    rw [← hb, bindings_takeOver, bindings_takeOver]
    cases Entry.last? (Entry.binding? name) entries with
    | some b => rfl
    | none =>
      rw [Option.none_or, Option.none_or, Option.map_map]
      refine congrFun (congrArg Option.map (funext fun b => ?_)) _
      rw [Function.comp_apply, Binding.withValue_withValue, Option.or_self]
  · intro name
    rw [← hd, definitions_takeOver, definitions_takeOver, ← Option.or_assoc, Option.or_self]

/-- How a document looks behind entries. -/
structure TakesOver (doc : Document) (entries : List Entry) (next : Document) : Prop where
  eq_takeOver : next = doc.takeOver entries
  /-- The last definition of a name stays. -/
  definitions : ∀ name, next.definitions.get? name =
    (Entry.last? (Entry.definition? name) entries).or (doc.definitions.get? name)
  /-- The last `#let` of a name gives the variable, and the last binding of it the value. -/
  bindings : ∀ name, next.bindings.get? name =
    ((Entry.last? (Entry.binding? name) entries).or (doc.bindings.get? name)).map
      (·.withValue (Entry.last? (Entry.value? name) entries))
  rest : next = { doc with definitions := next.definitions, bindings := next.bindings }

theorem takesOver_takeOver (doc : Document) (entries : List Entry) : doc.TakesOver entries (doc.takeOver entries) :=
  ⟨rfl, definitions_takeOver entries, bindings_takeOver entries, takeOver_rest doc entries⟩

/-! ## Variables that are bound -/

theorem mem_names_enteredIn {entry : Entry} {name : String} :
    name ∈ (entry.enteredIn doc).bindings.names ↔
      name ∈ doc.bindings.names ∨ ∃ value span, entry = .give name value span := by
  have hinsert : ∀ other (b : Binding), name ∈ (doc.bindings.insert other b).names ↔
      name ∈ doc.bindings.names ∨ other = name := by
    intro other b
    rw [Table.names_insert]
    split
    next hm => exact ⟨.inl, fun h => h.elim id fun he => he ▸ hm⟩
    next => rw [List.mem_append, List.mem_singleton, eq_comm (a := name)]
  cases entry with
  | define d => simp [Entry.enteredIn, define]
  | give other value span => simp [Entry.enteredIn, hinsert]
  | change other value =>
    rw [Entry.enteredIn]
    split
    next => simp
    next old ho =>
      have hm : other ∈ doc.bindings.names := List.mem_map_of_mem (Table.mem_of_get? ho)
      simp only [hinsert, reduceCtorEq, exists_false, or_false]
      exact ⟨fun h => h.elim id fun he => he ▸ hm, .inl⟩

theorem names_subset_takeOver (entries : List Entry) :
    doc.bindings.names ⊆ (doc.takeOver entries).bindings.names := by
  induction entries generalizing doc with
  | nil => exact List.Subset.refl _
  | cons entry entries ih => exact fun name hm => ih (mem_names_enteredIn.2 (.inl hm))

theorem Bound.mono {entries : List Entry} {name : String} (h : doc.Bound entries name)
    (hs : doc.bindings.names ⊆ next.bindings.names) : next.Bound entries name :=
  h.imp (fun hm => hs hm) id

theorem bound_cons {entry : Entry} {entries : List Entry} {name : String} :
    doc.Bound (entry :: entries) name ↔ (entry.enteredIn doc).Bound entries name := by
  rw [Bound, Bound, mem_names_enteredIn, or_assoc]
  refine or_congr_right ⟨?_, ?_⟩
  · rintro ⟨value, span, hm⟩
    rcases List.mem_cons.1 hm with he | hm
    · exact .inl ⟨value, span, he.symm⟩
    · exact .inr ⟨value, span, hm⟩
  · rintro (⟨value, span, he⟩ | ⟨value, span, hm⟩)
    · exact ⟨value, span, List.mem_cons.2 (.inl he.symm)⟩
    · exact ⟨value, span, List.mem_cons_of_mem _ hm⟩

theorem bound_nil {name : String} : doc.Bound [] name ↔ name ∈ doc.bindings.names := by
  simp [Bound]

theorem allBound_nil : doc.AllBound [] := by
  intro before name value after he
  simp at he

theorem allBound_cons {entry : Entry} {entries : List Entry} :
    doc.AllBound (entry :: entries) ↔
      (∀ name value, entry = .change name value → name ∈ doc.bindings.names) ∧
        (entry.enteredIn doc).AllBound entries := by
  constructor
  · intro h
    refine ⟨fun name value he => bound_nil.1 (h [] name value entries (by rw [he]; rfl)), ?_⟩
    intro before name value after he
    exact bound_cons.1 (h (entry :: before) name value after (by rw [he]; rfl))
  · rintro ⟨hfirst, hrest⟩ before name value after he
    cases before with
    | nil => exact bound_nil.2 (hfirst name value (List.cons.inj he).1)
    | cons first before =>
      rw [List.cons_append, List.cons.injEq] at he
      obtain ⟨rfl, he⟩ := he
      exact bound_cons.2 (hrest before name value after he)

/-! ## Entering a tree -/

theorem enterAll_cons_of_entry {node : Node} {entry : Entry} (he : node.entry? = some entry)
    (hb : ∀ name value, entry = .change name value → name ∈ doc.bindings.names) (rest : List Node) :
    doc.enterAll (node :: rest) = (entry.enteredIn doc).enterAll rest := by
  cases node with
  | define name params body span =>
    cases he
    exact enterAll_define doc name params body span rest
  | bind name changes value span =>
    rw [enterAll_bind, bind]
    cases changes with
    | false =>
      cases he
      rfl
    | true =>
      cases he
      cases ho : doc.bindings.get? name with
      | none => exact absurd (hb name value rfl) (Table.get?_eq_none_iff.1 ho)
      | some old =>
        simp only [if_true, Entry.enteredIn, ho]
        rfl
  | _ => cases he

theorem enterAll_cons_of_change {node : Node} {name : String} {value : List Node}
    (he : node.entry? = some (.change name value)) (hb : name ∉ doc.bindings.names) (rest : List Node) :
    doc.enterAll (node :: rest) = doc.raise (.neverGiven name) := by
  cases node with
  | bind other changes value' span =>
    cases changes with
    | false => cases he
    | true =>
      cases he
      rw [enterAll_bind, bind, if_pos rfl, Table.get?_eq_none_iff.2 hb]
      rfl
  | _ => cases he

theorem enterAll_cons_of_none {node : Node} (he : node.entry? = none) (rest : List Node) :
    doc.enterAll (node :: rest) = doc.enterAll rest := by
  cases node with
  | define => cases he
  | bind name changes value span => cases changes <;> cases he
  | _ => exact enterAll_of_ne doc (by simp) (by simp) rest

variable (doc) in
/-- A tree is entered up to the first change of a variable that is not bound by then. -/
theorem enterAll_cases (nodes : List Node) :
    (doc.AllBound (Node.entries nodes) ∧ doc.enterAll nodes = (.ok (), doc.takeOver (Node.entries nodes))) ∨
      ∃ before name value after, Node.entries nodes = before ++ .change name value :: after ∧
        doc.AllBound before ∧ ¬ doc.Bound before name ∧
        doc.enterAll nodes = (doc.takeOver before).raise (.neverGiven name) := by
  induction nodes generalizing doc with
  | nil => exact .inl ⟨allBound_nil, rfl⟩
  | cons node rest ih =>
    cases he : node.entry? with
    | none =>
      rw [Node.entries, List.filterMap_cons_none he, enterAll_cons_of_none he]
      exact ih doc
    | some entry =>
      rw [Node.entries, List.filterMap_cons_some he]
      by_cases hb : ∀ name value, entry = .change name value → name ∈ doc.bindings.names
      · rw [enterAll_cons_of_entry he hb, allBound_cons, takeOver_cons]
        rcases ih (entry.enteredIn doc) with ⟨hall, hrest⟩ |
          ⟨before, name, value, after, hsplit, hall, hno, hrest⟩
        · exact .inl ⟨⟨hb, hall⟩, hrest⟩
        · exact .inr ⟨entry :: before, name, value, after, congrArg (entry :: ·) hsplit,
            allBound_cons.2 ⟨hb, hall⟩, mt bound_cons.1 hno, hrest⟩
      · simp only [Classical.not_forall] at hb
        obtain ⟨name, value, rfl, hno⟩ := hb
        exact .inr ⟨[], name, value, _, rfl, allBound_nil, mt bound_nil.1 hno, enterAll_cons_of_change he hno rest⟩

/-- What a module does is what the nodes of its entries do. -/
theorem enterAll_eq (nodes : List Node) : doc.enterAll nodes = doc.enterAll ((Node.entries nodes).map Entry.toNode) := by
  induction nodes generalizing doc with
  | nil => rfl
  | cons node rest ih =>
    cases he : node.entry? with
    | none => rw [Node.entries, List.filterMap_cons_none he, enterAll_cons_of_none he, ih, Node.entries]
    | some entry =>
      rw [Node.entries, List.filterMap_cons_some he, List.map_cons]
      by_cases hb : ∀ name value, entry = .change name value → name ∈ doc.bindings.names
      · rw [enterAll_cons_of_entry he hb, enterAll_cons_of_entry entry.entry?_toNode hb, ih, Node.entries]
      · simp only [Classical.not_forall] at hb
        obtain ⟨name, value, rfl, hno⟩ := hb
        rw [enterAll_cons_of_change he hno, enterAll_cons_of_change (Entry.entry?_toNode _) hno]

/-! ## Imports -/

/-- Where the text of a module is found: it ships with the language, or a file has it. -/
inductive FindsModule (doc : Document) (disk : Disk) (name : String) : Bool → String → Prop where
  | builtIn {text} : BuiltIn.moduleTexts.lookup name = some text → FindsModule doc disk name true text
  | file {path text} : doc.moduleFile disk name = .ok path → disk.readText path = .ok text →
      FindsModule doc disk name false text

variable {disk : Disk} {name text : String} {builtIn : Bool} {nodes : List Node}

theorem FindsModule.loadModule (h : doc.FindsModule disk name builtIn text) (hn : Node.ofText text = .ok nodes) :
    doc.loadModule disk name builtIn = (.ok nodes, doc) := by
  cases h with
  | builtIn ht =>
    rw [Document.loadModule, if_pos rfl, BuiltIn.moduleNodes?, ht, Option.map_some, hn]
    rfl
  | file hp hr =>
    rw [Document.loadModule, if_neg (by simp), loadFile, hp]
    simp only [hr, parseModule, hn]

/-- A module is found where it was, wherever the document has entered something. -/
theorem FindsModule.takeOver (h : doc.FindsModule disk name builtIn text) (entries : List Entry) :
    (doc.takeOver entries).FindsModule disk name builtIn text := by
  cases h with
  | builtIn ht => exact .builtIn ht
  | file hp hr =>
    refine .file ?_ hr
    rw [takeOver_rest]
    exact hp

theorem FindsModule.importModule (h : doc.FindsModule disk name builtIn text) (hn : Node.ofText text = .ok nodes) :
    doc.importModule disk name builtIn = doc.enterAll nodes := by
  rw [importModule_eq, h.loadModule hn, Outcome.andThen_ok]

/-- An import succeeds if all variables that the module changes are bound by then, and the document
takes over what the module gives, which another import does not change any more. Else it fails at the
first change of a variable that is not bound, behind what stands before. Nothing else of the module
counts. -/
theorem importModule_takesOver (h : doc.FindsModule disk name builtIn text) (hn : Node.ofText text = .ok nodes) :
    ((∃ next, doc.importModule disk name builtIn = (.ok (), next)) ↔ doc.AllBound (Node.entries nodes)) ∧
    (∀ next, doc.importModule disk name builtIn = (.ok (), next) →
      doc.TakesOver (Node.entries nodes) next ∧ next.importModule disk name builtIn = (.ok (), next)) ∧
    (∀ failure next, doc.importModule disk name builtIn = (.error failure, next) →
      ∃ before x value after last e, Node.entries nodes = before ++ .change x value :: after ∧
        doc.AllBound before ∧ ¬ doc.Bound before x ∧
        failure = .raised e ∧ e = doc.errorOf (.neverGiven x) ∧
        e.message = "variable '" ++ x ++ "' was never given a value" ∧
        doc.TakesOver before last ∧ next = last.record e) ∧
    ∀ disk' name' builtIn' text' nodes', doc.FindsModule disk' name' builtIn' text' →
      Node.ofText text' = .ok nodes' → Node.entries nodes' = Node.entries nodes →
      doc.importModule disk' name' builtIn' = doc.importModule disk name builtIn := by
  have hcases := enterAll_cases doc nodes
  rw [← h.importModule hn] at hcases
  refine ⟨⟨?_, ?_⟩, ?_, ?_, ?_⟩
  · rintro ⟨next, hi⟩
    rcases hcases with ⟨hall, -⟩ | ⟨before, x, value, after, -, -, -, hf⟩
    · exact hall
    · rw [hf] at hi
      cases hi
  · intro hall
    rcases hcases with ⟨-, hi⟩ | ⟨before, x, value, after, hsplit, -, hno, -⟩
    · exact ⟨_, hi⟩
    · exact absurd (hall before x value after hsplit) hno
  · intro next hi
    rcases hcases with ⟨hall, hok⟩ | ⟨before, x, value, after, -, -, -, hf⟩
    · rw [hok] at hi
      cases hi
      refine ⟨takesOver_takeOver doc _, ?_⟩
      rw [(h.takeOver _).importModule hn]
      rcases enterAll_cases (doc.takeOver (Node.entries nodes)) nodes with
        ⟨-, hagain⟩ | ⟨before, x, value, after, hsplit, -, hno, -⟩
      · rw [hagain, takeOver_takeOver]
      · exact absurd ((hall before x value after hsplit).mono (names_subset_takeOver _)) hno
    · rw [hf] at hi
      cases hi
  · intro failure next hi
    rcases hcases with ⟨-, hok⟩ | ⟨before, x, value, after, hsplit, hall, hno, hf⟩
    · rw [hok] at hi
      cases hi
    · rw [hf] at hi
      cases hi
      exact ⟨before, x, value, after, _, _, hsplit, hall, hno, rfl, errorOf_takeOver before _, rfl,
        takesOver_takeOver doc before, rfl⟩
  · intro disk' name' builtIn' text' nodes' h' hn' he
    rw [h'.importModule hn', h.importModule hn, enterAll_eq, he, ← enterAll_eq]

/-- A module gives `y` and changes `x`: where `x` is bound both are taken over, and else only `y` is,
and the import fails at the change. -/
theorem importModule_takesOver_change :
    let text := "#let y a\n#set x b"
    let disk : Disk := .ofEntries [(⟨.above 0, ["m.write"]⟩, ⟨.file text.toUTF8, 0⟩)] 0
    let doc : Document := ⟨⟨.none, []⟩, "", "", .empty, .empty, [], [], []⟩
    let bound : Document := { doc with bindings := ⟨[("x", ⟨"x", some [], false, .builtIn⟩)]⟩ }
    (∃ next, bound.importModule disk "m" false = (.ok (), next) ∧ (next.bindings.get? "y").isSome ∧
      next.importModule disk "m" false = (.ok (), next)) ∧
    ∃ e next, doc.importModule disk "m" false = (.error (.raised e), next) ∧
      e.message = "variable 'x' was never given a value" ∧ (next.bindings.get? "y").isSome := by
  intro text disk doc bound
  have hs : Token.scan "#let y a\n#set x b" = .ok [⟨.keyword .letWord, "let", "#let", ⟨⟨1, 1, 0⟩, ⟨1, 5, 4⟩⟩⟩,
      ⟨.identifier, "y", "y", ⟨⟨1, 6, 5⟩, ⟨1, 7, 6⟩⟩⟩, ⟨.text, "a", "a", ⟨⟨1, 8, 7⟩, ⟨1, 9, 8⟩⟩⟩,
      ⟨.text, "\n", "\n", ⟨⟨1, 9, 8⟩, ⟨2, 1, 9⟩⟩⟩, ⟨.keyword .setWord, "set", "#set", ⟨⟨2, 1, 9⟩, ⟨2, 5, 13⟩⟩⟩,
      ⟨.identifier, "x", "x", ⟨⟨2, 6, 14⟩, ⟨2, 7, 15⟩⟩⟩, ⟨.text, "b", "b", ⟨⟨2, 8, 16⟩, ⟨2, 9, 17⟩⟩⟩,
      ⟨.endOfInput, "", "", ⟨⟨2, 9, 17⟩, ⟨2, 9, 17⟩⟩⟩] := by cbv
  let nodes : List Node := [.bind "y" false [.text "a" ⟨⟨1, 8, 7⟩, ⟨1, 9, 8⟩⟩] ⟨⟨1, 1, 0⟩, ⟨2, 1, 9⟩⟩,
    .bind "x" true [.text "b" ⟨⟨2, 8, 16⟩, ⟨2, 9, 17⟩⟩] ⟨⟨2, 1, 9⟩, ⟨2, 9, 17⟩⟩]
  have hn : Node.ofText text = .ok nodes := by
    rw [Node.ofText, hs]
    rfl
  have hr : disk.readText ⟨.none, ["m.write"]⟩ = .ok text := by
    have hl : disk.locate ⟨.none, ["m.write"]⟩ = .ok ⟨.above 0, ["m.write"]⟩ := rfl
    have hf : disk.fileAt? ⟨.above 0, ["m.write"]⟩ = some text.toUTF8 := rfl
    rw [Disk.readText, Disk.readExactly_of_fileAt? hl rfl hf]
    exact congrArg Except.ok (by decide +kernel)
  have hm : bound.FindsModule disk "m" false text := .file rfl hr
  have hf : doc.FindsModule disk "m" false text := .file rfl hr
  obtain ⟨-, htakes, -, -⟩ := importModule_takesOver hm hn
  obtain ⟨-, -, hfails, -⟩ := importModule_takesOver hf hn
  constructor
  · have hi : bound.importModule disk "m" false = (.ok (), bound.takeOver (Node.entries nodes)) := by
      rw [hm.importModule hn]
      rfl
    exact ⟨_, hi, rfl, (htakes _ hi).2⟩
  · obtain ⟨failure, next, hi⟩ : ∃ failure next, doc.importModule disk "m" false = (.error failure, next) := by
      rw [hf.importModule hn]
      exact ⟨_, _, rfl⟩
    obtain ⟨before, x, value, after, last, e, hsplit, -, -, rfl, -, he, hlast, rfl⟩ := hfails _ _ hi
    obtain ⟨rfl, rfl⟩ : before = [.give "y" [.text "a" ⟨⟨1, 8, 7⟩, ⟨1, 9, 8⟩⟩] ⟨⟨1, 1, 0⟩, ⟨2, 1, 9⟩⟩] ∧ x = "x" := by
      rcases before with _ | ⟨first, _ | ⟨second, before⟩⟩
      · cases hsplit
      · cases hsplit
        exact ⟨rfl, rfl⟩
      · have hlength : 2 = _ := congrArg List.length hsplit
        simp at hlength
    refine ⟨e, _, hi, he, ?_⟩
    rw [hlast.eq_takeOver]
    rfl

end Document

end Markup
