/-
What is defined under other names does not matter.

A document with further macros and variables expands nodes as it does without
them, if their names occur nowhere: not in the nodes, not in what the document's
own names stand for, and not in a module that the run imports
(`expand_addedTo`). The two runs go side by side (`expand_twin`), over the same
nodes; every name that the first one looks up, defines or changes is one that
occurs, so it finds the same in both tables, and what is added stays as it is.
-/
import Markup.Proofs.FileFaults
import Markup.Proofs.TwinRuns

namespace Markup

/-! ## The names that occur -/

namespace Node

/-- Whether none of some names occurs in nodes, however deep. -/
def Free (names : List String) (nodes : List Node) : Prop :=
  ∀ node ∈ preorderAll nodes, ∀ name, node.name? = some name → name ∉ names

variable {names : List String}

instance (nodes : List Node) : Decidable (Free names nodes) :=
  decidable_of_iff (∀ node ∈ preorderAll nodes, ∀ name ∈ node.name?.toList, name ∉ names) (by simp [Free])

set_option maxRecDepth 20000 in
theorem free_of_mem_moduleTexts : ∀ entry ∈ BuiltIn.moduleTexts, Free ["g", "y"] (ofChars entry.2.toList) := by
  simp only [BuiltIn.moduleTexts, List.forall_mem_cons, BuiltIn.htmlText, BuiltIn.markdownText, String.toList_join,
    List.map_cons, List.map_nil, List.flatMap_cons, List.flatMap_nil, String.toList_append]
  -- A literal is compared with its characters at once, where reading them off it takes long.
  repeat rw [String.toList_ofList]
  exact ⟨by decide +kernel, by decide +kernel, nofun⟩

end Node

theorem Disk.readText_empty_ne_ok (path : Path) (text : String) : Disk.empty.readText path ≠ .ok text := by
  intro h
  rw [readText, readExactly] at h
  cases hb : Disk.empty.readBytes path with
  | error e => simp [hb] at h
  | ok bytes =>
    obtain ⟨l, _, time, -, he⟩ := exists_entry_of_isFile (isFile_of_readBytes hb)
    rw [ entry?] at he
    split at he
    next => cases he
    next => cases he

/-! ## What is added -/

/-- Macros and variables that are added to a document. -/
structure Additions where
  definitions : Table Definition
  bindings : Table Binding

namespace Additions

variable {E : Additions}

/-- The names that are added. -/
def names (E : Additions) : List String := E.definitions.names ++ E.bindings.names

/-- Whether the macros and variables of a document are those of another one, in the same order, and the
additions, in theirs; the names of the additions are none of the other's. -/
structure AddedTo (E : Additions) (doc larger : Document) : Prop where
  directory : larger.directory = doc.directory
  fileName : larger.fileName = doc.fileName
  source : larger.source = doc.source
  definitions : (larger.definitions.entries.filter fun entry => decide (entry.1 ∉ E.names)) = doc.definitions.entries
  addedDefinitions :
    (larger.definitions.entries.filter fun entry => decide (entry.1 ∈ E.names)) = E.definitions.entries
  bindings : (larger.bindings.entries.filter fun entry => decide (entry.1 ∉ E.names)) = doc.bindings.entries
  addedBindings : (larger.bindings.entries.filter fun entry => decide (entry.1 ∈ E.names)) = E.bindings.entries
  errors : larger.errors = doc.errors
  modulePaths : larger.modulePaths = doc.modulePaths
  callStack : larger.callStack = doc.callStack

/-- The same nodes without the added names, in documents with the additions and without. -/
def twins (E : Additions) : Twins where
  toTextTwins := .equal
  nodes ours theirs := theirs = ours ∧ Node.Free E.names ours
  span ours theirs := theirs = ours
  source s t := t = s
  known name := decide (name ∉ E.names)
  definitions := E.definitions.entries
  bindings := E.bindings.entries
  twin_of_nodes {_ theirs} h := by
    obtain ⟨rfl, hf⟩ := h
    nth_rewrite 2 [← Node.map_moved_id theirs]
    exact Node.forall₂_twin_moved (p := fun node => ∀ name, node.name? = some name → name ∉ E.names)
      (fun hp => ⟨Node.map_moved_id _, hp⟩) (fun _ => rfl) (fun hp hn => decide_eq_true (hp _ hn)) hf

theorem AddedTo.twin {doc larger : Document} (h : E.AddedTo doc larger)
    (hd : ∀ entry ∈ doc.definitions.entries, Node.Free E.names entry.2.body)
    (hb : ∀ entry ∈ doc.bindings.entries, Node.Free E.names entry.2.nodes) : doc.Twin E.twins larger where
  directory := h.directory
  fileName := h.fileName
  source := h.source
  definitions := by
    refine ⟨?_, by simpa [twins] using h.addedDefinitions⟩
    simp only [twins, h.definitions]
    exact List.forall₂_same.2 fun entry he => ⟨rfl, rfl, rfl, fun _ _ => trivial, ⟨rfl, hd entry he⟩, rfl⟩
  bindings := by
    refine ⟨?_, by simpa [twins] using h.addedBindings⟩
    simp only [twins, h.bindings]
    exact List.forall₂_same.2 fun entry he => ⟨rfl, rfl, rfl, ⟨rfl, hb entry he⟩, rfl, rfl⟩
  errors := h.errors
  modulePaths := h.modulePaths
  callStack := h.callStack

theorem eq_of_twin_definition {d other : Definition} (h : d.Twin E.twins other) : other = d := by
  obtain ⟨_, _, _, _⟩ := d
  obtain ⟨_, _, _, _⟩ := other
  obtain ⟨rfl, rfl, -, ⟨rfl, -⟩, rfl⟩ := h
  rfl

theorem eq_of_twin_binding {b other : Binding} (h : b.Twin E.twins other) : other = b := by
  obtain ⟨_, value, _, _⟩ := b
  obtain ⟨_, twin, _, _⟩ := other
  obtain ⟨rfl, hsome, ⟨hnodes, -⟩, rfl, rfl⟩ := h
  cases value with
  | none =>
    cases twin with
    | none => rfl
    | some => cases hsome
  | some =>
    cases twin with
    | none => cases hsome
    | some =>
      obtain rfl : _ = _ := hnodes
      rfl

theorem eq_of_forall₂_entry {α : Type} {R : α → α → Prop} (hr : ∀ {a b}, R a b → b = a)
    {entries others : List (String × α)} (h : List.Forall₂ (Table.Entry R) entries others) : others = entries := by
  induction h with
  | nil => rfl
  | cons he _ ih => rw [ih, Prod.ext he.1 (hr he.2)]

theorem addedTo_of_twin {doc larger : Document} (h : doc.Twin E.twins larger) : E.AddedTo doc larger where
  directory := h.directory
  fileName := h.fileName
  source := h.source
  definitions := eq_of_forall₂_entry eq_of_twin_definition h.definitions.same
  addedDefinitions := by simpa [twins] using h.definitions.others
  bindings := eq_of_forall₂_entry eq_of_twin_binding h.bindings.same
  addedBindings := by simpa [twins] using h.bindings.others
  errors := h.errors
  modulePaths := h.modulePaths
  callStack := h.callStack

theorem eq_of_twin_stop {s t : Document.Stop}
    (h : Document.Stop.Twin E.twins (fun place around => around = place) s t) : t = s := by
  cases h with
  | disk => rfl
  | failed _ hs ht =>
    obtain rfl := hs
    obtain rfl := ht
    rfl

end Additions

namespace Document

theorem moduleNodes_of_imports {limit : Nat} {nodes : List Node} {doc : Document} {tree : List Node}
    (h : Imports .empty limit nodes doc tree) : ∃ name, BuiltIn.moduleNodes? name = some tree := by
  rcases h.cases with hm | ⟨path, text, hr, -⟩
  · exact hm
  · exact absurd hr (Disk.readText_empty_ne_ok path text)

/-- Macros and variables whose names occur neither in nodes, nor in what a document's names stand for,
nor in a module that is imported, change nothing: nodes have the same text, or the same errors are
reported, and the additions are still all that is added afterwards. -/
theorem expand_addedTo {E : Additions} {doc larger : Document} (h : E.AddedTo doc larger) (disk : Disk) (limit : Nat)
    {nodes : List Node} (hn : Node.Free E.names nodes)
    (hd : ∀ entry ∈ doc.definitions.entries, Node.Free E.names entry.2.body)
    (hb : ∀ entry ∈ doc.bindings.entries, Node.Free E.names entry.2.nodes)
    (hi : ∀ tree, Imports disk limit nodes doc tree → Node.Free E.names tree) :
    (expand disk limit nodes larger).1 = (expand disk limit nodes doc).1 ∧
      E.AddedTo (expand disk limit nodes doc).2 (expand disk limit nodes larger).2 := by
  obtain ⟨hresult, hdoc⟩ := expand_twin (T := E.twins) (S := fun place around => around = place)
    (fun tree ht => ⟨rfl, hi tree ht⟩) (E.twins.twin_of_nodes ⟨rfl, hn⟩) (List.forall₂_same.2 fun _ _ => rfl)
    (h.twin hd hb)
  refine ⟨?_, Additions.addedTo_of_twin hdoc⟩
  generalize (expand disk limit nodes doc).1 = result at hresult
  generalize (expand disk limit nodes larger).1 = result' at hresult
  cases hresult with
  | ok ht => rw [ht]
  | error hs => rw [Additions.eq_of_twin_stop hs]

/-- Behind the import of a module, `f` is called inside of one of its macros and refers to `x`, which
has been changed by then; that `g` and `y` are defined as well makes no difference. -/
theorem expand_addedTo_import :
    let here : Span := ⟨⟨1, 1, 0⟩, ⟨1, 2, 1⟩⟩
    let f : Definition := ⟨"f", ["a"], [.text "<$a>" here, .reference "x" false here], here⟩
    let g : Definition := ⟨"g", [], [.call "f" [⟨0, [], here⟩] here], here⟩
    let x : Binding := ⟨"x", some [.text "old" here], false, here⟩
    let y : Binding := ⟨"y", some [.reference "x" false here], false, here⟩
    let doc : Document := ⟨⟨.none, []⟩, "", "", ⟨[("f", f)]⟩, ⟨[("x", x)]⟩, [], [], []⟩
    let larger : Document := ⟨⟨.none, []⟩, "", "", ⟨[("g", g), ("f", f)]⟩, ⟨[("x", x), ("y", y)]⟩, [], [], []⟩
    let E : Additions := ⟨⟨[("g", g)]⟩, ⟨[("y", y)]⟩⟩
    let nodes : List Node := [.use "html" true here, .bind "x" true [.text "new" here] here,
      .call "bold" [⟨0, [.call "f" [⟨0, [.text "!" here], here⟩] here], here⟩] here]
    (expand .empty 3 nodes larger).1 = (expand .empty 3 nodes doc).1 ∧
      E.AddedTo (expand .empty 3 nodes doc).2 (expand .empty 3 nodes larger).2 := by
  intro here f g x y doc larger E nodes
  have hE : E.AddedTo doc larger := ⟨rfl, rfl, rfl, rfl, rfl, rfl, rfl, rfl, rfl, rfl⟩
  refine expand_addedTo hE .empty 3 (by decide) (by decide) (by decide) ?_
  intro tree ht
  obtain ⟨name, hm⟩ := moduleNodes_of_imports ht
  obtain ⟨text, hmem, rfl⟩ := exists_mem_moduleTexts hm
  rw [← Node.ofChars_toList]
  exact Node.free_of_mem_moduleTexts _ hmem

end Document

end Markup
