/-
Expansion without definitions is pure.

A node is inert if it defines nothing, gives no variable a value and imports no
module. Where all nodes that a run can come across are inert, those in the document's
macros and variables included, no step enters anything: however the run ends, the
tables are those at its start (`sameTables_expandNode`), so that what is met later is
inert still. A run that gives a text then leaves the document as it was, and runs one
behind the other do not notice each other (`expand_inert`).
-/
import Markup.Proofs.ErrorLedger
import Markup.Proofs.NodesMet

namespace Markup

/-- Whether a node, its parts aside, defines nothing, gives no variable a value and imports no module. -/
def Node.IsInert : Node → Prop
  | .define .. | .bind .. | .use .. => False
  | .text .. | .number .. | .call .. | .reference .. | .stray _ => True

namespace Document

/-- Whether two documents have the same macros and variables. -/
structure SameTables (doc next : Document) : Prop where
  definitions : next.definitions = doc.definitions
  bindings : next.bindings = doc.bindings

section

variable {first doc : Document}

theorem SameTables.refl (doc : Document) : doc.SameTables doc := ⟨rfl, rfl⟩

theorem SameTables.trans {next : Document} (h : first.SameTables doc) (k : doc.SameTables next) : first.SameTables next :=
  ⟨k.definitions.trans h.definitions, k.bindings.trans h.bindings⟩

theorem SameTables.has {p : Node → Prop} (h : first.SameTables doc) (hp : first.Has p) : doc.Has p := by
  constructor
  · rw [h.definitions]
    exact hp.bodies
  · rw [h.bindings]
    exact hp.values

theorem SameTables.enter (h : first.SameTables doc) (name : String) : first.SameTables (doc.enter name) :=
  ⟨h.definitions, h.bindings⟩

theorem SameTables.raise {α : Type} (h : first.SameTables doc) (cause : ExpandError.Cause) :
    first.SameTables (doc.raise cause : Outcome α).2 := ⟨h.definitions, h.bindings⟩

theorem SameTables.andThen {α β : Type} {x : Outcome α} {next : α → Document → Outcome β}
    (h : first.SameTables x.2) (k : ∀ a mid, first.SameTables mid → first.SameTables (next a mid).2) :
    first.SameTables (x.andThen next).2 := by
  obtain ⟨_ | a, mid⟩ := x
  · exact h
  · exact k a mid h

theorem SameTables.thenLeave {α : Type} {x : Outcome α} (h : first.SameTables x.2) :
    first.SameTables (x.thenIn leave).2 := ⟨h.definitions, h.bindings⟩

end

/-! ## One level -/

section

variable {first : Document} {one : Expander}
  (hone : ∀ node doc, (∀ part ∈ node.preorder, part.IsInert) → first.SameTables doc →
    first.SameTables (one node doc).2)
include hone

theorem sameTables_expandAll {nodes : List Node} (hn : ∀ part ∈ Node.preorderAll nodes, part.IsInert)
    {doc : Document} (h : first.SameTables doc) : first.SameTables (expandAll one nodes doc).2 := by
  induction nodes generalizing doc with
  | nil => exact h
  | cons node rest ih =>
    rw [Node.preorderAll, List.forall_mem_append] at hn
    rw [expandAll_cons]
    exact (hone node doc hn.1 h).andThen fun text mid hm => (ih hn.2 hm).andThen fun more last hl => hl

theorem sameTables_fill {params : List String} {groups : List Group}
    (hg : ∀ group ∈ groups, ∀ part ∈ Node.preorderAll group.values, part.IsInert) (text : String)
    {doc : Document} (h : first.SameTables doc) : first.SameTables (fill one params groups text doc).2 := by
  induction params generalizing groups text doc with
  | nil =>
    rw [fill_of_nil one (.inl rfl)]
    exact h
  | cons param params ih =>
    cases groups with
    | nil =>
      rw [fill_of_nil one (.inr rfl)]
      exact h
    | cons group groups =>
      obtain ⟨hgroup, hrest⟩ := List.forall_mem_cons.1 hg
      rw [fill_cons]
      exact (sameTables_expandAll hone hgroup h).andThen fun argument mid hm => ih hrest _ hm

theorem sameTables_expandCall (hfirst : first.Has Node.IsInert) (name : String) {groups : List Group}
    (hg : ∀ group ∈ groups, ∀ part ∈ Node.preorderAll group.values, part.IsInert) {doc : Document}
    (h : first.SameTables doc) : first.SameTables (expandCall one name groups doc).2 := by
  have hdoc := h.has hfirst
  rw [expandCall]
  split
  next d hd =>
    have hbody := hdoc.bodies _ (Table.mem_of_get? hd)
    by_cases hl : groups.length = d.params.length
    · rw [expandMacro_of_length one hl, expandBody_eq]
      refine SameTables.thenLeave ?_
      exact (sameTables_expandAll hone hbody (h.enter name)).andThen fun text mid hm => sameTables_fill hone hg text hm
    · rw [expandMacro, if_pos hl]
      exact h.raise _
  next =>
  split
  next => exact h.raise _
  next b hb =>
  split
  next => exact sameTables_expandAll hone (hdoc.values _ (Table.mem_of_get? hb)) h
  next => exact h.raise _

end

/-! ## A whole run -/

section

variable {first : Document} (hfirst : first.Has Node.IsInert)
include hfirst

/-- However the expansion of an inert node ends, under any limit, the tables are as they were. -/
theorem sameTables_expandNode (disk : Disk) (limit : Nat) (node : Node) (doc : Document)
    (hn : ∀ part ∈ node.preorder, part.IsInert) (h : first.SameTables doc) :
    first.SameTables (expandNode disk limit node doc).2 := by
  induction limit generalizing node doc with
  | zero => exact h
  | succ limit ih =>
    rw [expandNode]
    cases node with
    | text | number => exact h
    | call name groups span =>
      refine sameTables_expandCall ih hfirst name (fun group hg part hp => hn part ?_) h
      exact Node.preorderAll_values_subset hg name span hp
    | reference name => exact sameTables_expandCall ih hfirst name (by simp) h
    | stray => exact h.raise _
    | define name | use name | bind name => exact (hn _ (Node.mem_preorder_self _)).elim

theorem sameTables_expand (disk : Disk) (limit : Nat) {nodes : List Node} {doc : Document}
    (hn : ∀ part ∈ Node.preorderAll nodes, part.IsInert) (h : first.SameTables doc) :
    first.SameTables (expand disk limit nodes doc).2 := by
  induction nodes generalizing doc with
  | nil => exact h
  | cons node rest ih =>
    rw [Node.preorderAll, List.forall_mem_append] at hn
    have hnode := sameTables_expandNode hfirst disk limit node doc hn.1 h
    cases hr : expandNode disk limit node doc with
    | mk r mid =>
    rw [hr] at hnode
    cases r with
    | error e =>
      rw [expand_cons_of_error hr]
      cases e <;> exact ⟨hnode.definitions, hnode.bindings⟩
    | ok text =>
      rw [expand_cons_of_ok hr]
      exact ih hn.2 hnode

end

theorem expand_eq_of_inert {doc : Document} (hd : doc.Has Node.IsInert) {disk : Disk} {limit : Nat}
    {nodes : List Node} (hn : ∀ part ∈ Node.preorderAll nodes, part.IsInert) {text : String}
    (h : (expand disk limit nodes doc).1 = .ok text) : expand disk limit nodes doc = (.ok text, doc) := by
  have htables := sameTables_expand hd disk limit hn (.refl doc)
  have hframe := sameFrame_expand disk limit nodes doc
  have herrors := errors_of_expand_ok h
  refine Prod.ext h ?_
  generalize (expand disk limit nodes doc).2 = last at htables hframe herrors
  obtain ⟨_, _, _, _, _, _, _, _⟩ := last
  obtain ⟨rfl, rfl⟩ := htables
  obtain ⟨rfl, rfl, rfl, rfl, rfl⟩ := hframe
  obtain rfl := herrors
  rfl

/-- Where no node defines anything, gives a variable a value or imports a module, neither among those
that are expanded nor among those that the document has for its names, expansion leaves the tables as
they are, also if it fails or ends at its limit. So nodes that have a text by themselves, taken in any
order and any number of times, have these texts joined, and leave the document as it was. -/
theorem expand_inert {doc : Document} (hd : doc.Has Node.IsInert) (disk : Disk) (limit : Nat) :
    (∀ node : Node, (∀ part ∈ node.preorder, part.IsInert) → doc.SameTables (expandNode disk limit node doc).2) ∧
      (∀ nodes, (∀ part ∈ Node.preorderAll nodes, part.IsInert) → doc.SameTables (expand disk limit nodes doc).2) ∧
      ∀ (runs : List (List Node)) (texts : List String),
        (∀ nodes ∈ runs, ∀ part ∈ Node.preorderAll nodes, part.IsInert) →
        List.Forall₂ (fun nodes text => (expand disk limit nodes doc).1 = .ok text) runs texts →
        expand disk limit runs.flatten doc = (.ok (String.join texts), doc) := by
  refine ⟨fun node hn => sameTables_expandNode hd disk limit node doc hn (.refl doc),
    fun nodes hn => sameTables_expand hd disk limit hn (.refl doc), fun runs texts hn h => ?_⟩
  induction h with
  | nil => rfl
  | @cons nodes text runs texts hrun _ ih =>
    obtain ⟨hfirst, hrest⟩ := List.forall_mem_cons.1 hn
    rw [List.flatten_cons, expand_append, expand_eq_of_inert hd hfirst hrun]
    simp only [ih hrest, Except.map, String.join_cons]

/-- `f` is called with a variable, in between of texts; a call of `loop`, which calls itself, ends at
the limit. -/
theorem expand_inert_beside_loop :
    let f : Node := .call "f" [⟨0, [.reference "v" false .builtIn], .builtIn⟩] .builtIn
    let text : Node := .text "b" .builtIn
    let loop : Node := .call "loop" [] .builtIn
    let doc : Document := ⟨⟨.none, []⟩, "", "", ⟨[("f", ⟨"f", ["x"], [.text "[$x]" .builtIn], .builtIn⟩),
      ("loop", ⟨"loop", [], [text, loop], .builtIn⟩)]⟩,
      ⟨[("v", ⟨"v", some [.text "w" .builtIn], false, .builtIn⟩)]⟩, [], [], []⟩
    doc.Has Node.IsInert ∧ expand .empty 9 [f, text, f] doc = (.ok "[w]b[w]", doc) ∧
      (expand .empty 9 [f, loop] doc).1 = .error (.failed [⟨.tooDeep, none, "", [], none⟩]) ∧
      doc.SameTables (expand .empty 9 [f, loop] doc).2 := by
  intro f text loop doc
  have hd : doc.Has Node.IsInert := by
    constructor
    · simp [doc, text, loop, Node.preorderAll, Node.preorder, Group.preorderAll, Node.IsInert]
    · simp [doc, Binding.nodes, Node.preorderAll, Node.preorder, Node.IsInert]
  have hparts : ∀ part ∈ Node.preorderAll [f, text, f, loop], part.IsInert := by
    simp [f, text, loop, Node.preorderAll, Node.preorder, Group.preorderAll, Group.preorder, Node.IsInert]
  simp only [Node.preorderAll, List.forall_mem_append] at hparts
  obtain ⟨hcall, htext, -, hloop, -⟩ := hparts
  obtain ⟨-, htables, hruns⟩ := expand_inert hd .empty 9
  have hdeep : (expand .empty 9 [f, loop] doc).1 = .error (.failed [⟨.tooDeep, none, "", [], none⟩]) := by decide +kernel
  refine ⟨hd, ?_, hdeep, htables [f, loop] ?_⟩
  · have hf : (expand .empty 9 [f] doc).1 = .ok "[w]" := by decide +kernel
    have ht : (expand .empty 9 [text] doc).1 = .ok "b" := rfl
    refine hruns [[f], [text], [f]] ["[w]", "b", "[w]"] ?_ (.cons hf (.cons ht (.cons hf .nil)))
    simp only [List.forall_mem_cons, Node.preorderAll_singleton]
    exact ⟨hcall, htext, hcall, List.forall_mem_nil _⟩
  · rw [Node.preorderAll, Node.preorderAll_singleton, List.forall_mem_append]
    exact ⟨hcall, hloop⟩

end Document

end Markup
