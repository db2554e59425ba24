/-
Documents whose names can be ranked end.

If every definition of a name, wherever it stands, is built of calls of lower
names, then one limit on nesting is enough for the whole run, although macros
and variables are replaced on the way (`exists_limit_of_ranked`).

What is nested deeper is either a part of the same node, and less high, or
what a lower name stands for. All that a name may come to stand for is in the
document or the nodes when the run begins, or ships with the language, so
nothing of it is higher than some `top`; nodes that call only names below `r`
then need a limit of `r * (top + 1)` and their own height (`Fits`).
-/
import Markup.Proofs.DepthLimit
import Markup.Proofs.Preorder
import Mathlib.Algebra.Order.BigOperators.Group.List
import Mathlib.Algebra.Order.Group.Nat

namespace Markup

/-! ## Calls and heights -/

mutual

/-- The names that a node calls or refers to, those in definitions and values in it apart. A group
outside a call is never expanded. -/
def Node.callees : Node → List String
  | .call name groups _ => name :: Group.calleesAll groups
  | .reference name _ _ => [name]
  | .text .. | .number .. | .use .. | .define .. | .bind .. | .stray _ => []

/-- The names that nodes call or refer to. -/
def Node.calleesAll : List Node → List String
  | [] => []
  | node :: rest => node.callees ++ Node.calleesAll rest

/-- The names that a group calls or refers to. -/
def Group.callees : Group → List String
  | ⟨_, values, _⟩ => Node.calleesAll values

/-- The names that groups call or refer to. -/
def Group.calleesAll : List Group → List String
  | [] => []
  | group :: rest => group.callees ++ Group.calleesAll rest

end

mutual

/-- How deep a node is nested, definitions and values in it included. -/
def Node.height : Node → Nat
  | .call _ groups _ => Group.heightAll groups + 1
  | .define _ _ body _ => Node.heightAll body + 1
  | .bind _ _ value _ => Node.heightAll value + 1
  | .text .. | .number .. | .use .. | .reference .. | .stray _ => 1

/-- The height of the highest of some nodes. -/
def Node.heightAll : List Node → Nat
  | [] => 0
  | node :: rest => max node.height (Node.heightAll rest)

/-- The height of the highest node in a group. -/
def Group.height : Group → Nat
  | ⟨_, values, _⟩ => Node.heightAll values

/-- The height of the highest node in some groups. -/
def Group.heightAll : List Group → Nat
  | [] => 0
  | group :: rest => max group.height (Group.heightAll rest)

end

namespace Node

theorem mem_calleesAll {node : Node} {nodes : List Node} (h : node ∈ nodes) {callee : String}
    (hc : callee ∈ node.callees) : callee ∈ calleesAll nodes := by
  induction nodes with
  | nil => cases h
  | cons first rest ih =>
    rw [calleesAll, List.mem_append]
    rcases List.mem_cons.1 h with rfl | h
    · exact .inl hc
    · exact .inr (ih h)

theorem mem_groupCalleesAll {group : Group} {groups : List Group} (h : group ∈ groups) {callee : String}
    (hc : callee ∈ calleesAll group.values) : callee ∈ Group.calleesAll groups := by
  obtain ⟨index, values, span⟩ := group
  induction groups with
  | nil => cases h
  | cons first rest ih =>
    rw [Group.calleesAll, List.mem_append]
    rcases List.mem_cons.1 h with rfl | h
    · exact .inl hc
    · exact .inr (ih h)

theorem height_le_heightAll {node : Node} {nodes : List Node} (h : node ∈ nodes) :
    node.height ≤ heightAll nodes := by
  induction nodes with
  | nil => cases h
  | cons first rest ih =>
    rw [heightAll]
    rcases List.mem_cons.1 h with rfl | h
    · exact Nat.le_max_left _ _
    · exact Nat.le_trans (ih h) (Nat.le_max_right _ _)

theorem heightAll_values_le {group : Group} {groups : List Group} (h : group ∈ groups) :
    heightAll group.values ≤ Group.heightAll groups := by
  obtain ⟨index, values, span⟩ := group
  induction groups with
  | nil => cases h
  | cons first rest ih =>
    rw [Group.heightAll]
    rcases List.mem_cons.1 h with rfl | h
    · exact Nat.le_max_left _ _
    · exact Nat.le_trans (ih h) (Nat.le_max_right _ _)

theorem height_pos (node : Node) : 0 < node.height := by
  cases node <;> simp [height]

/-! ## Ranks -/

/-- Whether what a name stands for calls only lower names. -/
def CallsBelow (rank : String → Nat) (name : String) (body : List Node) : Prop :=
  ∀ callee ∈ calleesAll body, rank callee < rank name

/-- Whether a node, if it says what a name stands for, says it by lower names. -/
def DefinesBelow (rank : String → Nat) : Node → Prop
  | .define name _ body _ => CallsBelow rank name body
  | .bind name _ value _ => CallsBelow rank name value
  | .text .. | .number .. | .call .. | .use .. | .reference .. | .stray _ => True

/-- Whether the definitions in nodes, however deep, are by lower names, and no file is imported. -/
structure RankedBy (rank : String → Nat) (nodes : List Node) : Prop where
  below : ∀ node ∈ preorderAll nodes, node.DefinesBelow rank
  noFile : ∀ node ∈ preorderAll nodes, ∀ moduleName span, node ≠ .use moduleName false span

variable {rank : String → Nat}

theorem RankedBy.of_subset {nodes parts : List Node} (h : RankedBy rank nodes)
    (hs : ∀ node ∈ preorderAll parts, node ∈ preorderAll nodes) : RankedBy rank parts :=
  ⟨fun node hn => h.below node (hs node hn), fun node hn => h.noFile node (hs node hn)⟩

theorem RankedBy.of_mem {nodes : List Node} (h : RankedBy rank nodes) {node : Node} (hn : node ∈ nodes) :
    RankedBy rank [node] := by
  refine h.of_subset fun part hp => ?_
  rw [preorderAll_singleton] at hp
  exact mem_preorderAll_iff.2 ⟨node, hn, hp⟩

theorem RankedBy.values {name : String} {groups : List Group} {span : Span}
    (h : RankedBy rank [.call name groups span]) {group : Group} (hg : group ∈ groups) :
    RankedBy rank group.values := by
  refine h.of_subset fun part hp => ?_
  rw [preorderAll_singleton]
  exact preorderAll_values_subset hg name span hp

theorem RankedBy.body {name : String} {params : List String} {body : List Node} {span : Span}
    (h : RankedBy rank [.define name params body span]) : CallsBelow rank name body ∧ RankedBy rank body := by
  constructor
  · exact h.below _ (by rw [preorderAll_singleton]; exact mem_preorder_self _)
  · refine h.of_subset fun part hp => ?_
    rw [preorderAll_singleton]
    exact preorderAll_body_subset name params body span hp

theorem RankedBy.value {name : String} {changes : Bool} {value : List Node} {span : Span}
    (h : RankedBy rank [.bind name changes value span]) : CallsBelow rank name value ∧ RankedBy rank value := by
  constructor
  · exact h.below _ (by rw [preorderAll_singleton]; exact mem_preorder_self _)
  · refine h.of_subset fun part hp => ?_
    rw [preorderAll_singleton]
    exact preorderAll_value_subset name changes value span hp

theorem RankedBy.builtIn {moduleName : String} {builtIn : Bool} {span : Span}
    (h : RankedBy rank [.use moduleName builtIn span]) : builtIn = true := by
  cases builtIn with
  | true => rfl
  | false =>
    refine absurd rfl (h.noFile _ ?_ moduleName span)
    rw [preorderAll_singleton]
    exact mem_preorder_self _

/-! ## The modules that ship with the language -/

/-- Whether a node says what a name stands for without any name, and imports no file. -/
def isPlain : Node → Bool
  | .define _ _ body _ => (calleesAll body).isEmpty
  | .bind _ _ value _ => (calleesAll value).isEmpty
  | .use _ builtIn _ => builtIn
  | .text .. | .number .. | .call .. | .reference .. | .stray _ => true

theorem rankedBy_of_isPlain {nodes : List Node} (h : (preorderAll nodes).all isPlain = true) :
    RankedBy rank nodes := by
  have hplain : ∀ node ∈ preorderAll nodes, node.isPlain = true := List.all_eq_true.1 h
  have hnone : ∀ (name : String) {body : List Node}, (calleesAll body).isEmpty = true →
      CallsBelow rank name body := by
    intro name body hb callee hc
    rw [List.isEmpty_iff.1 hb] at hc
    cases hc
  constructor
  · intro node hn
    have hp := hplain node hn
    cases node with
    | define name | bind name => exact hnone name hp
    | text | number | call | use | reference | stray => trivial
  · rintro _ hn moduleName span rfl
    exact absurd (hplain _ hn) (by simp [isPlain])

set_option maxRecDepth 20000 in
theorem isPlain_of_mem_moduleTexts : ∀ entry ∈ BuiltIn.moduleTexts,
    (preorderAll (ofChars entry.2.toList)).all isPlain = true := by
  simp only [BuiltIn.moduleTexts, List.forall_mem_cons, BuiltIn.htmlText, BuiltIn.markdownText, String.toList_join,
    List.map_cons, List.map_nil, List.flatMap_cons, List.flatMap_nil, String.toList_append]
  -- A literal is compared with its characters at once, where reading them off it takes long.
  repeat rw [String.toList_ofList]
  exact ⟨by decide +kernel, by decide +kernel, nofun⟩

end Node

/-- The modules that ship with the language define their names by text alone. -/
theorem BuiltIn.rankedBy_moduleNodes {rank : String → Nat} {name : String} {nodes : List Node}
    (h : moduleNodes? name = some nodes) : Node.RankedBy rank nodes := by
  obtain ⟨text, hm, rfl⟩ := Document.exists_mem_moduleTexts h
  rw [← Node.ofChars_toList]
  exact Node.rankedBy_of_isPlain (Node.isPlain_of_mem_moduleTexts _ hm)

namespace Document

variable {rank : String → Nat} {top : Nat}

/-! ## Documents that fit ranks -/

/-- Whether every name that a document knows stands for nodes that fit ranks. -/
structure RankedBy (rank : String → Nat) (doc : Document) : Prop where
  definitions : ∀ name d, doc.definitions.get? name = some d →
    Node.CallsBelow rank name d.body ∧ Node.RankedBy rank d.body
  bindings : ∀ name b, doc.bindings.get? name = some b →
    Node.CallsBelow rank name b.nodes ∧ Node.RankedBy rank b.nodes

/-- Whether what every name stands for is, besides, no higher than `top`. -/
structure RankedUpTo (rank : String → Nat) (top : Nat) (doc : Document) : Prop extends RankedBy rank doc where
  definitions_le : ∀ name d, doc.definitions.get? name = some d → Node.heightAll d.body ≤ top
  bindings_le : ∀ name b, doc.bindings.get? name = some b → Node.heightAll b.nodes ≤ top

theorem RankedUpTo.define {doc : Document} (h : doc.RankedUpTo rank top) {d : Definition}
    (hb : Node.CallsBelow rank d.name d.body) (hr : Node.RankedBy rank d.body)
    (hh : Node.heightAll d.body ≤ top) : (doc.define d).RankedUpTo rank top := by
  refine ⟨⟨?_, h.bindings⟩, ?_, h.bindings_le⟩
  · intro name e he
    rw [Document.define, Table.get?_insert] at he
    split at he
    next hn => cases he; exact hn ▸ ⟨hb, hr⟩
    next => exact h.definitions name e he
  · intro name e he
    rw [Document.define, Table.get?_insert] at he
    split at he
    next => cases he; exact hh
    next => exact h.definitions_le name e he

theorem RankedUpTo.insertBinding {doc : Document} (h : doc.RankedUpTo rank top) {name : String} {b : Binding}
    (hb : Node.CallsBelow rank name b.nodes) (hr : Node.RankedBy rank b.nodes)
    (hh : Node.heightAll b.nodes ≤ top) :
    RankedUpTo rank top { doc with bindings := doc.bindings.insert name b } := by
  refine ⟨⟨h.definitions, ?_⟩, h.definitions_le, ?_⟩
  · intro other e he
    rw [Table.get?_insert] at he
    split at he
    next hn => cases he; exact hn ▸ ⟨hb, hr⟩
    next => exact h.bindings other e he
  · intro other e he
    rw [Table.get?_insert] at he
    split at he
    next => cases he; exact hh
    next => exact h.bindings_le other e he

/-! ## Steps that do not end at the limit -/

/-- Whether a failure is not that of the limit, and is the error that the document has recorded last. -/
def Failure.IsOther (doc : Document) : Failure → Prop
  | .raised e => doc.errors.getLast? = some e ∧ e.cause ≠ .tooDeep
  | .tooDeep => False
  | .disk _ => True

/-- Whether a step fails for another reason than the limit, or leaves a document with a property. -/
def Completes {α : Type} (P : Document → Prop) : Outcome α → Prop
  | (.ok _, doc) => P doc
  | (.error e, doc) => e.IsOther doc

namespace Completes

variable {α β : Type} {P Q : Document → Prop}

theorem andThen {x : Outcome α} {next : α → Document → Outcome β} (h : Completes P x)
    (k : ∀ a doc, P doc → Completes Q (next a doc)) : Completes Q (x.andThen next) := by
  obtain ⟨_ | a, doc⟩ := x
  · exact h
  · exact k a doc h

theorem thenIn {x : Outcome α} (h : Completes P x) {change : Document → Document}
    (he : ∀ doc, (change doc).errors = doc.errors) (k : ∀ doc, P doc → Q (change doc)) :
    Completes Q (x.thenIn change) := by
  obtain ⟨e | a, doc⟩ := x
  · cases e with
    | raised e => exact ⟨(congrArg List.getLast? (he doc)).trans h.1, h.2⟩
    | tooDeep | disk => exact h
  · exact k doc h

theorem raise (doc : Document) {cause : ExpandError.Cause} (h : cause ≠ .tooDeep) :
    Completes P (doc.raise cause : Outcome α) := by
  refine ⟨?_, h⟩
  simp [record]

end Completes

theorem completes_bind {doc : Document} (h : doc.RankedUpTo rank top) {name : String} {value : List Node}
    (changes : Bool) (span : Span) (hb : Node.CallsBelow rank name value) (hr : Node.RankedBy rank value)
    (hh : Node.heightAll value ≤ top) : Completes (RankedUpTo rank top) (doc.bind name changes value span) := by
  rw [Document.bind]
  split
  next =>
    split
    next => exact .raise _ nofun
    next => exact h.insertBinding hb hr hh
  next => exact h.insertBinding hb hr hh

theorem completes_enterAll {nodes : List Node} (hr : Node.RankedBy rank nodes)
    (hh : Node.heightAll nodes ≤ top) {doc : Document} (h : doc.RankedUpTo rank top) :
    Completes (RankedUpTo rank top) (doc.enterAll nodes) := by
  induction nodes generalizing doc with
  | nil => exact h
  | cons node rest ih =>
    have hnode := hr.of_mem List.mem_cons_self
    have hrest : Node.RankedBy rank rest := hr.of_subset fun part hp => List.mem_append_right _ hp
    rw [Node.heightAll, Nat.max_le] at hh
    obtain ⟨hh, hmore⟩ := hh
    cases node with
    | define name params body span =>
      rw [Node.height] at hh
      obtain ⟨hb, hbody⟩ := hnode.body
      rw [enterAll_define]
      exact ih hrest hmore (h.define hb hbody (by simp only; omega))
    | bind name changes value span =>
      rw [Node.height] at hh
      obtain ⟨hb, hvalue⟩ := hnode.value
      rw [enterAll_bind]
      exact (completes_bind h changes span hb hvalue (by omega)).andThen fun _ doc hd => ih hrest hmore hd
    | text | number | call | use | reference | stray => exact ih hrest hmore h

theorem completes_importModule (htop : ∀ name nodes, BuiltIn.moduleNodes? name = some nodes →
    Node.heightAll nodes ≤ top) {doc : Document} (h : doc.RankedUpTo rank top) (disk : Disk) (name : String) :
    Completes (RankedUpTo rank top) (doc.importModule disk name true) := by
  rw [importModule_eq, loadModule, if_pos rfl]
  split
  next => exact .raise _ nofun
  next nodes hn => exact completes_enterAll (BuiltIn.rankedBy_moduleNodes hn) (htop name nodes hn) h

/-! ## One level -/

/-- Whether a limit is enough for nodes: their calls lie below some rank `r`, and what these stand for
takes at most `r * (top + 1)` levels. -/
structure Fits (rank : String → Nat) (top limit : Nat) (nodes : List Node) : Prop where
  ranked : Node.RankedBy rank nodes
  height_le : Node.heightAll nodes ≤ top
  enough : ∃ r, (∀ callee ∈ Node.calleesAll nodes, rank callee < r) ∧
    r * (top + 1) + Node.heightAll nodes ≤ limit

theorem Fits.of_mem {limit : Nat} {nodes : List Node} (h : Fits rank top limit nodes) {node : Node}
    (hn : node ∈ nodes) : Fits rank top limit [node] := by
  obtain ⟨r, hc, hl⟩ := h.enough
  have hh := Node.height_le_heightAll hn
  have hone : Node.heightAll [node] = node.height := by simp [Node.heightAll]
  have htop := h.height_le
  refine ⟨h.ranked.of_mem hn, by omega, r, ?_, by omega⟩
  intro callee hm
  rw [Node.calleesAll, Node.calleesAll, List.append_nil] at hm
  exact hc callee (Node.mem_calleesAll hn hm)

/-- What a lower name stands for takes one level less. -/
theorem fits_body {limit r : Nat} {name : String} {body : List Node} (hr : rank name < r)
    (hl : r * (top + 1) ≤ limit) (hb : Node.CallsBelow rank name body) (hranked : Node.RankedBy rank body)
    (hh : Node.heightAll body ≤ top) : Fits rank top (limit - 1) body := by
  have hstep : (rank name + 1) * (top + 1) ≤ r * (top + 1) := Nat.mul_le_mul_right _ hr
  rw [Nat.add_mul, Nat.one_mul] at hstep
  exact ⟨hranked, hh, rank name, hb, by omega⟩

section

variable {limit : Nat} {one : Expander} (hone : ∀ node doc, Fits rank top limit [node] →
  doc.RankedUpTo rank top → Completes (RankedUpTo rank top) (one node doc))
include hone

theorem completes_expandAll {nodes : List Node} (hn : Fits rank top limit nodes) {doc : Document}
    (h : doc.RankedUpTo rank top) : Completes (RankedUpTo rank top) (expandAll one nodes doc) := by
  have hfits : ∀ node ∈ nodes, Fits rank top limit [node] := fun node hm => hn.of_mem hm
  clear hn
  induction nodes generalizing doc with
  | nil => exact h
  | cons node rest ih =>
    obtain ⟨hnode, hrest⟩ := List.forall_mem_cons.1 hfits
    rw [expandAll_cons]
    exact (hone node doc hnode h).andThen fun text doc hd => (ih hd hrest).andThen fun more doc hd => hd

theorem completes_fill {params : List String} {groups : List Group}
    (hg : ∀ group ∈ groups, Fits rank top limit group.values) (text : String) {doc : Document}
    (h : doc.RankedUpTo rank top) : Completes (RankedUpTo rank top) (fill one params groups text doc) := by
  induction params generalizing groups text doc with
  | nil => rw [fill_of_nil one (.inl rfl)]; exact h
  | cons param params ih =>
    cases groups with
    | nil => rw [fill_of_nil one (.inr rfl)]; exact h
    | cons group groups =>
      obtain ⟨hgroup, hrest⟩ := List.forall_mem_cons.1 hg
      rw [fill_cons]
      exact (completes_expandAll hone hgroup h).andThen fun argument doc hd => ih hrest _ hd

theorem completes_expandCall {name : String} {groups : List Group} {doc : Document}
    (h : doc.RankedUpTo rank top) {r : Nat} (hr : rank name < r) (hl : r * (top + 1) ≤ limit + 1)
    (hg : ∀ group ∈ groups, Fits rank top limit group.values) :
    Completes (RankedUpTo rank top) (expandCall one name groups doc) := by
  rw [expandCall]
  split
  next d hd =>
    obtain ⟨hb, hranked⟩ := h.definitions name d hd
    have hbody : Fits rank top limit d.body := fits_body hr hl hb hranked (h.definitions_le name d hd)
    by_cases hlen : groups.length = d.params.length
    · rw [expandMacro_of_length one hlen, expandBody_eq]
      have hinside : (doc.enter name).RankedUpTo rank top := ⟨⟨h.definitions, h.bindings⟩, h.definitions_le, h.bindings_le⟩
      refine Completes.thenIn (P := RankedUpTo rank top) ?_ (fun _ => rfl) ?_
      · exact (completes_expandAll hone hbody hinside).andThen fun text doc hd => completes_fill hone hg text hd
      · exact fun doc hd => ⟨⟨hd.definitions, hd.bindings⟩, hd.definitions_le, hd.bindings_le⟩
    · rw [expandMacro, if_pos hlen]
      exact .raise _ (by simp)
  next =>
  split
  next => exact .raise _ (by simp)
  next b hb =>
  split
  next =>
    obtain ⟨hcalls, hranked⟩ := h.bindings name b hb
    exact completes_expandAll hone (fits_body hr hl hcalls hranked (h.bindings_le name b hb)) h
  next => exact .raise _ (by simp)

end

/-- A node that a limit is enough for does not end at it. -/
theorem completes_expandNode (htop : ∀ name nodes, BuiltIn.moduleNodes? name = some nodes →
    Node.heightAll nodes ≤ top) (disk : Disk) {limit : Nat} {node : Node} {doc : Document}
    (hn : Fits rank top limit [node]) (h : doc.RankedUpTo rank top) :
    Completes (RankedUpTo rank top) (expandNode disk limit node doc) := by
  induction limit generalizing node doc with
  | zero =>
    obtain ⟨r, -, hl⟩ := hn.enough
    have hpos := node.height_pos
    simp only [Node.heightAll] at hl
    omega
  | succ limit ih =>
    obtain ⟨r, hcallees, hl⟩ := hn.enough
    have hranked := hn.ranked
    have hheight := hn.height_le
    simp only [Node.calleesAll, List.append_nil, Node.heightAll, Nat.max_zero] at hcallees hl hheight
    rw [expandNode]
    cases node with
    | text | number => exact h
    | call name groups span =>
      simp only [Node.callees, List.mem_cons, forall_eq_or_imp] at hcallees
      rw [Node.height] at hl hheight
      refine completes_expandCall (fun _ _ => ih) h hcallees.1 (by omega) ?_
      intro group hg
      have hle := Node.heightAll_values_le hg
      exact ⟨hranked.values hg, by omega, r, fun callee hm => hcallees.2 callee (Node.mem_groupCalleesAll hg hm),
        by omega⟩
    | use moduleName builtIn span =>
      obtain rfl := hranked.builtIn
      rw [expandWith, silent_eq]
      exact (completes_importModule htop h disk moduleName).andThen fun _ doc hd => hd
    | define name params body span =>
      obtain ⟨hb, hbody⟩ := hranked.body
      rw [Node.height] at hheight
      exact h.define hb hbody (by simp only; omega)
    | bind name changes value span =>
      obtain ⟨hb, hvalue⟩ := hranked.value
      rw [Node.height] at hheight
      rw [expandWith, silent_eq]
      exact (completes_bind h changes span hb hvalue (by omega)).andThen fun _ doc hd => hd
    | reference name changes span =>
      simp only [Node.callees, List.mem_singleton, forall_eq] at hcallees
      exact completes_expandCall (fun _ _ => ih) h hcallees (by omega) (by simp)
    | stray group => exact .raise _ nofun

/-! ## The whole document -/

theorem not_endsTooDeep_stopAt {doc : Document} {e : Failure} (h : e.IsOther doc) (node : Node) :
    ¬ EndsTooDeep (doc.stopAt node e) := by
  rintro ⟨s, hs, hdeep⟩
  cases e with
  | tooDeep => exact h
  | disk e =>
    cases hs
    exact hdeep
  | raised e =>
    obtain ⟨hlast, hcause⟩ := h
    simp only [stopAt, report, hlast, Option.map_some, Option.toList_some, Except.error.injEq] at hs
    subst hs
    obtain ⟨last, hl, hc⟩ := hdeep
    rw [List.getLast?_concat, Option.some.injEq] at hl
    refine hcause ?_
    rw [← hc, ← hl, ExpandError.locate]
    split <;> rfl

theorem not_endsTooDeep_of_fits (htop : ∀ name nodes, BuiltIn.moduleNodes? name = some nodes →
    Node.heightAll nodes ≤ top) (disk : Disk) {limit : Nat} {nodes : List Node} {doc : Document}
    (hn : ∀ node ∈ nodes, Fits rank top limit [node]) (h : doc.RankedUpTo rank top) :
    ¬ EndsTooDeep (expand disk limit nodes doc) := by
  induction nodes generalizing doc with
  | nil => simp [expand, EndsTooDeep]
  | cons node rest ih =>
    obtain ⟨hnode, hrest⟩ := List.forall_mem_cons.1 hn
    have hc := completes_expandNode htop disk hnode h
    cases hr : expandNode disk limit node doc with
    | mk r next =>
    rw [hr] at hc
    cases r with
    | error e =>
      rw [expand_cons_of_error hr]
      exact not_endsTooDeep_stopAt hc node
    | ok text =>
      rw [endsTooDeep_expand_cons hr]
      exact ih hrest hc

theorem exists_upper_bound {α : Type} (f : α → Nat) (l : List α) : ∃ b, ∀ a ∈ l, f a ≤ b :=
  ⟨(l.map f).sum, fun _ h => List.le_sum_of_mem (List.mem_map_of_mem h)⟩

/-- All that a run may come to is no higher than some height. -/
theorem exists_top {doc : Document} (h : doc.RankedBy rank) (nodes : List Node) :
    ∃ top, doc.RankedUpTo rank top ∧ Node.heightAll nodes ≤ top ∧
      ∀ name nodes, BuiltIn.moduleNodes? name = some nodes → Node.heightAll nodes ≤ top := by
  obtain ⟨a, ha⟩ := exists_upper_bound (fun entry => Node.heightAll entry.2.body) doc.definitions.entries
  obtain ⟨b, hb⟩ := exists_upper_bound (fun entry => Node.heightAll entry.2.nodes) doc.bindings.entries
  obtain ⟨c, hc⟩ := exists_upper_bound (fun entry : String × String =>
    Node.heightAll ((Node.ofText entry.2).toOption.getD [])) BuiltIn.moduleTexts
  refine ⟨a + b + c + Node.heightAll nodes, ⟨h, ?_, ?_⟩, by omega, ?_⟩
  · intro name d hd
    have hle : Node.heightAll d.body ≤ a := ha (name, d) (Table.mem_of_get? hd)
    omega
  · intro name v hv
    have hle : Node.heightAll v.nodes ≤ b := hb (name, v) (Table.mem_of_get? hv)
    omega
  · intro name nodes hn
    obtain ⟨text, hm, rfl⟩ := exists_mem_moduleTexts hn
    have hle : Node.heightAll ((Node.ofText text).toOption.getD []) ≤ c := hc (name, text) hm
    omega

/-- Names that can be ranked need only so much nesting: from some limit on no run of the nodes ends
at its limit, whatever is replaced on the way. -/
theorem exists_limit_of_ranked {doc : Document} {nodes : List Node} (hd : doc.RankedBy rank)
    (hn : Node.RankedBy rank nodes) : ∃ bound, ∀ (disk : Disk) (limit : Nat), bound ≤ limit →
      ¬ EndsTooDeep (expand disk limit nodes doc) := by
  obtain ⟨top, hdoc, hheight, htop⟩ := exists_top hd nodes
  obtain ⟨r, hr⟩ := exists_upper_bound rank (Node.calleesAll nodes)
  refine ⟨(r + 1) * (top + 1) + Node.heightAll nodes, fun disk limit hl => ?_⟩
  have hfits : Fits rank top limit nodes :=
    ⟨hn, hheight, r + 1, fun callee hc => Nat.lt_succ_of_le (hr callee hc), hl⟩
  exact not_endsTooDeep_of_fits htop disk (fun node hm => hfits.of_mem hm) hdoc

/-- The body of `a` replaces `b` before it calls it. -/
theorem exists_limit_of_replaced :
    let rank : String → Nat := fun name => if name = "a" then 1 else 0
    let doc : Document := ⟨⟨.none, []⟩, "", "", ⟨[("b", ⟨"b", [], [.text "old" .builtIn], .builtIn⟩)]⟩, ⟨[]⟩,
      [], [], []⟩
    let nodes : List Node := [.define "a" [] [.define "b" [] [.text "new" .builtIn] .builtIn,
      .call "b" [] .builtIn] .builtIn, .call "b" [] .builtIn, .call "a" [] .builtIn]
    doc.RankedBy rank ∧ Node.RankedBy rank nodes ∧
      (∃ bound, ∀ (disk : Disk) (limit : Nat), bound ≤ limit → ¬ EndsTooDeep (expand disk limit nodes doc)) ∧
      (expand .empty 3 nodes doc).1 = .ok "oldnew" := by
  intro rank doc nodes
  have hd : doc.RankedBy rank := by
    constructor
    · intro name d h
      obtain ⟨rfl, rfl⟩ : name = "b" ∧ d = ⟨"b", [], [.text "old" .builtIn], .builtIn⟩ := by
        simpa [doc] using Table.mem_of_get? h
      exact ⟨nofun, Node.rankedBy_of_isPlain rfl⟩
    · intro name b h
      cases h
  have hn : Node.RankedBy rank nodes := by
    constructor
    · simp [nodes, Node.preorderAll, Node.preorder, Group.preorderAll, Node.DefinesBelow, Node.CallsBelow,
        Node.calleesAll, Node.callees, Group.calleesAll, rank]
    · simp [nodes, Node.preorderAll, Node.preorder, Group.preorderAll]
  exact ⟨hd, hn, exists_limit_of_ranked hd hn, rfl⟩

end Document

end Markup
