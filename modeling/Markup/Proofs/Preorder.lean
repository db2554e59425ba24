/-
The nodes of a tree, each before those in it and in the order of the text,
and what a node says by itself: its kind and payload, without its parts.
-/
import Markup.Node.Basic

namespace Markup

mutual

/-- A node and all nodes in it. -/
def Node.preorder : Node → List Node
  | .text value span => [.text value span]
  | .number value span => [.number value span]
  | .call name groups span => .call name groups span :: Group.preorderAll groups
  | .use moduleName builtIn span => [.use moduleName builtIn span]
  | .define name params body span => .define name params body span :: Node.preorderAll body
  | .bind name changes value span => .bind name changes value span :: Node.preorderAll value
  | .reference name changes span => [.reference name changes span]
  | .stray group => .stray group :: group.preorder

/-- Nodes and all nodes in them. -/
def Node.preorderAll : List Node → List Node
  | [] => []
  | node :: rest => node.preorder ++ Node.preorderAll rest

/-- All nodes in a group. -/
def Group.preorder : Group → List Node
  | ⟨_, values, _⟩ => Node.preorderAll values

/-- All nodes in groups. -/
def Group.preorderAll : List Group → List Node
  | [] => []
  | group :: rest => group.preorder ++ Group.preorderAll rest

end

/-- A node's kind and payload, without its parts. -/
inductive Node.Head where
  | text (value : String)
  | number (value : Binary64)
  | call (name : String)
  | use (moduleName : String) (builtIn : Bool)
  | define (name : String) (params : List String)
  | bind (name : String) (changes : Bool)
  | reference (name : String)
  | stray
  deriving DecidableEq

/-- Where a node starts, and what it is. -/
structure Node.Start where
  position : Position
  head : Node.Head
  deriving DecidableEq

namespace Node

/-- The kind and payload of a node. -/
def head : Node → Head
  | .text value _ => .text value
  | .number value _ => .number value
  | .call name _ _ => .call name
  | .use moduleName builtIn _ => .use moduleName builtIn
  | .define name params _ _ => .define name params
  | .bind name changes _ _ => .bind name changes
  | .reference name _ _ => .reference name
  | .stray _ => .stray

/-- Where a node starts, and what it is. -/
def start (node : Node) : Start := ⟨node.span.start, node.head⟩

/-- The starts of nodes and of all nodes in them, in order. -/
def startsAll (nodes : List Node) : List Start := (preorderAll nodes).map start

/-- The starts of all nodes in groups, in order. -/
def groupStarts (groups : List Group) : List Start := (Group.preorderAll groups).map start

theorem preorderAll_append (nodes more : List Node) :
    preorderAll (nodes ++ more) = preorderAll nodes ++ preorderAll more := by
  induction nodes with
  | nil => rw [List.nil_append, preorderAll, List.nil_append]
  | cons node nodes ih => rw [List.cons_append, preorderAll, preorderAll, ih, List.append_assoc]

theorem preorderAll_singleton (node : Node) : preorderAll [node] = node.preorder := by
  rw [preorderAll, preorderAll, List.append_nil]

theorem mem_preorder_self (node : Node) : node ∈ node.preorder := by
  cases node <;> simp [preorder]

theorem mem_preorderAll_iff {node : Node} {nodes : List Node} :
    node ∈ preorderAll nodes ↔ ∃ top ∈ nodes, node ∈ top.preorder := by
  induction nodes with
  | nil => simp [preorderAll]
  | cons top nodes ih => simp [preorderAll, ih]

theorem mem_groupPreorderAll_iff {node : Node} {groups : List Group} :
    node ∈ Group.preorderAll groups ↔ ∃ group ∈ groups, node ∈ group.preorder := by
  induction groups with
  | nil => simp [Group.preorderAll]
  | cons group groups ih => simp [Group.preorderAll, ih]

/-! Everything in a part of a node is in the node. -/

theorem preorderAll_values_subset {group : Group} {groups : List Group} (h : group ∈ groups) (name : String)
    (span : Span) : preorderAll group.values ⊆ preorder (.call name groups span) := by
  obtain ⟨index, values, _⟩ := group
  intro part hp
  rw [preorder]
  exact List.mem_cons_of_mem _ (mem_groupPreorderAll_iff.2 ⟨_, h, hp⟩)

theorem preorderAll_body_subset (name : String) (params : List String) (body : List Node) (span : Span) :
    preorderAll body ⊆ preorder (.define name params body span) := by
  intro part hp
  rw [preorder]
  exact List.mem_cons_of_mem _ hp

theorem preorderAll_value_subset (name : String) (changes : Bool) (value : List Node) (span : Span) :
    preorderAll value ⊆ preorder (.bind name changes value span) := by
  intro part hp
  rw [preorder]
  exact List.mem_cons_of_mem _ hp

theorem groupPreorderAll_append (groups more : List Group) :
    Group.preorderAll (groups ++ more) = Group.preorderAll groups ++ Group.preorderAll more := by
  induction groups with
  | nil => rw [List.nil_append, Group.preorderAll, List.nil_append]
  | cons group groups ih =>
    rw [List.cons_append, Group.preorderAll, Group.preorderAll, ih, List.append_assoc]

theorem groupPreorderAll_singleton (index : Nat) (values : List Node) (span : Span) :
    Group.preorderAll [⟨index, values, span⟩] = preorderAll values := by
  rw [Group.preorderAll, Group.preorder, Group.preorderAll, List.append_nil]

@[simp] theorem startsAll_nil : startsAll [] = [] := by
  rw [startsAll, preorderAll, List.map_nil]

@[simp] theorem startsAll_append (nodes more : List Node) :
    startsAll (nodes ++ more) = startsAll nodes ++ startsAll more := by
  rw [startsAll, preorderAll_append, List.map_append]
  rfl

@[simp] theorem groupStarts_nil : groupStarts [] = [] := by
  rw [groupStarts, Group.preorderAll, List.map_nil]

@[simp] theorem groupStarts_append (groups more : List Group) :
    groupStarts (groups ++ more) = groupStarts groups ++ groupStarts more := by
  rw [groupStarts, groupPreorderAll_append, List.map_append]
  rfl

@[simp] theorem groupStarts_singleton (index : Nat) (values : List Node) (span : Span) :
    groupStarts [⟨index, values, span⟩] = startsAll values := by
  rw [groupStarts, groupPreorderAll_singleton]
  rfl

@[simp] theorem startsAll_call (name : String) (groups : List Group) (span : Span) :
    startsAll [.call name groups span] = ⟨span.start, .call name⟩ :: groupStarts groups := by
  rw [startsAll, preorderAll_singleton, preorder, List.map_cons]
  rfl

@[simp] theorem startsAll_define (name : String) (params : List String) (body : List Node) (span : Span) :
    startsAll [.define name params body span] = ⟨span.start, .define name params⟩ :: startsAll body := by
  rw [startsAll, preorderAll_singleton, preorder, List.map_cons]
  rfl

@[simp] theorem startsAll_bind (name : String) (changes : Bool) (value : List Node) (span : Span) :
    startsAll [.bind name changes value span] = ⟨span.start, .bind name changes⟩ :: startsAll value := by
  rw [startsAll, preorderAll_singleton, preorder, List.map_cons]
  rfl

@[simp] theorem startsAll_use (moduleName : String) (builtIn : Bool) (span : Span) :
    startsAll [.use moduleName builtIn span] = [⟨span.start, .use moduleName builtIn⟩] := by
  rw [startsAll, preorderAll_singleton, preorder, List.map_cons, List.map_nil]
  rfl

@[simp] theorem startsAll_text (value : String) (span : Span) :
    startsAll [.text value span] = [⟨span.start, .text value⟩] := by
  rw [startsAll, preorderAll_singleton, preorder, List.map_cons, List.map_nil]
  rfl

end Node

end Markup
