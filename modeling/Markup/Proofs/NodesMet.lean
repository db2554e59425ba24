/-
Every node that a run comes across was there before or was read from a text.

So a property that all nodes of all texts have is kept: if the nodes to be expanded
have it, and those that the document has for its names (`Document.Has`), every task
that the run leads to is about such a node, in such a document
(`Task.Leads.has`). Nothing of the evaluator is gone through again for this: a run
is taken beside itself (`Twins.having`), where only nodes with the property count
as the same.
-/
import Markup.Proofs.TwinRuns

namespace Markup

/-- Whether all nodes of all texts have a property. -/
def Node.IsRead (p : Node → Prop) : Prop :=
  ∀ {text : String} {nodes : List Node}, Node.ofText text = .ok nodes → ∀ node ∈ preorderAll nodes, p node

theorem Node.preorderAll_subset_of_call? {node : Node} {name : String} {groups : List Group} {group : Group}
    (h : node.call? = some (name, groups)) (hg : group ∈ groups) : preorderAll group.values ⊆ node.preorder := by
  cases node with
  | call =>
    cases h
    exact preorderAll_values_subset hg _ _
  | reference =>
    cases h
    cases hg
  | text | number | use | define | bind | stray => cases h

/-- A run beside itself, over nodes with a property. -/
def Twins.having (p : Node → Prop) : Twins where
  toTextTwins := .equal
  nodes ours theirs := theirs = ours ∧ ∀ node ∈ Node.preorderAll ours, p node
  span ours theirs := theirs = ours
  source s t := t = s
  known _ := true
  definitions := []
  bindings := []
  twin_of_nodes {_ theirs} h := by
    obtain ⟨rfl, hp⟩ := h
    nth_rewrite 2 [← Node.map_moved_id theirs]
    exact Node.forall₂_twin_moved (p := p) (fun hp => ⟨Node.map_moved_id _, hp⟩) (fun _ => rfl) (fun _ _ => rfl) hp

namespace Document

variable {p : Node → Prop}

/-- Whether all nodes have a property in what a document has for its names. -/
structure Has (p : Node → Prop) (doc : Document) : Prop where
  bodies : ∀ entry ∈ doc.definitions.entries, ∀ node ∈ Node.preorderAll entry.2.body, p node
  values : ∀ entry ∈ doc.bindings.entries, ∀ node ∈ Node.preorderAll entry.2.nodes, p node

theorem has_iff_twin {doc : Document} : doc.Has p ↔ doc.Twin (.having p) doc := by
  constructor
  · exact fun h =>
      { directory := rfl
        fileName := rfl
        source := rfl
        definitions := Table.twin_self_iff.2 fun entry he =>
          ⟨rfl, rfl, fun _ _ => trivial, ⟨rfl, h.bodies entry he⟩, rfl⟩
        bindings := Table.twin_self_iff.2 fun entry he => ⟨rfl, rfl, ⟨rfl, h.values entry he⟩, rfl, rfl⟩
        errors := rfl
        modulePaths := rfl
        callStack := rfl }
  · exact fun h =>
      { bodies := fun entry he => (Table.twin_self_iff.1 h.definitions entry he).body.2
        values := fun entry he => (Table.twin_self_iff.1 h.bindings entry he).nodes.2 }

theorem Has.enter {doc : Document} (h : doc.Has p) (name : String) : (doc.enter name).Has p := ⟨h.bodies, h.values⟩

theorem has_new (hp : ∀ value span, p (.text value span)) (fileName source : String)
    (presets : List (String × String)) (modulePaths : List Path) (now : BuiltIn.Moment) :
    (new fileName source presets modulePaths now).Has p := by
  have htext : ∀ value span, ∀ node ∈ Node.preorderAll [.text value span], p node := by
    intro value span node hn
    rw [Node.preorderAll_singleton, Node.preorder] at hn
    rw [List.mem_singleton.1 hn]
    exact hp value span
  refine new_induction _ _ _ _ _ ⟨by simp [Table.empty], by simp [Table.empty]⟩ ?_ ?_
  · refine fun doc name body h => ⟨fun other ho => ?_, h.values⟩
    rcases Table.mem_insert ho with rfl | ho
    · exact htext _ _
    · exact h.bodies other ho
  · refine fun doc name value h => ⟨h.bodies, fun other ho => ?_⟩
    rcases Table.mem_insert ho with rfl | ho
    · exact htext _ _
    · exact h.values other ho

/-! ## Along a run -/

section

variable (hp : Node.IsRead p) {disk : Disk}
include hp

theorem Task.admitted_having (t : Task) : t.Admitted (.having p) disk := by
  rintro tree ⟨_, _, _, _, _, _, -, hload⟩
  refine ⟨rfl, ?_⟩
  rcases (loadModule_ok_cases hload).2 with hm | ⟨_, text, -, htext⟩
  · obtain ⟨text, -, rfl⟩ := exists_mem_moduleTexts hm
    cases ht : Node.ofText text with
    | error => nofun
    | ok nodes => exact hp ht
  · exact hp htext

theorem has_expandAll {limit : Nat} {nodes : List Node} {doc : Document} (h : doc.Has p)
    (hn : ∀ node ∈ Node.preorderAll nodes, p node) : (expandAll (expandNode disk limit) nodes doc).2.Has p :=
  has_iff_twin.2 (expandAll_twin (T := .having p) (fun ha hn h => expandNode_twin ha hn h)
    (Twins.twin_of_nodes _ ⟨rfl, hn⟩) (has_iff_twin.1 h) fun _ _ _ => Task.admitted_having hp _).document

theorem has_expandNode {limit : Nat} {node : Node} {doc : Document} (h : doc.Has p)
    (hn : ∀ part ∈ node.preorder, p part) : (expandNode disk limit node doc).2.Has p := by
  have hself : (Twins.having p).node node node := by
    have hnodes : (Twins.having p).nodes [node] [node] := ⟨rfl, by rwa [Node.preorderAll_singleton]⟩
    exact (List.forall₂_cons.1 ((Twins.having p).twin_of_nodes hnodes)).1
  exact has_iff_twin.2 (expandNode_twin (Task.admitted_having hp _) hself (has_iff_twin.1 h)).document

omit hp in
/-- What going through a list keeps is there when it comes to one of it. -/
theorem has_of_comesTo {α : Type} {step : α → Document → Outcome String} {as : List α} {a : α} {doc mid : Document}
    (h : doc.Has p) (hc : ComesTo step as doc a mid) (hstep : ∀ a ∈ as, ∀ doc, Has p doc → (step a doc).2.Has p) :
    mid.Has p := by
  induction hc with
  | here => exact h
  | later hr _ ih =>
    obtain ⟨hfirst, hrest⟩ := List.forall_mem_cons.1 hstep
    have hmid := hfirst _ h
    rw [hr] at hmid
    exact ih hmid hrest

theorem has_of_comesToNode {limit : Nat} {nodes : List Node} {node : Node} {doc mid : Document} (h : doc.Has p)
    (hn : ∀ part ∈ Node.preorderAll nodes, p part) (hc : ComesTo (expandNode disk limit) nodes doc node mid) :
    (∀ part ∈ node.preorder, p part) ∧ mid.Has p := by
  have hparts : ∀ node ∈ nodes, ∀ part ∈ node.preorder, p part :=
    fun node hm part hpart => hn part (Node.mem_preorderAll_iff.2 ⟨node, hm, hpart⟩)
  exact ⟨hparts node hc.mem, has_of_comesTo h hc fun node hm doc hd => has_expandNode hp hd (hparts node hm)⟩

/-- A task about a node with the property, in a document with it, starts such tasks only. -/
theorem Task.Starts.has {t u : Task} {names : List String} (hs : t.Starts disk names u)
    (hn : ∀ part ∈ t.node.preorder, p part) (h : t.doc.Has p) : (∀ part ∈ u.node.preorder, p part) ∧ u.doc.Has p := by
  cases hs with
  | body _ hd _ hc => exact has_of_comesToNode hp (h.enter _) (h.bodies _ (Table.mem_of_get? hd)) hc
  | @argument limit node doc name groups d text behind group before inner mid hcall hd _ hb hg hc =>
    have hgroups : ∀ group ∈ groups, ∀ part ∈ Node.preorderAll group.values, p part :=
      fun group hm part hpart => hn part (Node.preorderAll_subset_of_call? hcall hm hpart)
    have hbehind : behind.Has p := by
      have hbody : (expandAll (expandNode disk limit) d.body (doc.enter name)).2.Has p :=
        has_expandAll hp (h.enter name) (h.bodies _ (Table.mem_of_get? hd))
      rwa [hb] at hbody
    have hbefore : before.Has p := has_of_comesTo hbehind hg fun group hm doc hd => has_expandAll hp hd (hgroups group hm)
    exact has_of_comesToNode hp hbefore (hgroups group hg.mem) hc
  | value _ _ hb hc => exact has_of_comesToNode hp h (h.values _ (Table.mem_of_get? hb)) hc

theorem Task.Leads.has {t u : Task} {names : List String} (hl : t.Leads disk names u)
    (hn : ∀ part ∈ t.node.preorder, p part) (h : t.doc.Has p) : (∀ part ∈ u.node.preorder, p part) ∧ u.doc.Has p := by
  induction hl with
  | here => exact ⟨hn, h⟩
  | inside hs _ ih =>
    obtain ⟨hnode, hdoc⟩ := hs.has hp hn h
    exact ih hnode hdoc

/-- All that a run over such nodes leads to is about nodes with the property. -/
theorem has_of_leads {limit : Nat} {nodes : List Node} {node : Node} {doc mid : Document} {u : Task}
    {names : List String} (h : doc.Has p) (hn : ∀ part ∈ Node.preorderAll nodes, p part)
    (hc : ComesTo (expandNode disk limit) nodes doc node mid) (hl : Task.Leads disk ⟨limit, node, mid⟩ names u) :
    p u.node ∧ u.doc.Has p := by
  obtain ⟨hnode, hmid⟩ := has_of_comesToNode hp h hn hc
  obtain ⟨hparts, hdoc⟩ := hl.has hp hnode hmid
  exact ⟨hparts u.node u.node.mem_preorder_self, hdoc⟩

end

end Document

end Markup
