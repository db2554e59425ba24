/-
The limit on nesting decides whether a document is expanded, and nothing else:
a run that does not end at its limit is the same under every greater one, in
its text or its errors and in the document that it leaves (`expand_of_le`).

One step refines another (`Refines`) if it ends at the limit or is the same.
Expansion refines whenever what expands the parts does, so one level more
refines one level less, and any greater limit any smaller one.
-/
import Markup.Proofs.ExpandSteps

namespace Markup.Document

/-- Whether the error reported last is that the nesting went past its limit. -/
def Stop.IsTooDeep : Stop → Prop
  | .failed errors => ∃ e, errors.getLast? = some e ∧ e.cause = .tooDeep
  | .disk _ => False

/-- Whether expansion ends at the limit on nesting. -/
def EndsTooDeep (r : Except Stop String × Document) : Prop := ∃ s, r.1 = .error s ∧ s.IsTooDeep

example : ExpandError.Cause.tooDeep.message = "expansion recursed too deeply" := rfl

namespace Outcome

variable {α β : Type}

/-- A step that ends at its limit, or is another one. -/
def Refines (x y : Outcome α) : Prop := x.1 = .error .tooDeep ∨ x = y

theorem Refines.refl (x : Outcome α) : x.Refines x := .inr rfl

theorem Refines.trans {x y z : Outcome α} (h : x.Refines y) (k : y.Refines z) : x.Refines z := by
  rcases h with h | rfl
  · exact .inl h
  · exact k

theorem Refines.andThen {x y : Outcome α} {next other : α → Document → Outcome β} (h : x.Refines y)
    (k : ∀ a doc, (next a doc).Refines (other a doc)) : (x.andThen next).Refines (y.andThen other) := by
  rcases h with h | rfl
  · obtain ⟨r, doc⟩ := x
    obtain rfl : r = .error .tooDeep := h
    exact .inl rfl
  · obtain ⟨_ | a, doc⟩ := x
    · exact .refl _
    · exact k a doc

theorem Refines.thenIn {x y : Outcome α} (h : x.Refines y) (change : Document → Document) :
    (x.thenIn change).Refines (y.thenIn change) := by
  rcases h with h | rfl
  · exact .inl h
  · exact .refl _

end Outcome

open Outcome

/-! ## One level more -/

section

variable {one other : Expander} (h : ∀ node doc, (one node doc).Refines (other node doc))
include h

theorem expandAll_refines (nodes : List Node) (doc : Document) :
    (expandAll one nodes doc).Refines (expandAll other nodes doc) := by
  induction nodes generalizing doc with
  | nil => exact .refl _
  | cons node rest ih =>
    rw [expandAll_cons, expandAll_cons]
    exact (h node doc).andThen fun text doc => (ih doc).andThen fun more doc => .refl _

theorem fill_refines (params : List String) (groups : List Group) (text : String) (doc : Document) :
    (fill one params groups text doc).Refines (fill other params groups text doc) := by
  induction params generalizing groups text doc with
  | nil =>
    rw [fill_of_nil one (.inl rfl), fill_of_nil other (.inl rfl)]
    exact .refl _
  | cons param params ih =>
    cases groups with
    | nil =>
      rw [fill_of_nil one (.inr rfl), fill_of_nil other (.inr rfl)]
      exact .refl _
    | cons group groups =>
      rw [fill_cons, fill_cons]
      exact (expandAll_refines h group.values doc).andThen fun argument doc => ih groups _ doc

theorem expandMacro_refines (name : String) (d : Definition) (groups : List Group) (doc : Document) :
    (expandMacro one name d groups doc).Refines (expandMacro other name d groups doc) := by
  by_cases hl : groups.length = d.params.length
  · rw [expandMacro_of_length one hl, expandMacro_of_length other hl, expandBody_eq, expandBody_eq]
    refine Refines.thenIn ?_ leave
    exact (expandAll_refines h d.body _).andThen fun text doc => fill_refines h d.params groups text doc
  · rw [expandMacro, expandMacro, if_pos hl, if_pos hl]
    exact .refl _

theorem expandCall_refines (name : String) (groups : List Group) (doc : Document) :
    (expandCall one name groups doc).Refines (expandCall other name groups doc) := by
  rw [expandCall, expandCall]
  split
  next d _ => exact expandMacro_refines h name d groups doc
  next =>
  split
  next => exact .refl _
  next b _ =>
  split
  next => exact expandAll_refines h b.nodes doc
  next => exact .refl _

theorem expandWith_refines (disk : Disk) (node : Node) (doc : Document) :
    (expandWith disk one node doc).Refines (expandWith disk other node doc) := by
  cases node with
  | call name groups => exact expandCall_refines h name groups doc
  | reference name => exact expandCall_refines h name [] doc
  | text | number | use | define | bind | stray => exact .refl _

end

theorem expandNode_succ_refines (disk : Disk) (limit : Nat) (node : Node) (doc : Document) :
    (expandNode disk limit node doc).Refines (expandNode disk (limit + 1) node doc) := by
  induction limit generalizing node doc with
  | zero => exact .inl rfl
  | succ limit ih => exact expandWith_refines ih disk node doc

/-- Under a greater limit a node is expanded the same, unless it ends at the smaller one. -/
theorem expandNode_refines (disk : Disk) {limit more : Nat} (h : limit ≤ more) (node : Node) (doc : Document) :
    (expandNode disk limit node doc).Refines (expandNode disk more node doc) := by
  induction h with
  | refl => exact .refl _
  | step _ ih => exact ih.trans (expandNode_succ_refines disk _ node doc)

/-! ## The whole document -/

theorem endsTooDeep_report (doc : Document) (node : Node) :
    EndsTooDeep ((doc.record (doc.errorOf .tooDeep)).report node) := by
  refine ⟨_, rfl, (doc.errorOf .tooDeep).locate node.span doc.source, ?_, ?_⟩
  · simp [record]
  · rw [ExpandError.locate]
    split <;> rfl

theorem endsTooDeep_expand_cons {disk : Disk} {limit : Nat} {node : Node} {doc next : Document} {text : String}
    (h : expandNode disk limit node doc = (.ok text, next)) {rest : List Node} :
    EndsTooDeep (expand disk limit (node :: rest) doc) ↔ EndsTooDeep (expand disk limit rest next) := by
  rw [expand_cons_of_ok h]
  obtain ⟨e | more, last⟩ := expand disk limit rest next
  · exact .rfl
  · simp [EndsTooDeep, Except.map]

/-- A run that does not end at its limit is the same under every greater one: the same text or the
same errors, and the same document behind it. -/
theorem expand_of_le {disk : Disk} {limit more : Nat} (hl : limit ≤ more) {nodes : List Node}
    {doc : Document} (h : ¬ EndsTooDeep (expand disk limit nodes doc)) :
    expand disk more nodes doc = expand disk limit nodes doc := by
  induction nodes generalizing doc with
  | nil => rfl
  | cons node rest ih =>
    rcases expandNode_refines disk hl node doc with hdeep | heq
    · -- The node ends at the smaller limit, and so does the run.
      refine absurd ?_ h
      cases hr : expandNode disk limit node doc with
      | mk r next =>
      rw [hr] at hdeep
      obtain rfl : r = .error .tooDeep := hdeep
      rw [expand_cons_of_error hr]
      exact endsTooDeep_report next node
    · cases hr : expandNode disk limit node doc with
      | mk r next =>
      have hr' : expandNode disk more node doc = (r, next) := by rw [← heq, hr]
      cases r with
      | error e => rw [expand_cons_of_error hr, expand_cons_of_error hr']
      | ok text =>
        rw [expand_cons_of_ok hr, expand_cons_of_ok hr', ih]
        rwa [endsTooDeep_expand_cons hr] at h

/-- The argument of a call stands one deeper than the body that it is put into: two levels do not
do, and three do as well as any more. -/
theorem expand_above_three :
    let doc : Document := ⟨⟨.none, []⟩, "", "", ⟨[("b", ⟨"b", ["x"], [.text "<$x>" .builtIn], .builtIn⟩)]⟩,
      ⟨[("v", ⟨"v", some [.text "hi" .builtIn], false, .builtIn⟩)]⟩, [], [], []⟩
    let nodes : List Node := [.call "b" [⟨0, [.reference "v" false .builtIn], .builtIn⟩] .builtIn]
    EndsTooDeep (expand .empty 2 nodes doc) ∧ ¬ EndsTooDeep (expand .empty 3 nodes doc) ∧
      expand .empty 1000 nodes doc = (.ok "<hi>", doc) := by
  intro doc nodes
  have h3 : expand .empty 3 nodes doc = (.ok "<hi>", doc) := rfl
  have hne : ¬ EndsTooDeep (expand .empty 3 nodes doc) := by simp [h3, EndsTooDeep]
  exact ⟨⟨_, rfl, _, rfl, rfl⟩, hne, (expand_of_le (by decide) hne).trans h3⟩

end Markup.Document
