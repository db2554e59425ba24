/-
A text that goes on behind a call is expanded as two texts, one after the other.

Its nodes are those of the first part and, shifted, those of the second
(`ofText_append`), and a run over them goes on behind the first in the document
that these leave (`expand_append`). There the shifted nodes run beside the nodes of
the second part alone (`expand_twin`): places are carried along and nothing asks
for them, but an error is located where the node stands, and what is defined keeps
its own place. So what stands in the second part is shifted in the tables as well,
and what is foreign to it, from the document or from a module, is not. That is all
that the second part sees of the first but for the document (`expand_joined`).
-/
import Markup.Proofs.Joining
import Markup.Proofs.TwinRuns

namespace Markup

/-! ## Own and foreign nodes -/

namespace Document

/-- Whether a node is foreign to a run over nodes: it stands in what a name stands for in the document
before, or in a module that the run imports. -/
inductive Foreign (disk : Disk) (limit : Nat) (nodes : List Node) (doc : Document) : Node → Prop where
  | body {entry : String × Definition} {node : Node} : entry ∈ doc.definitions.entries →
      node ∈ Node.preorderAll entry.2.body → Foreign disk limit nodes doc node
  | value {entry : String × Binding} {node : Node} : entry ∈ doc.bindings.entries →
      node ∈ Node.preorderAll entry.2.nodes → Foreign disk limit nodes doc node
  | tree {tree : List Node} {node : Node} : Imports disk limit nodes doc tree →
      node ∈ Node.preorderAll tree → Foreign disk limit nodes doc node

/-- Whether a span is foreign to a run: a foreign node has it, or what a name stands for in the document
before. -/
inductive ForeignSpan (disk : Disk) (limit : Nat) (nodes : List Node) (doc : Document) : Span → Prop where
  | node {node : Node} : Foreign disk limit nodes doc node → ForeignSpan disk limit nodes doc node.span
  | definition {entry : String × Definition} : entry ∈ doc.definitions.entries →
      ForeignSpan disk limit nodes doc entry.2.span
  | binding {entry : String × Binding} : entry ∈ doc.bindings.entries →
      ForeignSpan disk limit nodes doc entry.2.span

end Document

open Document in
/-- A run over nodes and one over the same nodes moved: of what stands in the nodes the second run has
all places moved, and what is foreign to the run is the same in both. -/
def Twins.moved (f : Position → Position) (disk : Disk) (limit : Nat) (nodes : List Node) (doc : Document) :
    Twins where
  toTextTwins := .equal
  nodes ours theirs :=
    (∀ node ∈ Node.preorderAll ours, node ∈ Node.preorderAll nodes) ∧ theirs = ours.map (Node.moved f) ∨
      (∀ node ∈ Node.preorderAll ours, Foreign disk limit nodes doc node) ∧ theirs = ours
  span ours theirs :=
    (∃ node ∈ Node.preorderAll nodes, node.span = ours) ∧ theirs = ours.moved f ∨
      ForeignSpan disk limit nodes doc ours ∧ theirs = ours
  source s t := t = s
  known _ := true
  definitions := []
  bindings := []
  twin_of_nodes {ours theirs} h := by
    rcases h with ⟨hown, rfl⟩ | ⟨hforeign, rfl⟩
    · exact Node.forall₂_twin_moved (p := (· ∈ Node.preorderAll nodes)) (fun hp => .inl ⟨hp, rfl⟩)
        (fun hp => .inl ⟨⟨_, hp, rfl⟩, rfl⟩) (fun _ _ => rfl) hown
    · nth_rewrite 2 [← Node.map_moved_id theirs]
      exact Node.forall₂_twin_moved (fun hp => .inr ⟨hp, Node.map_moved_id _⟩)
        (fun hp => .inr ⟨.node hp, rfl⟩) (fun _ _ => rfl) hforeign

theorem Document.twin_self (f : Position → Position) (disk : Disk) (limit : Nat) (nodes : List Node)
    (doc : Document) : doc.Twin (.moved f disk limit nodes doc) doc where
  directory := rfl
  fileName := rfl
  source := rfl
  definitions := Table.twin_self_iff.2 fun _ he =>
    ⟨rfl, rfl, fun _ _ => trivial, .inr ⟨fun _ hn => .body he hn, rfl⟩, .inr ⟨.definition he, rfl⟩⟩
  bindings := Table.twin_self_iff.2 fun _ he => ⟨rfl, rfl, .inr ⟨fun _ hn => .value he hn, rfl⟩, rfl, .inr ⟨.binding he, rfl⟩⟩
  errors := rfl
  modulePaths := rfl
  callStack := rfl

namespace Document

/-- Behind a call which ends a text, another text is expanded as it is alone, in the document that the
first one leaves: the texts are joined, or the run is stopped by the same errors, the last of them
perhaps at the shifted place, and the tables are the same but for the places of what the second text
defines, which are shifted. If the first text fails, the second changes nothing; if the second has no
tree, the same is missing in the whole, in the shifted place. -/
theorem expand_joined {first : String} {nodes : List Node} {name : String} {groups : List Group} {span : Span}
    (h : Node.ofText first = .ok nodes) (hl : nodes.getLast? = some (.call name groups span))
    (he : span.stop.offset = first.length) (second : String) (disk : Disk) (limit : Nat) (doc : Document) :
    let f := Position.shift (Position.first.advance first.toList)
    match Node.ofText second with
    | .error e => Node.ofText (first ++ second) = .error (e.moved f) ∧ (e.moved f).message = e.message ∧
        (e.moved f).span = e.span.moved f
    | .ok more => Node.ofText (first ++ second) = .ok (nodes ++ more.map (Node.moved f)) ∧
        match expand disk limit nodes doc with
        | (.error s, last) => expand disk limit (nodes ++ more.map (Node.moved f)) doc = (.error s, last)
        | (.ok text, mid) =>
          Agree (Stop.Twin (.moved f disk limit more mid) fun place around => around = place.moved f)
              (fun behind whole => whole = text ++ behind) (expand disk limit more mid).1
              (expand disk limit (nodes ++ more.map (Node.moved f)) doc).1 ∧
            (expand disk limit more mid).2.Twin (.moved f disk limit more mid)
              (expand disk limit (nodes ++ more.map (Node.moved f)) doc).2 := by
  intro f
  have hjoined := Node.ofText_append h hl he second
  cases hsecond : Node.ofText second with
  | error e =>
    rw [hsecond] at hjoined
    exact ⟨hjoined, e.message_moved f, e.span_moved _⟩
  | ok more =>
    rw [hsecond] at hjoined
    refine ⟨hjoined, ?_⟩
    rw [expand_append]
    obtain ⟨r, mid⟩ := expand disk limit nodes doc
    cases r with
    | error s => rfl
    | ok text =>
      have hplaces : List.Forall₂ (fun node twin : Node => twin.span = node.span.moved f) more
          (more.map (Node.moved f)) :=
        List.forall₂_map_right_iff.2 (List.forall₂_same.2 fun node _ => node.span_moved f)
      have hown : (Twins.moved f disk limit more mid).nodes more (more.map (Node.moved f)) :=
        .inl ⟨fun _ hn => hn, rfl⟩
      obtain ⟨hresult, hdoc⟩ := expand_twin (T := .moved f disk limit more mid)
        (S := fun place around => around = place.moved f) (fun tree ht => .inr ⟨fun _ hn => .tree ht hn, rfl⟩)
        (Twins.twin_of_nodes _ hown) hplaces (mid.twin_self f disk limit more)
      refine ⟨?_, hdoc⟩
      simp only
      generalize (expand disk limit more mid).1 = result at hresult
      generalize (expand disk limit (more.map (Node.moved f)) mid).1 = result' at hresult
      cases hresult with
      | ok ht => exact .ok (by rw [ht])
      | error hs => exact .error hs

/-- Behind a call of the identity, which puts the text out, `v` is given its value in the first line
as before, but five columns on. -/
theorem expand_joined_dot :
    let call : Node := .call "." [⟨0, [.text " x" ⟨⟨1, 3, 2⟩, ⟨1, 5, 4⟩⟩], ⟨⟨1, 3, 2⟩, ⟨1, 5, 4⟩⟩⟩]
      ⟨⟨1, 1, 0⟩, ⟨1, 6, 5⟩⟩
    let more : List Node := [.bind "v" false [.text "w" ⟨⟨1, 8, 7⟩, ⟨1, 9, 8⟩⟩] ⟨⟨1, 1, 0⟩, ⟨1, 9, 8⟩⟩]
    let dot : Definition := ⟨".", ["value"], [.text "$value" .builtIn], .builtIn⟩
    let doc : Document := ⟨⟨.none, []⟩, "", "", ⟨[(".", dot)]⟩, .empty, [], [], []⟩
    let f := Position.shift (Position.first.advance "(. x)".toList)
    Node.ofText "(. x)#let v w" = .ok (call :: more.map (Node.moved f)) ∧
      Agree (Stop.Twin (.moved f .empty 2 more doc) fun place around => around = place.moved f)
        (fun behind whole => whole = "x" ++ behind) (expand .empty 2 more doc).1
        (expand .empty 2 (call :: more.map (Node.moved f)) doc).1 ∧
      (expand .empty 2 more doc).2.Twin (.moved f .empty 2 more doc)
        (expand .empty 2 (call :: more.map (Node.moved f)) doc).2 := by
  intro call more dot doc f
  obtain ⟨hfirst, hsecond, hrun⟩ : Node.ofText "(. x)" = .ok [call] ∧ Node.ofText "#let v w" = .ok more ∧
      expand .empty 2 [call] doc = (.ok "x", doc) := ⟨by cbv, by cbv, by cbv⟩
  have hjoined := expand_joined hfirst rfl rfl "#let v w" .empty 2 doc
  rw [hsecond, hrun] at hjoined
  exact hjoined

/-- Expanded behind a call, `v` is entered with the places that it has there: by themselves the tables
are not the same. -/
theorem expand_joined_places : ¬ ∀ (first second : String) (nodes more : List Node) (name : String)
    (groups : List Group) (span : Span) (disk : Disk) (limit : Nat) (doc mid : Document) (text : String),
    Node.ofText first = .ok nodes → nodes.getLast? = some (.call name groups span) →
    span.stop.offset = first.length → Node.ofText second = .ok more →
    expand disk limit nodes doc = (.ok text, mid) → ∃ joined, Node.ofText (first ++ second) = .ok joined ∧
      (expand disk limit joined doc).2.bindings = (expand disk limit more mid).2.bindings := by
  intro h
  let call : Node := .call "." [⟨0, [.text " x" ⟨⟨1, 3, 2⟩, ⟨1, 5, 4⟩⟩], ⟨⟨1, 3, 2⟩, ⟨1, 5, 4⟩⟩⟩]
    ⟨⟨1, 1, 0⟩, ⟨1, 6, 5⟩⟩
  let dot : Definition := ⟨".", ["value"], [.text "$value" .builtIn], .builtIn⟩
  let doc : Document := ⟨⟨.none, []⟩, "", "", ⟨[(".", dot)]⟩, .empty, [], [], []⟩
  obtain ⟨joined, hjoined, hsame⟩ := h "(. x)" "#let v w" [call]
    [.bind "v" false [.text "w" ⟨⟨1, 8, 7⟩, ⟨1, 9, 8⟩⟩] ⟨⟨1, 1, 0⟩, ⟨1, 9, 8⟩⟩] _ _ _ .empty 2 doc doc "x"
    (by cbv) rfl rfl (by cbv) (by cbv)
  have hwhole : Node.ofText ("(. x)" ++ "#let v w") = .ok [call,
      .bind "v" false [.text "w" ⟨⟨1, 13, 12⟩, ⟨1, 14, 13⟩⟩] ⟨⟨1, 6, 5⟩, ⟨1, 14, 13⟩⟩] := by cbv
  obtain rfl := Except.ok.inj (hjoined.symm.trans hwhole)
  have hspans := congrArg (fun t => t.entries.map fun entry => entry.2.span) hsame
  exact absurd hspans (by decide +kernel)

end Document

end Markup
