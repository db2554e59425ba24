/-
Names that go round in a cycle are always caught.

A name goes on with another if it stands for text and numbers, a call of the other
without arguments, and anything (`GoesOn`). Of names that all go on with one of them, a
call is as deep as any limit allows: what stands before the next call has a text and
changes nothing, and what stands behind it is never met. So it ends at every limit, in
the document as it was (`expandNode_endless`), and a cycle is such names (`expand_cycle`).
-/
import Markup.Proofs.FailurePoints
import Markup.Proofs.InertNodes

namespace Markup

/-- Whether a node is text or a number, and so has a text in any document. -/
def Node.HasOwnText : Node → Prop
  | .text .. | .number .. => True
  | .call .. | .use .. | .define .. | .bind .. | .reference .. | .stray _ => False

namespace Document

/-- What a name stands for where it is called without arguments: the body of a macro without parameters,
or the value of a variable that no macro hides. -/
inductive StandsFor (doc : Document) (name : String) : List Node → Prop where
  | body {d} : doc.definitions.get? name = some d → d.params = [] → StandsFor doc name d.body
  | value {b} : doc.definitions.get? name = none → doc.bindings.get? name = some b → StandsFor doc name b.nodes

/-- Whether what a name stands for is text and numbers, a call of another one without arguments, and
anything behind it. -/
def GoesOn (doc : Document) (name next : String) : Prop :=
  ∃ front node rest, doc.StandsFor name (front ++ node :: rest) ∧ (∀ part ∈ front, part.HasOwnText) ∧
    node.call? = some (next, [])

theorem SameTables.standsFor {first doc : Document} (h : first.SameTables doc) {name : String} {nodes : List Node}
    (hs : first.StandsFor name nodes) : doc.StandsFor name nodes := by
  cases hs with
  | body hd hp => exact .body (h.definitions ▸ hd) hp
  | value hd hb => exact .value (h.definitions ▸ hd) (h.bindings ▸ hb)

/-! ## One level -/

section

variable {disk : Disk} {limit : Nat}

/-- Behind text and numbers a node is met in the same document, unless the limit is met before. -/
theorem expandAll_tooDeep_of_front {front : List Node} (hf : ∀ part ∈ front, part.HasOwnText) {node : Node}
    {doc : Document} (hn : expandNode disk limit node doc = (.error .tooDeep, doc)) (rest : List Node) :
    expandAll (expandNode disk limit) (front ++ node :: rest) doc = (.error .tooDeep, doc) := by
  induction front with
  | nil => rw [List.nil_append, expandAll_cons, hn, Outcome.andThen_error]
  | cons part front ih =>
    obtain ⟨hpart, hfront⟩ := List.forall_mem_cons.1 hf
    rw [List.cons_append, expandAll_cons]
    cases limit with
    | zero => rfl
    | succ limit =>
      have htext : ∃ text, expandNode disk (limit + 1) part doc = (.ok text, doc) := by
        cases part with
        | text value => exact ⟨value, rfl⟩
        | number value => exact ⟨value.toLiteral, rfl⟩
        | call | use | define | bind | reference | stray => exact hpart.elim
      obtain ⟨text, htext⟩ := htext
      rw [htext, Outcome.andThen_ok, ih hfront, Outcome.andThen_error]

/-- A call without arguments ends at the limit, in the document as it was, if what the name stands for
does, inside of the macro or beside it. -/
theorem expandNode_tooDeep_of_standsFor {node : Node} {name : String} (hn : node.call? = some (name, []))
    {doc : Document} {nodes : List Node} (hs : doc.StandsFor name nodes)
    (hdeep : ∀ inside, doc.SameTables inside →
      expandAll (expandNode disk limit) nodes inside = (.error .tooDeep, inside)) :
    expandNode disk (limit + 1) node doc = (.error .tooDeep, doc) := by
  rw [expandNode_of_call? hn, expandCall]
  cases hs with
  | @body d hd hp =>
    have hlength : ([] : List Group).length = d.params.length := by rw [hp]; rfl
    simp only [hd]
    rw [expandMacro_of_length _ hlength, expandBody_eq, hdeep _ ((SameTables.refl doc).enter name),
      Outcome.andThen_error, Outcome.thenIn_mk, leave_enter]
  | value hd hb =>
    simp only [hd, hb]
    exact hdeep doc (.refl doc)

end

/-! ## All levels -/

/-- Of names that all go on with one of them, a call ends at every limit, in the document as it was. -/
theorem expandNode_endless {first : Document} {endless : String → Prop}
    (hgoes : ∀ name, endless name → ∃ next, endless next ∧ first.GoesOn name next) (disk : Disk) (limit : Nat)
    {node : Node} {name : String} (hn : node.call? = some (name, [])) (he : endless name) {doc : Document}
    (h : first.SameTables doc) : expandNode disk limit node doc = (.error .tooDeep, doc) := by
  induction limit generalizing node name doc with
  | zero => rfl
  | succ limit ih =>
    obtain ⟨next, hnext, front, inner, rest, hs, hfront, hinner⟩ := hgoes name he
    refine expandNode_tooDeep_of_standsFor hn (h.standsFor hs) fun inside hi => ?_
    exact expandAll_tooDeep_of_front hfront (ih hinner hnext (h.trans hi)) rest

/-- In a cycle of names, each of which goes on with the one behind it and the last with the first, a call
of the first fails under every limit with one error: that it recursed too deeply, at the node, inside of
no macro but those that were being expanded before. The document is as it was. -/
theorem expand_cycle {doc : Document} (hclean : doc.errors = []) {k : Nat} (hk : 0 < k) {names : Nat → String}
    (hcycle : ∀ i < k, doc.GoesOn (names i) (names ((i + 1) % k))) {node : Node}
    (hn : node.call? = some (names 0, [])) (hspan : node.span ≠ .builtIn) (disk : Disk) (limit : Nat) :
    let e : ExpandError := ⟨.tooDeep, some node.span, doc.source, doc.callStack, none⟩
    expand disk limit [node] doc = (.error (.failed [e]), doc) ∧ e.message = "expansion recursed too deeply" := by
  intro e
  have hgoes : ∀ name, (∃ i < k, names i = name) → ∃ next, (∃ i < k, names i = next) ∧ doc.GoesOn name next := by
    rintro _ ⟨i, hi, rfl⟩
    exact ⟨_, ⟨(i + 1) % k, Nat.mod_lt _ hk, rfl⟩, hcycle i hi⟩
  have hnode := expandNode_endless hgoes disk limit hn ⟨0, hk, rfl⟩ (.refl doc)
  refine ⟨?_, rfl⟩
  have herrors : (doc.record (doc.errorOf .tooDeep)).errors = [] ++ [doc.errorOf .tooDeep] := by rw [record, hclean]
  rw [expand_cons_of_error hnode, stopAt, report_of_errors herrors, locate_of_span_none rfl, if_neg hspan]
  simp [record, errorOf, e, ← hclean]

/-- `f` calls the variable `v` behind a text, `v` refers to `g` behind a number, and `g` calls `f`; what
would change `v` is never met. -/
theorem expand_cycle_of_three :
    let f : Definition := ⟨"f", [], [.text "x" .builtIn, .call "v" [] .builtIn], .builtIn⟩
    let v : Binding :=
      ⟨"v", some [.number (.finite false 0 0) .builtIn, .reference "g" false .builtIn], false, .builtIn⟩
    let g : Definition := ⟨"g", [], [.call "f" [] .builtIn, .bind "v" false [] .builtIn], .builtIn⟩
    let doc : Document := ⟨⟨.none, []⟩, "", "", ⟨[("f", f), ("g", g)]⟩, ⟨[("v", v)]⟩, [], [], ["top"]⟩
    let place : Span := ⟨⟨3, 1, 9⟩, ⟨3, 4, 12⟩⟩
    doc.GoesOn "f" "v" ∧ doc.GoesOn "v" "g" ∧ doc.GoesOn "g" "f" ∧ ∀ limit,
      expand .empty limit [.call "f" [] place] doc =
        (.error (.failed [⟨.tooDeep, some place, "", ["top"], none⟩]), doc) := by
  intro f v g doc place
  have hf : doc.GoesOn "f" "v" :=
    ⟨[.text "x" .builtIn], .call "v" [] .builtIn, [], .body (d := f) rfl rfl, by simp [Node.HasOwnText], rfl⟩
  have hv : doc.GoesOn "v" "g" :=
    ⟨[.number (.finite false 0 0) .builtIn], .reference "g" false .builtIn, [], .value (b := v) rfl rfl,
      by simp [Node.HasOwnText], rfl⟩
  have hg : doc.GoesOn "g" "f" :=
    ⟨[], .call "f" [] .builtIn, [.bind "v" false [] .builtIn], .body (d := g) rfl rfl, List.forall_mem_nil _, rfl⟩
  have hcycle : ∀ i < 3, doc.GoesOn (["f", "v", "g"].getD i "") (["f", "v", "g"].getD ((i + 1) % 3) "") := by
    intro i hi
    obtain rfl | rfl | rfl : i = 0 ∨ i = 1 ∨ i = 2 := by omega
    · exact hf
    · exact hv
    · exact hg
  exact ⟨hf, hv, hg, fun limit => (expand_cycle rfl (by decide) hcycle rfl (by decide) .empty limit).1⟩

end Document

end Markup
