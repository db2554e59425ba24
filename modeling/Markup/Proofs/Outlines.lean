/-
Outlines are faithful.

The lines of an outline can be told apart in its text, since none has a line end in it,
and the spaces at its front tell how deep a line is, since none begins with a space
(`OutlineLine.render_inj`). What is in a node stands on the lines below its own that are
deeper, so the lines of the nodes beside each other fall apart into blocks
(`OutlineLine.eq_of_blocks`). By induction on what is in a node, an outline tells the tree
that it was made of, but for the places of the nodes and for what a number is beyond the
way it is printed (`Node.same_of_outlineLines`).
-/
import Mathlib.Data.List.Forall2
import Markup.Proofs.OutlineTexts

namespace Markup

open Text

/-! ## Lines in a text -/

theorem Text.lines_cons {c : Char} (h : isLineEnd c = false) (cs : List Char) :
    lines (c :: cs) = consLine c (lines cs) := by
  rw [lines]
  · simp [h]
  · rintro _ rfl
    cases h

/-- A line that has no line end in it ends where its newline is. -/
theorem Text.lines_append {line : List Char} (h : ∀ c ∈ line, isLineEnd c = false) (rest : List Char) :
    lines (line ++ '\n' :: rest) = (line ++ ['\n']) :: lines rest := by
  induction line with
  | nil =>
    rw [List.nil_append, lines]
    · rfl
    · simp
  | cons c line ih =>
    obtain ⟨hc, hline⟩ := List.forall_mem_cons.1 h
    rw [List.cons_append, lines_cons hc, ih hline]
    rfl

namespace OutlineLine

/-- Whether a line stands on one line and does not begin with a space. -/
structure Fits (line : OutlineLine) : Prop where
  onOneLine : OnOneLine line.text
  first : line.text.toList.head? ≠ some ' '

theorem toList_render (line : OutlineLine) :
    line.render.toList = List.replicate (2 * line.depth) ' ' ++ line.text.toList ++ ['\n'] := by
  rw [render, String.toList_append, String.toList_append, String.toList_ofList]
  rfl

theorem Fits.takeWhile_render {line : OutlineLine} (h : line.Fits) :
    line.render.toList.takeWhile (· == ' ') = List.replicate (2 * line.depth) ' ' := by
  have hspaces : ∀ c ∈ List.replicate (2 * line.depth) ' ', (c == ' ') = true := by
    intro c hc
    rw [(List.mem_replicate.1 hc).2]
    rfl
  have hrest : (line.text.toList ++ ['\n']).takeWhile (· == ' ') = [] := by
    have hfirst := h.first
    cases he : line.text.toList with
    | nil => rfl
    | cons c cs =>
      rw [he] at hfirst
      exact List.takeWhile_cons_of_neg (by simpa using hfirst)
  rw [toList_render, List.append_assoc, List.takeWhile_append_of_pos hspaces, hrest, List.append_nil]

/-- Different lines are written differently. -/
theorem render_inj {line other : OutlineLine} (h : line.Fits) (ho : other.Fits)
    (he : line.render.toList = other.render.toList) : line = other := by
  have hspaces := congrArg List.length (h.takeWhile_render.symm.trans ((congrArg _ he).trans ho.takeWhile_render))
  rw [List.length_replicate, List.length_replicate] at hspaces
  have hdepth : line.depth = other.depth := by omega
  rw [toList_render, toList_render, hdepth, List.append_left_inj, List.append_right_inj, String.toList_inj] at he
  cases line
  cases other
  simp_all

theorem map_render_inj : ∀ {lines others : List OutlineLine}, (∀ line ∈ lines, line.Fits) →
    (∀ line ∈ others, line.Fits) → lines.map (·.render.toList) = others.map (·.render.toList) → lines = others
  | [], [], _, _, _ => rfl
  | line :: lines, other :: others, h, ho, he => by
    rw [List.forall_mem_cons] at h ho
    rw [List.map_cons, List.map_cons, List.cons.injEq] at he
    rw [render_inj h.1 ho.1 he.1, map_render_inj h.2 ho.2 he.2]

theorem lines_flatMap_render {lines : List OutlineLine} (h : ∀ line ∈ lines, line.Fits) :
    Text.lines (lines.flatMap (·.render.toList)) = lines.map (·.render.toList) := by
  induction lines with
  | nil => rfl
  | cons line rest ih =>
    obtain ⟨hline, hrest⟩ := List.forall_mem_cons.1 h
    have hchars : ∀ c ∈ List.replicate (2 * line.depth) ' ' ++ line.text.toList, isLineEnd c = false := by
      intro c hc
      rcases List.mem_append.1 hc with hc | hc
      · rw [(List.mem_replicate.1 hc).2]
        rfl
      · exact hline.onOneLine c hc
    rw [List.flatMap_cons, List.map_cons, toList_render, List.append_assoc, List.singleton_append, lines_append hchars,
      ih hrest]

/-! ## Blocks -/

/-- Whether lines are one at a depth, and deeper ones below it. -/
def IsBlock (depth : Nat) (lines : List OutlineLine) : Prop :=
  ∃ first deeper, lines = first :: deeper ∧ first.depth = depth ∧ ∀ line ∈ deeper, depth < line.depth

theorem eq_of_blocks {depth : Nat} : ∀ {blocks others : List (List OutlineLine)},
    (∀ block ∈ blocks, IsBlock depth block) → (∀ block ∈ others, IsBlock depth block) →
    blocks.flatten = others.flatten → blocks = others
  | [], [], _, _, _ => rfl
  | [], other :: others, _, ho, he | other :: others, [], ho, _, he => by
    obtain ⟨first, deeper, rfl, -⟩ := ho other List.mem_cons_self
    simp at he
  | block :: blocks, other :: others, h, ho, he => by
    obtain ⟨hblock, hblocks⟩ := List.forall_mem_cons.1 h
    obtain ⟨hother, hothers⟩ := List.forall_mem_cons.1 ho
    obtain ⟨first, deeper, rfl, -, hd⟩ := hblock
    obtain ⟨first', deeper', rfl, -, hd'⟩ := hother
    have hstops : ∀ {blocks : List (List OutlineLine)}, (∀ block ∈ blocks, IsBlock depth block) →
        blocks.flatten.takeWhile (depth < ·.depth) = [] := by
      intro blocks hb
      cases blocks with
      | nil => rfl
      | cons block rest =>
        obtain ⟨first, deeper, rfl, hfirst, -⟩ := hb block List.mem_cons_self
        exact List.takeWhile_cons_of_neg (by simp [hfirst])
    simp only [List.flatten_cons, List.cons_append, List.cons.injEq] at he
    obtain ⟨rfl, he⟩ := he
    have hdeeper := congrArg (List.takeWhile (depth < ·.depth)) he
    rw [List.takeWhile_append_of_pos (by simpa using hd), List.takeWhile_append_of_pos (by simpa using hd'),
      hstops hblocks, hstops hothers, List.append_nil, List.append_nil] at hdeeper
    rw [hdeeper] at he
    rw [hdeeper, eq_of_blocks hblocks hothers (List.append_cancel_left he)]

end OutlineLine

theorem forall₂_of_map_eq {α β γ : Type} {f : α → γ} {g : β → γ} {R : α → β → Prop} : ∀ {as : List α} {bs : List β},
    (∀ a ∈ as, ∀ b ∈ bs, f a = g b → R a b) → as.map f = bs.map g → List.Forall₂ R as bs
  | [], [], _, _ => .nil
  | a :: as, b :: bs, h, he => by
    rw [List.map_cons, List.map_cons, List.cons.injEq] at he
    refine .cons (h a List.mem_cons_self b List.mem_cons_self he.1) (forall₂_of_map_eq (fun a ha b hb => ?_) he.2)
    exact h a (List.mem_cons_of_mem _ ha) b (List.mem_cons_of_mem _ hb)

theorem map_eq_of_forall₂ {α β γ : Type} {f : α → γ} {g : β → γ} {R : α → β → Prop} {as : List α} {bs : List β}
    (h : List.Forall₂ R as bs) (he : ∀ a ∈ as, ∀ b, R a b → f a = g b) : as.map f = bs.map g := by
  induction h with
  | nil => rfl
  | @cons a b as bs hab _ ih =>
    rw [List.map_cons, List.map_cons, he a List.mem_cons_self b hab, ih fun a ha => he a (List.mem_cons_of_mem _ ha)]

namespace Node

/-! ## The parts of a node -/

/-- The groups of a call. -/
def groups : Node → List Group
  | .call _ groups _ => groups
  | .text .. | .number .. | .use .. | .define .. | .bind .. | .reference .. | .stray _ => []

/-- The nodes that stand in a node, and in no other one in it. -/
def parts : Node → List Node
  | .call _ groups _ => groups.flatMap (·.values)
  | .define _ _ body _ => body
  | .bind _ _ value _ => value
  | .stray group => group.values
  | .text .. | .number .. | .use .. | .reference .. => []

theorem sizeOf_lt_of_mem_values {group : Group} {part : Node} (h : part ∈ group.values) :
    sizeOf part < sizeOf group := by
  obtain ⟨index, values, span⟩ := group
  have hlt : sizeOf part < sizeOf values := List.sizeOf_lt_of_mem h
  simp only [Group.mk.sizeOf_spec]
  omega

theorem sizeOf_lt_of_mem_parts {node part : Node} (h : part ∈ node.parts) : sizeOf part < sizeOf node := by
  cases node with
  | call name groups span =>
    obtain ⟨group, hg, hv⟩ := List.mem_flatMap.1 h
    have hgroup := List.sizeOf_lt_of_mem hg
    have hpart := sizeOf_lt_of_mem_values hv
    simp only [call.sizeOf_spec]
    omega
  | define name params body span =>
    have hpart : sizeOf part < sizeOf body := List.sizeOf_lt_of_mem h
    simp only [define.sizeOf_spec]
    omega
  | bind name changes value span =>
    have hpart : sizeOf part < sizeOf value := List.sizeOf_lt_of_mem h
    simp only [bind.sizeOf_spec]
    omega
  | stray group =>
    have hpart := sizeOf_lt_of_mem_values h
    simp only [stray.sizeOf_spec]
    omega
  | text | number | use | reference => cases h

/-- What holds of a node if it holds of its parts holds of all nodes. -/
theorem induction_parts {p : Node → Prop} (h : ∀ node, (∀ part ∈ node.parts, p part) → p node) (node : Node) : p node :=
  h node fun part _ => induction_parts h part
termination_by sizeOf node
decreasing_by exact sizeOf_lt_of_mem_parts ‹_›

theorem preorder_subset_of_mem_parts {node part : Node} (h : part ∈ node.parts) : part.preorder ⊆ node.preorder := by
  intro inner hi
  cases node with
  | call name groups span =>
    obtain ⟨group, hg, hv⟩ := List.mem_flatMap.1 h
    exact preorderAll_values_subset hg name span (mem_preorderAll_iff.2 ⟨part, hv, hi⟩)
  | define name params body span =>
    exact preorderAll_body_subset name params body span (mem_preorderAll_iff.2 ⟨part, h, hi⟩)
  | bind name changes value span =>
    exact preorderAll_value_subset name changes value span (mem_preorderAll_iff.2 ⟨part, h, hi⟩)
  | stray group =>
    obtain ⟨index, values, span⟩ := group
    rw [preorder, Group.preorder]
    exact List.mem_cons_of_mem _ (mem_preorderAll_iff.2 ⟨part, h, hi⟩)
  | text | number | use | reference => cases h

/-- Whether a node and all nodes in it are as they are read. -/
def TreeAsRead (node : Node) : Prop := ∀ part ∈ node.preorder, part.AsRead

theorem TreeAsRead.asRead {node : Node} (h : node.TreeAsRead) : node.AsRead := h node (mem_preorder_self node)

theorem TreeAsRead.part {node part : Node} (h : node.TreeAsRead) (hp : part ∈ node.parts) : part.TreeAsRead :=
  fun inner hi => h inner (preorder_subset_of_mem_parts hp hi)

theorem treeAsRead_of_ofText {text : String} {nodes : List Node} (h : ofText text = .ok nodes) :
    ∀ node ∈ nodes, node.TreeAsRead :=
  fun node hn part hp => asRead_of_ofText h part (mem_preorderAll_iff.2 ⟨node, hn, hp⟩)

/-! ## The lines of a tree -/

theorem outlineLinesAll_eq_flatten (depth : Nat) (nodes : List Node) :
    outlineLinesAll depth nodes = (nodes.map (·.outlineLines depth)).flatten := by
  induction nodes with
  | nil => rw [outlineLinesAll, List.map_nil, List.flatten_nil]
  | cons node rest ih => rw [outlineLinesAll, ih, List.map_cons, List.flatten_cons]

theorem groupOutlineLinesAll_eq_flatten (depth : Nat) (groups : List Group) :
    Group.outlineLinesAll depth groups = (groups.map (·.outlineLines depth)).flatten := by
  induction groups with
  | nil => rw [Group.outlineLinesAll, List.map_nil, List.flatten_nil]
  | cons group rest ih => rw [Group.outlineLinesAll, ih, List.map_cons, List.flatten_cons]

/-- What a group's line says. -/
def groupLine (group : Group) : String := "Args[" ++ toString group.index ++ "]"

/-- The lines below a node's own. -/
def innerLines (depth : Nat) : Node → List OutlineLine
  | .call _ groups _ => Group.outlineLinesAll depth groups
  | .define _ _ body _ => outlineLinesAll depth body
  | .bind _ _ value _ => outlineLinesAll depth value
  | .text .. | .number .. | .use .. | .reference .. | .stray _ => []

theorem outlineLines_eq {node : Node} (h : node.AsRead) (depth : Nat) :
    node.outlineLines depth = ⟨depth, node.head.line⟩ :: node.innerLines (depth + 1) := by
  cases node with
  | stray => exact h.elim
  | text | number | call | use | define | bind | reference => simp only [outlineLines, innerLines, head, Head.line]

theorem groupOutlineLines_eq (group : Group) (depth : Nat) :
    group.outlineLines depth = ⟨depth, groupLine group⟩ :: outlineLinesAll (depth + 1) group.values := by
  cases group
  rw [Group.outlineLines, groupLine]

theorem fits_head {node : Node} (h : node.AsRead) (depth : Nat) : OutlineLine.Fits ⟨depth, node.head.line⟩ := by
  refine ⟨Head.onOneLine_line h.head, ?_⟩
  rw [Head.head?_line h.head]
  cases node with
  | stray => exact h.elim
  | text | number | call | use | define | bind | reference => simp [head, Head.initial]

theorem fits_group (group : Group) (depth : Nat) : OutlineLine.Fits ⟨depth, groupLine group⟩ :=
  ⟨((by decide : OnOneLine "Args[").append (onOneLine_toString group.index)).append (by decide), by simp [groupLine]⟩

/-- A line below a node's own is of a part of the node, or is a group's. -/
theorem mem_innerLines {node : Node} {depth : Nat} {line : OutlineLine} (h : line ∈ node.innerLines depth) :
    (∃ part ∈ node.parts, ∃ deeper, depth ≤ deeper ∧ line ∈ part.outlineLines deeper) ∨
      ∃ group, line = ⟨depth, groupLine group⟩ := by
  have hnodes : ∀ {deeper nodes}, line ∈ outlineLinesAll deeper nodes →
      ∃ part ∈ nodes, line ∈ part.outlineLines deeper := by
    intro deeper nodes hm
    rw [outlineLinesAll_eq_flatten, ← List.flatMap_def] at hm
    exact List.mem_flatMap.1 hm
  cases node with
  | call name groups span =>
    rw [innerLines, groupOutlineLinesAll_eq_flatten, ← List.flatMap_def, List.mem_flatMap] at h
    obtain ⟨group, hg, hm⟩ := h
    rw [groupOutlineLines_eq, List.mem_cons] at hm
    rcases hm with rfl | hm
    · exact .inr ⟨group, rfl⟩
    · obtain ⟨part, hp, hline⟩ := hnodes hm
      exact .inl ⟨part, List.mem_flatMap.2 ⟨group, hg, hp⟩, depth + 1, by omega, hline⟩
  | define | bind =>
    obtain ⟨part, hp, hline⟩ := hnodes h
    exact .inl ⟨part, hp, depth, le_rfl, hline⟩
  | text | number | use | reference | stray => cases h

/-- A node's lines can be told apart, and are as deep as the node at least. -/
theorem fits_of_mem_outlineLines {node : Node} (h : node.TreeAsRead) {depth : Nat} {line : OutlineLine}
    (hl : line ∈ node.outlineLines depth) : depth ≤ line.depth ∧ line.Fits := by
  induction node using induction_parts generalizing depth line with
  | h node ih =>
    rw [outlineLines_eq h.asRead, List.mem_cons] at hl
    rcases hl with rfl | hl
    · exact ⟨le_rfl, fits_head h.asRead depth⟩
    rcases mem_innerLines hl with ⟨part, hp, deeper, hd, hl⟩ | ⟨group, rfl⟩
    · obtain ⟨hdepth, hfits⟩ := ih part hp (h.part hp) hl
      exact ⟨by omega, hfits⟩
    · exact ⟨by simp, fits_group group _⟩

theorem isBlock_outlineLines {node : Node} (h : node.TreeAsRead) (depth : Nat) :
    OutlineLine.IsBlock depth (node.outlineLines depth) := by
  refine ⟨_, _, outlineLines_eq h.asRead depth, rfl, fun line hl => ?_⟩
  rcases mem_innerLines hl with ⟨part, hp, deeper, hd, hl⟩ | ⟨group, rfl⟩
  · exact Nat.lt_of_lt_of_le (by omega) (fits_of_mem_outlineLines (h.part hp) hl).1
  · exact Nat.lt_succ_self depth

theorem isBlock_groupOutlineLines {group : Group} (h : ∀ node ∈ group.values, node.TreeAsRead) (depth : Nat) :
    OutlineLine.IsBlock depth (group.outlineLines depth) := by
  refine ⟨_, _, groupOutlineLines_eq group depth, rfl, fun line hl => ?_⟩
  rw [outlineLinesAll_eq_flatten, ← List.flatMap_def, List.mem_flatMap] at hl
  obtain ⟨node, hn, hl⟩ := hl
  exact (fits_of_mem_outlineLines (h node hn) hl).1

end Node

/-! ## Nodes that are the same -/

mutual

/-- Whether two nodes are the same but for their places, and for what a number is beyond the way it is printed. -/
inductive Node.Same : Node → Node → Prop where
  | text {value span around} : Node.Same (.text value span) (.text value around)
  | number {value other : Binary64} {span around} : value.toText = other.toText →
      Node.Same (.number value span) (.number other around)
  | call {name groups others span around} : List.Forall₂ Group.Same groups others →
      Node.Same (.call name groups span) (.call name others around)
  | use {moduleName builtIn span around} : Node.Same (.use moduleName builtIn span) (.use moduleName builtIn around)
  | define {name params body other span around} : List.Forall₂ Node.Same body other →
      Node.Same (.define name params body span) (.define name params other around)
  | bind {name changes value other span around} : List.Forall₂ Node.Same value other →
      Node.Same (.bind name changes value span) (.bind name changes other around)
  | reference {name changes span around} : Node.Same (.reference name changes span) (.reference name changes around)

/-- Whether two groups are the same in this way. -/
inductive Group.Same : Group → Group → Prop where
  | mk {index values others span around} : List.Forall₂ Node.Same values others →
      Group.Same ⟨index, values, span⟩ ⟨index, others, around⟩

end

namespace Node

/-- The lines of nodes beside each other tell the nodes, if those of each do. -/
theorem same_of_outlineLinesAll {nodes others : List Node} {depth : Nat} (h : ∀ node ∈ nodes, node.TreeAsRead)
    (ho : ∀ other ∈ others, other.TreeAsRead)
    (hsame : ∀ node ∈ nodes, ∀ other ∈ others, node.outlineLines depth = other.outlineLines depth → node.Same other)
    (he : outlineLinesAll depth nodes = outlineLinesAll depth others) : List.Forall₂ Same nodes others := by
  rw [outlineLinesAll_eq_flatten, outlineLinesAll_eq_flatten] at he
  exact forall₂_of_map_eq hsame <| OutlineLine.eq_of_blocks
    (List.forall_mem_map.2 fun node hn => isBlock_outlineLines (h node hn) depth)
    (List.forall_mem_map.2 fun other hn => isBlock_outlineLines (ho other hn) depth) he

theorem same_group {group other : Group} (hline : groupLine group = groupLine other)
    (hvalues : List.Forall₂ Same group.values other.values) : group.Same other := by
  obtain ⟨index, values, span⟩ := group
  obtain ⟨index', others, around⟩ := other
  have hdigits : Nat.toDigits 10 index = Nat.toDigits 10 index' := by
    simpa [groupLine, Nat.repr, String.ofList_inj] using hline
  have hindex : index = index' := by
    rw [← Nat.ofDigitChars_toDigits (n := index) (by decide : 1 < 10) (by decide), hdigits,
      Nat.ofDigitChars_toDigits (by decide) (by decide)]
  rw [hindex]
  exact .mk hvalues

/-- The lines of a node tell the node. -/
theorem same_of_outlineLines {node other : Node} (h : node.TreeAsRead) (ho : other.TreeAsRead) {depth : Nat}
    (he : node.outlineLines depth = other.outlineLines depth) : node.Same other := by
  induction node using induction_parts generalizing other depth with
  | h node ih =>
    rw [outlineLines_eq h.asRead, outlineLines_eq ho.asRead, List.cons.injEq, OutlineLine.mk.injEq] at he
    have halike := Head.alike_of_line h.asRead.head ho.asRead.head he.1.2
    -- What stands in both nodes is told by the same induction.
    have hparts : ∀ {nodes others : List Node} {deeper : Nat}, nodes ⊆ node.parts → others ⊆ other.parts →
        outlineLinesAll deeper nodes = outlineLinesAll deeper others → List.Forall₂ Same nodes others := by
      intro nodes others deeper hn hm
      refine same_of_outlineLinesAll (fun part hp => h.part (hn hp)) (fun part hp => ho.part (hm hp)) ?_
      exact fun part hp twin ht => ih part (hn hp) (h.part (hn hp)) (ho.part (hm ht))
    have hinner := he.2
    cases node with
    | text =>
      cases other <;> cases halike
      exact .text
    | number =>
      cases other <;> cases halike
      case refl => exact .number rfl
      case number ht => exact .number ht
    | use =>
      cases other <;> cases halike
      exact .use
    | reference name changes =>
      cases other <;> cases halike
      case reference.refl twin around =>
      rw [h.asRead.2, ho.asRead.2]
      exact .reference
    | stray => exact h.asRead.elim
    | call name groups span =>
      cases other <;> cases halike
      case call.refl others around =>
      rw [innerLines, innerLines, groupOutlineLinesAll_eq_flatten, groupOutlineLinesAll_eq_flatten] at hinner
      have hg : ∀ {group}, group ∈ groups → group.values ⊆ (call name groups span).parts :=
        fun hm part hp => List.mem_flatMap.2 ⟨_, hm, hp⟩
      have hk : ∀ {group}, group ∈ others → group.values ⊆ (call name others around).parts :=
        fun hm part hp => List.mem_flatMap.2 ⟨_, hm, hp⟩
      have hblocks := OutlineLine.eq_of_blocks
        (List.forall_mem_map.2 fun group hm => isBlock_groupOutlineLines (fun part hp => h.part (hg hm hp)) (depth + 1))
        (List.forall_mem_map.2 fun group hm => isBlock_groupOutlineLines (fun part hp => ho.part (hk hm hp)) (depth + 1))
        hinner
      refine .call (forall₂_of_map_eq (fun group hm twin ht heq => ?_) hblocks)
      rw [groupOutlineLines_eq, groupOutlineLines_eq, List.cons.injEq, OutlineLine.mk.injEq] at heq
      exact same_group heq.1.2 (hparts (hg hm) (hk ht) heq.2)
    | define name params body span =>
      cases other <;> cases halike
      exact .define (hparts (List.Subset.refl _) (List.Subset.refl _) hinner)
    | bind name changes value span =>
      cases other <;> cases halike
      exact .bind (hparts (List.Subset.refl _) (List.Subset.refl _) hinner)

theorem Same.outlineLines_eq {node other : Node} (h : node.Same other) (depth : Nat) :
    node.outlineLines depth = other.outlineLines depth := by
  induction node using induction_parts generalizing other depth with
  | h node ih =>
    have hparts : ∀ {nodes others : List Node} (deeper : Nat), nodes ⊆ node.parts → List.Forall₂ Same nodes others →
        outlineLinesAll deeper nodes = outlineLinesAll deeper others := by
      intro nodes others deeper hn hs
      rw [outlineLinesAll_eq_flatten, outlineLinesAll_eq_flatten,
        map_eq_of_forall₂ hs fun part hp twin ht => ih part (hn hp) ht deeper]
    cases h with
    | text | use | reference => simp only [outlineLines]
    | number ht => simp only [outlineLines, ht]
    | @call name groups others _ _ hs =>
      rw [outlineLines, outlineLines, groupOutlineLinesAll_eq_flatten, groupOutlineLinesAll_eq_flatten,
        map_eq_of_forall₂ hs fun group hm twin ht => ?_]
      cases ht with
      | mk hv =>
        rw [groupOutlineLines_eq, groupOutlineLines_eq]
        exact congrArg (_ :: ·) (hparts _ (fun part hp => List.mem_flatMap.2 ⟨_, hm, hp⟩) hv)
    | @define _ _ body _ _ _ hs => rw [outlineLines, outlineLines, hparts _ (List.Subset.refl body) hs]
    | @bind _ _ value _ _ _ hs => rw [outlineLines, outlineLines, hparts _ (List.Subset.refl value) hs]

/-! ## Which lines there are -/

/-- What the lines of nodes and of their groups say. -/
def ownLines (nodes : List Node) : List String := nodes.map (·.head.line) ++ (nodes.flatMap groups).map groupLine

theorem ownLines_append (nodes more : List Node) :
    (ownLines (nodes ++ more)).Perm (ownLines nodes ++ ownLines more) := by
  simp only [ownLines, List.map_append, List.flatMap_append, List.append_assoc]
  exact (List.perm_append_comm_assoc _ _ _).append_left _

theorem ownLines_cons (node : Node) (nodes : List Node) :
    (ownLines (node :: nodes)).Perm (node.head.line :: (node.groups.map groupLine ++ ownLines nodes)) := by
  simp only [ownLines, List.map_cons, List.flatMap_cons, List.map_append, List.cons_append]
  exact (List.perm_append_comm_assoc _ _ _).cons _

theorem perm_outlineLinesAll {depth : Nat} {nodes : List Node}
    (h : ∀ node ∈ nodes, ((node.outlineLines depth).map (·.text)).Perm (ownLines node.preorder)) :
    ((outlineLinesAll depth nodes).map (·.text)).Perm (ownLines (preorderAll nodes)) := by
  induction nodes with
  | nil => simp [outlineLinesAll, preorderAll, ownLines]
  | cons node rest ih =>
    obtain ⟨hnode, hrest⟩ := List.forall_mem_cons.1 h
    rw [outlineLinesAll, preorderAll, List.map_append]
    exact (hnode.append (ih hrest)).trans (ownLines_append _ _).symm

theorem perm_groupOutlineLinesAll {depth : Nat} {groups : List Group}
    (h : ∀ group ∈ groups, ∀ node ∈ group.values,
      ((node.outlineLines (depth + 1)).map (·.text)).Perm (ownLines node.preorder)) :
    ((Group.outlineLinesAll depth groups).map (·.text)).Perm
      (groups.map groupLine ++ ownLines (Group.preorderAll groups)) := by
  induction groups with
  | nil => simp [Group.outlineLinesAll, Group.preorderAll, ownLines]
  | cons group rest ih =>
    obtain ⟨hgroup, hrest⟩ := List.forall_mem_cons.1 h
    have hvalues := perm_outlineLinesAll hgroup
    have hpreorder : group.preorder = preorderAll group.values := by
      cases group
      rw [Group.preorder]
    rw [Group.outlineLinesAll, groupOutlineLines_eq, Group.preorderAll, hpreorder, List.cons_append, List.map_cons,
      List.map_append, List.map_cons, List.cons_append]
    refine .cons _ ((hvalues.append (ih hrest)).trans ?_)
    exact (List.perm_append_comm_assoc _ _ _).trans ((ownLines_append _ _).symm.append_left _)

/-- Every node in a tree and every group has one line. -/
theorem perm_outlineLines {node : Node} (h : node.TreeAsRead) (depth : Nat) :
    ((node.outlineLines depth).map (·.text)).Perm (ownLines node.preorder) := by
  induction node using induction_parts generalizing depth with
  | h node ih =>
    have hinner : ∀ {inner}, node.preorder = node :: inner →
        ((node.innerLines (depth + 1)).map (·.text)).Perm (node.groups.map groupLine ++ ownLines inner) →
        ((node.outlineLines depth).map (·.text)).Perm (ownLines node.preorder) := by
      intro inner hp hi
      rw [outlineLines_eq h.asRead, hp, List.map_cons]
      exact (hi.cons _).trans (ownLines_cons node inner).symm
    cases node with
    | text | number | use | reference => exact hinner (by rw [preorder]) (.refl _)
    | stray => exact h.asRead.elim
    | call name groups span =>
      refine hinner (by rw [preorder]) (perm_groupOutlineLinesAll fun group hg part hp => ?_)
      have hpart : part ∈ (call name groups span).parts := List.mem_flatMap.2 ⟨group, hg, hp⟩
      exact ih part hpart (h.part hpart) _
    | define name params body span =>
      exact hinner (by rw [preorder]) (perm_outlineLinesAll fun part hp => ih part hp (h.part hp) _)
    | bind name changes value span =>
      exact hinner (by rw [preorder]) (perm_outlineLinesAll fun part hp => ih part hp (h.part hp) _)

/-! ## Outlines -/

theorem toList_outline (nodes : List Node) :
    (outline nodes).toList = "Document".toList ++ '\n' :: (outlineLinesAll 1 nodes).flatMap (·.render.toList) := by
  rw [outline, String.toList_append, String.toList_join, List.flatMap_map]
  rfl

theorem fits_of_mem_outlineLinesAll {nodes : List Node} (h : ∀ node ∈ nodes, node.TreeAsRead) {depth : Nat} :
    ∀ line ∈ outlineLinesAll depth nodes, line.Fits := by
  intro line hl
  rw [outlineLinesAll_eq_flatten, ← List.flatMap_def, List.mem_flatMap] at hl
  obtain ⟨node, hn, hl⟩ := hl
  exact (fits_of_mem_outlineLines (h node hn) hl).2

/-- The lines of an outline, the first of which is its title. -/
theorem lines_outline {nodes : List Node} (h : ∀ node ∈ nodes, node.TreeAsRead) : Text.lines (outline nodes).toList =
    "Document\n".toList :: (outlineLinesAll 1 nodes).map (·.render.toList) := by
  have htitle : OnOneLine "Document" := by decide
  rw [toList_outline, Text.lines_append htitle, OutlineLine.lines_flatMap_render (fits_of_mem_outlineLinesAll h)]
  rfl

/-- Two texts that are read have the same outline just if their trees are the same, but for places and for what
numbers are beyond the way they are printed. Whatever characters there are in a text, every node and every group
in its tree has one line of its outline, and there are no other lines but the title. -/
theorem outline_faithful {text other : String} {nodes others : List Node} (h : ofText text = .ok nodes)
    (ho : ofText other = .ok others) :
    (outline nodes = outline others ↔ List.Forall₂ Same nodes others) ∧
      Text.lines (outline nodes).toList =
        "Document\n".toList :: (outlineLinesAll 1 nodes).map (·.render.toList) ∧
      ((outlineLinesAll 1 nodes).map (·.text)).Perm (ownLines (preorderAll nodes)) := by
  have hread := treeAsRead_of_ofText h
  have hreadOther := treeAsRead_of_ofText ho
  refine ⟨⟨fun he => ?_, fun hs => ?_⟩, lines_outline hread, ?_⟩
  · have hlines := congrArg (fun s : String => Text.lines s.toList) he
    simp only [lines_outline hread, lines_outline hreadOther, List.cons.injEq, true_and] at hlines
    have hall := OutlineLine.map_render_inj (fits_of_mem_outlineLinesAll hread)
      (fits_of_mem_outlineLinesAll hreadOther) hlines
    refine same_of_outlineLinesAll hread hreadOther (fun node hn twin ht => ?_) hall
    exact same_of_outlineLines (hread node hn) (hreadOther twin ht)
  · have hall : outlineLinesAll 1 nodes = outlineLinesAll 1 others := by
      rw [outlineLinesAll_eq_flatten, outlineLinesAll_eq_flatten,
        map_eq_of_forall₂ hs fun node _ twin ht => ht.outlineLines_eq 1]
    rw [outline, outline, hall]
  · exact perm_outlineLinesAll fun node hn => perm_outlineLines (hread node hn) 1

/-- The zero at the front of a number is not told, and the quote and the line end of a text stay on its line. -/
theorem outline_faithful_zeros : ∃ nodes others, ofText "(f|01|it's\x0c)" = .ok nodes ∧
    ofText "(f|1|it's\x0c)" = .ok others ∧ List.Forall₂ Same nodes others ∧
    (Text.lines (outline nodes).toList).length = 7 ∧ (ownLines (preorderAll nodes)).Perm
      ["Call (f)", "Args[0]", "Args[1]", "Number(1.0)", "Args[2]", "Text(\"it's\\x0c\")"] := by
  have hall : ∀ text ∈ ["(f|01|it's\x0c)", "(f|1|it's\x0c)"], (ofText text).toOption.map (outlineLinesAll 1) =
      some [⟨1, "Call (f)"⟩, ⟨2, "Args[0]"⟩, ⟨2, "Args[1]"⟩, ⟨3, "Number(1.0)"⟩, ⟨2, "Args[2]"⟩,
        ⟨3, "Text(\"it's\\x0c\")"⟩] := by decide +kernel
  have hlines := hall _ List.mem_cons_self
  have hother := hall _ (List.mem_cons_of_mem _ List.mem_cons_self)
  cases h : ofText "(f|01|it's\x0c)" with
  | error => simp [h, Except.toOption] at hlines
  | ok nodes =>
  cases ho : ofText "(f|1|it's\x0c)" with
  | error => simp [ho, Except.toOption] at hother
  | ok others =>
  simp only [h, ho, Except.toOption, Option.map_some, Option.some.injEq] at hlines hother
  obtain ⟨hsame, htext, hperm⟩ := outline_faithful h ho
  refine ⟨nodes, others, rfl, rfl, hsame.1 ?_, ?_, ?_⟩
  · rw [outline, outline, hlines, hother]
  · rw [htext, hlines]
    rfl
  · rw [hlines] at hperm
    exact hperm.symm

end Node

end Markup
