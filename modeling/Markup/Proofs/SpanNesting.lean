/-
Spans nest.

The span of a node lies in that of the node or group around it, behind its siblings
before it and before those behind it; the groups of a call are counted from 0 and lie
between its parentheses. What is cut out of the text by the span of a construct begins
and ends as the construct is written, and that of plain text and of a number is one
token (`SpansNest`, `spans_nest`).

An invariant of reading carries this (`State.Nests`): each construct being read began
where its first characters stand, all that it holds lies behind these in order, and what
stands around it has come no further than to where it begins.
-/
import Markup.Proofs.HeldNodes
import Markup.Proofs.SpanOrder
import Markup.Proofs.TokenTexts

namespace Markup

/-! ## Spans in order -/

/-- Spans one behind the other, from one offset on up to another. -/
inductive Span.Lined : Int → List Span → Int → Prop where
  | nil {a b : Int} : a ≤ b → Lined a [] b
  | cons {a b : Int} {s : Span} {rest : List Span} : a ≤ s.start.offset → s.start.offset ≤ s.stop.offset →
      Lined s.stop.offset rest b → Lined a (s :: rest) b

namespace Span.Lined

variable {a b c : Int} {spans : List Span}

theorem le (h : Lined a spans b) : a ≤ b := by
  induction h with
  | nil hab => exact hab
  | cons ha hs _ ih => omega

theorem mono {a' b' : Int} (h : Lined a spans b) (ha : a' ≤ a) (hb : b ≤ b') : Lined a' spans b' := by
  induction h generalizing a' with
  | nil hab => exact .nil (by omega)
  | cons hs hle _ ih => exact .cons (by omega) hle (ih (Int.le_refl _) hb)

theorem append {more : List Span} (h : Lined a spans b) (k : Lined b more c) : Lined a (spans ++ more) c := by
  induction h with
  | nil hab => exact k.mono hab (Int.le_refl _)
  | cons hs hle _ ih => exact .cons hs hle (ih k)

theorem concat {s : Span} (h : Lined a spans b) (hb : b ≤ s.start.offset) (hs : s.start.offset ≤ s.stop.offset)
    (hc : s.stop.offset ≤ c) : Lined a (spans ++ [s]) c :=
  h.append (.cons hb hs (.nil hc))

theorem sublist {less : List Span} (h : Lined a spans b) (hs : less.Sublist spans) : Lined a less b := by
  induction h generalizing less with
  | nil hab => rw [List.sublist_nil.1 hs]; exact .nil hab
  | cons ha hle _ ih =>
    cases hs with
    | cons _ hs => exact (ih hs).mono (by omega) (Int.le_refl _)
    | cons_cons _ hs => exact .cons ha hle (ih hs)

end Span.Lined

namespace Node

/-! ## What nests -/

/-- The characters that begin a construct. -/
def Named.front : Named → List Char
  | call => ['(']
  | use => "#use".toList
  | define => "#def".toList
  | bind false => "#let".toList
  | bind true => "#set".toList

/-- Groups counted from 0, between two offsets in order, each with its values in order in it. -/
structure GroupsNest (text : List Char) (groups : List Group) (start stop : Int) : Prop where
  indexes : groups.map (·.index) = List.range groups.length
  lined : Span.Lined start (groups.map (·.span)) stop
  each : ∀ group ∈ groups, group.span.IsIn text ∧
    Span.Lined group.span.start.offset (group.values.map span) group.span.stop.offset

/-- How the parts of a node lie in its span, and what the text there begins and ends with. -/
def PartsNest (text : List Char) (tokens : List Token) : Node → Prop
  | .text _ span | .number _ span => ∃ t ∈ tokens, t.span = span ∧ t.raw.toList = span.slice text
  | .call name groups span => '(' :: name.toList <+: span.slice text ∧ [')'] <:+ span.slice text ∧
      GroupsNest text groups (span.start.offset + 1) (span.stop.offset - 1)
  | .use _ _ span => Named.use.front <+: span.slice text
  | .define _ _ body span => Named.define.front <+: span.slice text ∧ "#end".toList <:+ span.slice text ∧
      Span.Lined span.start.offset (body.map Node.span) span.stop.offset
  | .bind _ changes value span => (Named.bind changes).front <+: span.slice text ∧
      Span.Lined span.start.offset (value.map Node.span) span.stop.offset
  | .reference _ _ span => ['#'] <+: span.slice text
  | .stray _ => False

/-- Whether a node is a part of the text, and its own parts nest in it. -/
structure SpansNest (text : List Char) (tokens : List Token) (node : Node) : Prop where
  isIn : node.span.IsIn text
  parts : node.PartsNest text tokens

/-! ## What is being read -/

/-- Whether a construct that begins with certain characters began at a place, and these end before an offset. -/
structure Opens (text cs : List Char) (start : Position) (place : Int) : Prop where
  isIn : start.IsIn text
  front : cs <+: text.drop start.offset.toNat
  le : start.offset + cs.length ≤ place

/-- Nodes, newest first, that lie between two offsets in order, and all nodes in them nest. -/
structure ValuesNest (text : List Char) (tokens : List Token) (values : List Node) (start stop : Int) : Prop where
  lined : Span.Lined start (values.reverse.map span) stop
  nodes : ∀ node ∈ preorderAll values, node.SpansNest text tokens

/-- Finished groups of a call, newest first, that lie between two offsets, and all nodes in them nest. -/
structure FinishedNest (text : List Char) (tokens : List Token) (groups : List Group) (start stop : Int) :
    Prop where
  row : GroupsNest text groups.reverse start stop
  nodes : ∀ node ∈ Group.preorderAll groups, node.SpansNest text tokens

/-- Whether the constructs being read, come to an offset, nest, and so does all that they hold. -/
def Context.Nests (text : List Char) (tokens : List Token) : Context → Int → Prop
  | .document values, place => ValuesNest text tokens values 0 place
  | .call start name groups groupStart values outer, place =>
      Opens text ('(' :: name.toList) start groupStart.offset ∧ groupStart.IsIn text ∧
      FinishedNest text tokens groups (start.offset + 1) groupStart.offset ∧
      ValuesNest text tokens values groupStart.offset place ∧ outer.Nests text tokens start.offset
  | .define start _ _ values outer, place => Opens text Named.define.front start place ∧
      ValuesNest text tokens values start.offset place ∧ outer.Nests text tokens start.offset
  | .line start _ changes pieces outer, place => Opens text (Named.bind changes).front start place ∧
      ValuesNest text tokens (pieces.map (·.node)) start.offset place ∧ outer.Nests text tokens start.offset

/-- The same of the construct of which the next token, at `next`, is a part. -/
def Mode.Nests (text : List Char) (tokens : List Token) (ctx : Context) (place next : Int) : Mode → Prop
  | .ready => ctx.Nests text tokens place
  | .name construct start => Opens text construct.front start place ∧
      (construct = .call → start.offset + 1 = next) ∧ ctx.Nests text tokens start.offset
  | .blank _ => True
  | .params start _ _ => Opens text Named.define.front start place ∧ ctx.Nests text tokens start.offset
  | .group start called groups => Opens text ('(' :: called.toList) start place ∧
      FinishedNest text tokens groups (start.offset + 1) place ∧ ctx.Nests text tokens start.offset

/-- Whether a state nests before a token that starts at `next`. -/
structure State.Nests (text : List Char) (tokens : List Token) (st : State) (next : Int) : Prop where
  place : st.lastStop.IsIn text
  le : st.lastStop.offset ≤ next
  mode : st.mode.Nests text tokens st.context st.lastStop.offset next

/-- What reading relies on in a token of a text behind which the next one starts at `next`. -/
structure Stands (text : List Char) (tokens : List Token) (t : Token) (next : Int) : Prop where
  mem : t ∈ tokens
  isIn : t.span.IsIn text
  raw : t.raw.toList = t.span.slice text
  written : t.Written
  stop_le : t.span.stop.offset ≤ next
  touches : t.kind = .openParen → t.span.stop.offset = next

section

variable {text cs : List Char} {tokens : List Token} {start stop : Position} {a b c : Int}
  {values : List Node} {groups : List Group} {pieces : List Piece} {ctx : Context} {node : Node}

theorem Opens.mono (h : Opens text cs start a) (hb : a ≤ b) : Opens text cs start b :=
  ⟨h.isIn, h.front, Int.le_trans h.le hb⟩

theorem Opens.start_le (h : Opens text cs start a) : start.offset ≤ a := by
  have := h.le
  omega

theorem Opens.span (h : Opens text cs start a) (hstop : stop.IsIn text) (ha : a ≤ stop.offset) :
    (Span.mk start stop).IsIn text ∧ cs <+: (Span.mk start stop).slice text :=
  ⟨⟨h.isIn, hstop, Int.le_trans h.start_le ha⟩, Span.prefix_slice h.front (Int.le_trans h.le ha)⟩

theorem ValuesNest.nil (h : a ≤ b) : ValuesNest text tokens [] a b :=
  ⟨.nil h, by simp [preorderAll]⟩

theorem ValuesNest.mono (h : ValuesNest text tokens values a b) (hc : b ≤ c) : ValuesNest text tokens values a c :=
  ⟨h.lined.mono (Int.le_refl _) hc, h.nodes⟩

theorem ValuesNest.cons (h : ValuesNest text tokens values a b)
    (hn : ∀ part ∈ node.preorder, part.SpansNest text tokens) (hb : b ≤ node.span.start.offset)
    (hc : node.span.stop.offset ≤ c) : ValuesNest text tokens (node :: values) a c := by
  refine ⟨?_, ?_⟩
  · rw [List.reverse_cons, List.map_append, List.map_singleton]
    exact h.lined.concat hb (hn node (mem_preorder_self node)).isIn.le hc
  · intro part hp
    rw [preorderAll, List.mem_append] at hp
    exact hp.elim (hn part) (h.nodes part)

theorem FinishedNest.nil (h : a ≤ b) : FinishedNest text tokens [] a b :=
  ⟨⟨rfl, .nil h, by simp⟩, by simp [Group.preorderAll]⟩

theorem FinishedNest.mono (h : FinishedNest text tokens groups a b) (hc : b ≤ c) :
    FinishedNest text tokens groups a c :=
  ⟨⟨h.row.indexes, h.row.lined.mono (Int.le_refl _) hc, h.row.each⟩, h.nodes⟩

/-- A group that ends is counted behind those before it. -/
theorem FinishedNest.addGroup {s : Span} (h : FinishedNest text tokens groups a b)
    (hv : ValuesNest text tokens values s.start.offset s.stop.offset) (hs : s.IsIn text)
    (hb : b ≤ s.start.offset) : FinishedNest text tokens (addGroup groups values s) a s.stop.offset := by
  refine ⟨⟨?_, ?_, ?_⟩, ?_⟩
  · have hindexes := h.row.indexes
    rw [List.length_reverse] at hindexes
    rw [Node.addGroup, List.reverse_cons, List.map_append, hindexes, List.length_append, List.length_reverse,
      List.length_singleton, List.range_succ]
    rfl
  · rw [Node.addGroup, List.reverse_cons, List.map_append]
    exact h.row.lined.concat hb hs.le (Int.le_refl _)
  · rw [Node.addGroup, List.reverse_cons]
    exact List.forall_mem_append.2 ⟨h.row.each, List.forall_mem_singleton.2 ⟨hs, hv.lined⟩⟩
  · intro node hn
    exact (mem_addGroup.1 hn).elim (h.nodes node) (hv.nodes node)

theorem Context.Nests.mono (h : ctx.Nests text tokens a) (hb : a ≤ b) : ctx.Nests text tokens b := by
  cases ctx with
  | document => exact ValuesNest.mono h hb
  | call => exact ⟨h.1, h.2.1, h.2.2.1, h.2.2.2.1.mono hb, h.2.2.2.2⟩
  | define | line => exact ⟨h.1.mono hb, h.2.1.mono hb, h.2.2⟩

/-- A node goes on with a construct that has come no further than to where the node starts. -/
theorem Context.Nests.push (h : ctx.Nests text tokens a)
    (hn : ∀ part ∈ node.preorder, part.SpansNest text tokens) (ha : a ≤ node.span.start.offset)
    (hb : node.span.stop.offset ≤ b) (trimmable : Bool) : (ctx.push node trimmable).Nests text tokens b := by
  have hab : a ≤ b := Int.le_trans ha (Int.le_trans (hn node (mem_preorder_self node)).isIn.le hb)
  cases ctx with
  | document => exact ValuesNest.cons h hn ha hb
  | call => exact ⟨h.1, h.2.1, h.2.2.1, h.2.2.2.1.cons hn ha hb, h.2.2.2.2⟩
  | define | line => exact ⟨h.1.mono hab, h.2.1.cons hn ha hb, h.2.2⟩

/-! ## A value that ends -/

theorem sublist_trimEdge (cut : String → String) (pieces : List Piece) :
    ((trimEdge cut pieces).map (·.node.span)).Sublist (pieces.map (·.node.span)) := by
  fun_induction trimEdge cut pieces with
  | case1 value span rest hb ih => exact ih.cons _
  | case2 value span rest hb => exact List.Sublist.refl _
  | case3 pieces => exact List.Sublist.refl _

theorem sublist_trimLine (pieces : List Piece) :
    ((trimLine pieces).map (·.node.span)).Sublist (pieces.map (·.node.span)) := by
  rw [trimLine, List.map_reverse, ← List.reverse_sublist, List.reverse_reverse]
  refine (sublist_trimEdge _ _).trans ?_
  rw [List.map_reverse, List.reverse_sublist]
  exact sublist_trimEdge _ _

theorem nests_bound {changes : Bool} (ho : Opens text (Named.bind changes).front start a)
    (hv : ValuesNest text tokens (pieces.map (·.node)) start.offset a) (hstop : stop.IsIn text)
    (ha : a ≤ stop.offset) (name : String) :
    ∀ part ∈ (Context.bound start stop name changes pieces).preorder, part.SpansNest text tokens := by
  intro part hp
  rw [Context.bound, preorder] at hp
  rcases List.mem_cons.1 hp with rfl | hp
  · obtain ⟨hspan, hfront⟩ := ho.span hstop ha
    refine ⟨hspan, hfront, ?_⟩
    have hlined := hv.lined.mono (Int.le_refl _) ha
    rw [← List.map_reverse, List.map_map] at hlined
    rw [List.map_map]
    exact hlined.sublist (sublist_trimLine pieces.reverse)
  · obtain ⟨top, htop, hp⟩ := mem_preorderAll_iff.1 hp
    obtain ⟨piece, hm, rfl⟩ := List.mem_map.1 htop
    have hheld : ∀ held ∈ pieces.reverse, ∀ part ∈ held.node.preorder, part.SpansNest text tokens := by
      intro held hh part hp
      exact hv.nodes part (mem_preorderAll_iff.2 ⟨held.node, List.mem_map_of_mem (List.mem_reverse.1 hh), hp⟩)
    cases cutFrom_of_mem_trimLine hm with
    | same hm => exact hheld piece hm part hp
    | text hm he =>
      have hwhole := hheld _ hm _ (mem_preorder_self _)
      rw [he, preorder, List.mem_singleton] at hp
      rw [hp]
      exact ⟨hwhole.isIn, hwhole.parts⟩

/-- Ending all values, at a place that all have come to, leaves a construct that nests. -/
theorem Context.nests_closeLinesWith (hstop : stop.IsIn text) : ∀ {ctx : Context} {added : Option Node} {a : Int},
    ctx.Nests text tokens a → a ≤ stop.offset →
    (∀ top ∈ added, (∀ part ∈ top.preorder, part.SpansNest text tokens) ∧ a ≤ top.span.start.offset ∧
      top.span.stop.offset ≤ stop.offset) → (closeLinesWith stop ctx added).Nests text tokens stop.offset
  | .line start name changes pieces outer, added, a, h, ha, hadded => by
    have hvalues : ValuesNest text tokens (((added.map (Piece.mk · false)).toList ++ pieces).map
        (·.node)) start.offset stop.offset := by
      cases added with
      | none => exact h.2.1.mono ha
      | some top =>
        obtain ⟨hn, hs, he⟩ := hadded top rfl
        exact h.2.1.cons hn hs he
    have hbound := nests_bound (h.1.mono ha) hvalues hstop (Int.le_refl _) name
    simp only [closeLinesWith]
    refine nests_closeLinesWith hstop h.2.2 (Int.le_trans h.1.start_le ha) ?_
    rintro _ ⟨⟩
    exact ⟨hbound, Int.le_refl _, Int.le_refl _⟩
  | .document _, none, a, h, ha, _ | .call _ _ _ _ _ _, none, a, h, ha, _ | .define _ _ _ _ _, none, a, h, ha, _ =>
    Nests.mono h ha
  | .document _, some top, a, h, _, hadded | .call _ _ _ _ _ _, some top, a, h, _, hadded
  | .define _ _ _ _ _, some top, a, h, _, hadded =>
    Nests.push h (hadded top rfl).1 (hadded top rfl).2.1 (hadded top rfl).2.2 false

theorem Context.Nests.closeLines (h : ctx.Nests text tokens stop.offset) (hstop : stop.IsIn text) :
    (ctx.closeLines stop).Nests text tokens stop.offset :=
  nests_closeLinesWith hstop h (Int.le_refl _) nofun

/-! ## One token -/

variable {t : Token} {next : State} {q : Int}

theorem raw_of_opens {construct : Named} (hw : t.Written) (ho : t.kind.opens? = some construct) :
    t.raw.toList = construct.front := by
  have hk := opens?_eq_some_iff.1 ho
  rcases construct with _ | _ | _ | ⟨_ | _⟩
  · exact hw.openParen hk
  all_goals exact hw.keyword _ hk

theorem Stands.length_raw (h : Stands text tokens t q) :
    t.span.start.offset + t.raw.toList.length = t.span.stop.offset := by
  have hle := h.isIn.le
  have hstart := h.isIn.start.offset_nonneg
  have hstop := h.isIn.stop.offset_le
  rw [h.raw, Span.slice, List.length_take, List.length_drop]
  omega

/-- A token that begins a construct stands where that begins. -/
theorem Stands.opens (h : Stands text tokens t q) {construct : Named} (ho : t.kind.opens? = some construct) :
    Opens text construct.front t.span.start t.span.stop.offset := by
  rw [← raw_of_opens h.written ho]
  exact ⟨h.isIn.start, Span.prefix_drop_of_slice (h.raw ▸ List.prefix_rfl), Int.le_of_eq h.length_raw⟩

theorem Stands.opens_call (h : Stands text tokens t q) (hk : t.kind = .identifier)
    (ho : Opens text Named.call.front start a) (hs : start.offset + 1 = t.span.start.offset) :
    Opens text ('(' :: t.value.toList) start t.span.stop.offset := by
  obtain ⟨rest, hrest⟩ := ho.front
  have hstart := ho.isIn.offset_nonneg
  have hraw : t.raw.toList = t.value.toList := by rw [h.written.identifier hk]
  have hname : t.value.toList <+: text.drop t.span.start.offset.toNat := by
    have hslice : t.raw.toList <+: t.span.slice text := h.raw ▸ List.prefix_rfl
    exact Span.prefix_drop_of_slice (hraw ▸ hslice)
  have hdrop : text.drop t.span.start.offset.toNat = rest := by
    rw [show t.span.start.offset.toNat = start.offset.toNat + 1 by omega, ← List.drop_drop, ← hrest]
    rfl
  refine ⟨ho.isIn, ?_, ?_⟩
  · rw [← hrest]
    exact List.cons_prefix_cons.2 ⟨rfl, hdrop ▸ hname⟩
  · have hlength := h.length_raw
    rw [hraw] at hlength
    rw [List.length_cons]
    omega

theorem Stands.nests_leaf (h : Stands text tokens t q) {trimmable : Bool} (hn : leaf? t = some (node, trimmable)) :
    ∀ part ∈ node.preorder, part.SpansNest text tokens := by
  have hself : ∃ u ∈ tokens, u.span = t.span ∧ u.raw.toList = t.span.slice text := ⟨t, h.mem, rfl, h.raw⟩
  have hisIn := h.isIn
  have hreference : t.kind = .reference → ['#'] <+: t.span.slice text := by
    intro hk
    rw [← h.raw, h.written.reference hk]
    exact List.cons_prefix_cons.2 ⟨rfl, List.nil_prefix⟩
  clear h
  rw [preorder_of_leaf? hn, List.forall_mem_singleton]
  obtain ⟨kind, value, raw, span⟩ := t
  cases kind with
  | keyword | identifier | comment | openParen | closeParen | endOfInput => cases hn
  | reference => cases hn; exact ⟨hisIn, hreference rfl⟩
  | number | text | escape | hash | slash | pipe | argument => cases hn; exact ⟨hisIn, hself⟩

theorem State.Meets.nests {st : State} (hm : st.Meets t ctx) (h : st.Nests text tokens t.span.start.offset)
    (ht : Stands text tokens t q) : ctx.Nests text tokens t.span.start.offset ∧
      (ctx.closeLines st.lastStop).Nests text tokens t.span.start.offset := by
  have hle := h.le
  have hmode := h.mode
  cases hm with
  | ready hm =>
    rw [hm] at hmode
    exact ⟨Context.Nests.mono hmode hle, (Context.Nests.closeLines hmode h.place).mono hle⟩
  | group hm =>
    rw [hm] at hmode
    have hcall : Context.Nests text tokens (.call _ _ _ t.span.start [] st.context) t.span.start.offset :=
      ⟨hmode.1.mono hle, ht.isIn.start, hmode.2.1.mono hle, .nil (Int.le_refl _), hmode.2.2⟩
    exact ⟨hcall, hcall⟩
  | @body start name params hm =>
    rw [hm] at hmode
    have hdefine : Context.Nests text tokens (.define start name params.reverse [] st.context)
        t.span.start.offset :=
      ⟨hmode.1.mono hle, .nil (hmode.1.mono hle).start_le, hmode.2⟩
    exact ⟨hdefine, hdefine⟩

/-- The slice of a construct ends with the token that closes it. -/
theorem Stands.suffix (h : Stands text tokens t q) (ho : Opens text cs start t.span.start.offset) :
    t.raw.toList <:+ (Span.mk start t.span.stop).slice text := by
  rw [h.raw]
  exact Span.suffix_slice ho.isIn.offset_nonneg ho.start_le rfl

/-- A call that is closed nests. -/
theorem nests_call {name : String} {groupStart : Position} {outer : Context} (ht : Stands text tokens t q)
    (hk : t.kind = .closeParen)
    (h : (Context.call start name groups groupStart values outer).Nests text tokens t.span.start.offset) :
    ∀ part ∈ (Node.call name (closedGroups groups values ⟨groupStart, t.span.start⟩).reverse
      ⟨start, t.span.stop⟩).preorder, part.SpansNest text tokens := by
  obtain ⟨ho, hgroup, hfinished, hvalues, -⟩ := h
  have hle : groupStart.offset ≤ t.span.start.offset := hvalues.lined.le
  have hlength := ht.length_raw
  rw [ht.written.closeParen hk] at hlength
  have hclosed : FinishedNest text tokens (closedGroups groups values ⟨groupStart, t.span.start⟩)
      (start.offset + 1) (t.span.stop.offset - 1) := by
    rw [show t.span.stop.offset - 1 = t.span.start.offset by rw [← hlength]; simp]
    unfold closedGroups
    split
    next => exact hfinished.mono hle
    next => exact hfinished.addGroup hvalues ⟨hgroup, ht.isIn.start, hle⟩ (Int.le_refl _)
  intro part hp
  rw [preorder] at hp
  rcases List.mem_cons.1 hp with rfl | hp
  · obtain ⟨hspan, hfront⟩ := (ho.mono hle).span ht.isIn.stop ht.isIn.le
    refine ⟨hspan, hfront, ?_, hclosed.row⟩
    rw [← ht.written.closeParen hk]
    exact ht.suffix (ho.mono hle)
  · exact hclosed.nodes part (mem_groupPreorderAll_reverse.1 hp)

theorem nests_define {name : String} {params : List String} {outer : Context} (ht : Stands text tokens t q)
    (hk : t.kind = .keyword .endWord)
    (h : (Context.define start name params values outer).Nests text tokens t.span.start.offset) :
    ∀ part ∈ (Node.define name params values.reverse ⟨start, t.span.stop⟩).preorder,
      part.SpansNest text tokens := by
  obtain ⟨ho, hvalues, -⟩ := h
  intro part hp
  rw [preorder] at hp
  rcases List.mem_cons.1 hp with rfl | hp
  · obtain ⟨hspan, hfront⟩ := ho.span ht.isIn.stop ht.isIn.le
    refine ⟨hspan, hfront, ?_, hvalues.lined.mono (Int.le_refl _) ht.isIn.le⟩
    rw [show "#end".toList = t.raw.toList from (ht.written.keyword _ hk).symm]
    exact ht.suffix ho
  · exact hvalues.nodes part (mem_preorderAll_reverse.1 hp)

theorem Takes.nests {lastStop : Position} (h : Takes ctx lastStop t next) (ht : Stands text tokens t q)
    (hc : ctx.Nests text tokens t.span.start.offset)
    (hclosed : (ctx.closeLines lastStop).Nests text tokens t.span.start.offset) : next.Nests text tokens q := by
  have hstop := ht.isIn.stop
  cases h with
  | opens construct ho =>
    refine ⟨hstop, ht.stop_le, ht.opens ho, ?_, hc⟩
    rintro rfl
    have hk : t.kind = .openParen := opens?_eq_some_iff.1 ho
    have hlength := ht.length_raw
    rw [ht.written.openParen hk, ht.touches hk] at hlength
    exact hlength
  | leaf node trimmable hn =>
    have hspan := span_of_leaf? hn
    have hfrom : t.span.start.offset ≤ node.span.start.offset := Int.le_of_eq (by rw [hspan])
    have hto : node.span.stop.offset ≤ t.span.stop.offset := Int.le_of_eq (by rw [hspan])
    exact ⟨hstop, ht.stop_le, hc.push (ht.nests_leaf hn) hfrom hto trimmable⟩
  | skips => exact ⟨hstop, ht.stop_le, hc.mono ht.isIn.le⟩
  | endsLine hl =>
    cases ctx with
    | document | call | define => cases hl
    | line start name changes pieces outer =>
      refine ⟨hstop, ht.stop_le, Context.Nests.push hc.2.2 (nests_bound hc.1 hc.2.1 hstop ht.isIn.le name) ?_ ?_ false⟩
        <;> exact Int.le_refl _
  | separates hk he =>
    rw [he] at hclosed
    obtain ⟨ho, hgroup, hfinished, hvalues, houter⟩ := hclosed
    have hle := hvalues.lined.le
    refine ⟨hstop, ht.stop_le, ho.mono (Int.le_trans hle ht.isIn.le), ?_, houter⟩
    exact (hfinished.addGroup hvalues ⟨hgroup, ht.isIn.start, hle⟩ (Int.le_refl _)).mono ht.isIn.le
  | closesCall hk he =>
    rw [he] at hclosed
    refine ⟨hstop, ht.stop_le, Context.Nests.push hclosed.2.2.2.2 (nests_call ht hk hclosed) ?_ ?_ false⟩ <;>
      exact Int.le_refl _
  | closesDefinition hk he =>
    rw [he] at hclosed
    refine ⟨hstop, ht.stop_le, Context.Nests.push hclosed.2.2 (nests_define ht hk hclosed) ?_ ?_ false⟩ <;>
      exact Int.le_refl _
  | ends hk he =>
    rw [he] at hclosed
    exact ⟨hstop, ht.stop_le, hclosed.mono ht.isIn.le⟩

theorem Begins.nests {construct : Named} (h : Begins ctx start t construct next) (ht : Stands text tokens t q)
    (hk : t.kind = .identifier) (ho : Opens text construct.front start t.span.start.offset)
    (hcall : construct = .call → start.offset + 1 = t.span.start.offset) (hc : ctx.Nests text tokens start.offset) :
    next.Nests text tokens q := by
  have hstop := ht.isIn.stop
  have hto := ho.mono ht.isIn.le
  cases h with
  | blank => exact ⟨hstop, ht.stop_le, trivial⟩
  | call =>
    have hopens := ht.opens_call hk ho (hcall rfl)
    refine ⟨hstop, ht.stop_le, hopens, .nil ?_, hc⟩
    exact hto.le
  | use =>
    obtain ⟨hspan, hfront⟩ := hto.span hstop (Int.le_refl _)
    refine ⟨hstop, ht.stop_le, hc.push ?_ (Int.le_refl _) (Int.le_refl _) false⟩
    intro part hp
    rw [preorder, List.mem_singleton] at hp
    rw [hp]
    exact ⟨hspan, hfront⟩
  | define => exact ⟨hstop, ht.stop_le, hto, hc⟩
  | bind => exact ⟨hstop, ht.stop_le, hto, .nil hto.start_le, hc⟩

/-! ## The whole machine -/

/-- A token keeps a state nested. -/
theorem State.Nests.step {st : State} (h : st.Nests text tokens t.span.start.offset) (hs : st.step t = .ok next)
    (ht : Stands text tokens t q) : next.Nests text tokens q := by
  have hmode := h.mode
  rcases State.step_cases hs with ⟨ctx, hm, htakes⟩ | ⟨construct, start, hm, hk, hn⟩ |
    ⟨start, name, params, hm, -, -, rfl⟩
  · obtain ⟨hc, hclosed⟩ := hm.nests h ht
    exact htakes.nests ht hc hclosed
  · rw [hm] at hmode
    exact hn.nests ht hk (hmode.1.mono h.le) hmode.2.1 hmode.2.2
  · rw [hm] at hmode
    exact ⟨ht.isIn.stop, ht.stop_le, hmode.1.mono (Int.le_trans h.le ht.isIn.le), hmode.2⟩

/-- What reading relies on in a token and the one behind it. -/
def StandsBefore (text : List Char) (tokens : List Token) (t u : Token) : Prop :=
  Stands text tokens t u.span.start.offset

theorem State.Nests.of_run {nodes : List Node} : ∀ {rest : List Token} {t : Token} {st : State},
    st.Nests text tokens t.span.start.offset → (t :: rest).IsChain (StandsBefore text tokens) →
    (∀ u ∈ t :: rest, u.span.start.offset ≤ text.length) →
    (∀ last ∈ (t :: rest).getLast?, last.kind = .endOfInput) → st.run (t :: rest) = .ok nodes →
    Span.Lined 0 (nodes.map span) text.length ∧ ∀ node ∈ preorderAll nodes, node.SpansNest text tokens
  | rest, t, st, h, hchain, hle, hlast, hr => by
    by_cases hk : t.kind = .endOfInput
    · obtain ⟨hm, values, hclose, rfl⟩ := State.of_run_end hk hr
      have hmode := h.mode
      rw [hm] at hmode
      have hdone := Context.Nests.closeLines hmode h.place
      rw [hclose] at hdone
      refine ⟨hdone.lined.mono (Int.le_refl _) (Int.le_trans h.le (hle t List.mem_cons_self)), ?_⟩
      intro node hn
      exact hdone.nodes node (mem_preorderAll_reverse.1 hn)
    · obtain ⟨next, hs, hr⟩ := (State.run_cons_ok_iff hk).1 hr
      cases rest with
      | nil => exact absurd (hlast t rfl) hk
      | cons u rest =>
        obtain ⟨ht, hrest⟩ := List.isChain_cons_cons.1 hchain
        exact of_run (h.step hs ht) hrest (List.forall_mem_cons.1 hle).2 hlast hr

end

/-! ## A whole text -/

theorem isChain_stands_of_scan {text : String} {tokens : List Token} (h : Token.scan text = .ok tokens) :
    tokens.IsChain (StandsBefore text.toList tokens) := by
  have htouches := Token.touches_of_scan h
  have hordered := Token.pairwise_of_scan h
  rw [List.isChain_iff_forall_rel_of_append_cons_cons] at htouches ⊢
  intro t u before after he
  have ht : t ∈ tokens := by simp [he]
  have hnext : t.span.stop.offset ≤ u.span.start.offset := by
    rw [he] at hordered
    exact (List.pairwise_cons.1 (List.pairwise_append.1 hordered).2.1).1 u List.mem_cons_self
  refine ⟨ht, Token.isIn_of_mem_scan h ht, ((Token.tiles_of_scan h).raw t ht).2, Token.written_of_scan h ht, hnext, ?_⟩
  intro hk
  rw [htouches he hk]

theorem nests_of_parse {text : String} {tokens : List Token} {nodes : List Node} (hs : Token.scan text = .ok tokens)
    (hp : parse tokens = .ok nodes) : Span.Lined 0 (nodes.map span) text.toList.length ∧
      ∀ node ∈ preorderAll nodes, node.SpansNest text.toList tokens := by
  have hle : ∀ t ∈ tokens, t.span.start.offset ≤ text.toList.length :=
    fun t ht => (Token.isIn_of_mem_scan hs ht).start.offset_le
  have hstart : ∀ q, 0 ≤ q → State.start.Nests text.toList tokens q := by
    intro q hq
    exact ⟨Position.isIn_advance [] text.toList, hq, .nil (Int.le_refl _)⟩
  have hchain := isChain_stands_of_scan hs
  obtain ⟨t, rest, rfl, hlast⟩ := Token.exists_cons_of_scan hs
  have hfirst := (Token.isIn_of_mem_scan hs List.mem_cons_self).start.offset_nonneg
  exact (hstart _ hfirst).of_run hchain hle hlast hp

/-- The spans of a text nest: its nodes stand in it in order, and all nodes in them, wherever they are, lie in the
text, with their parts in order in them and the characters at their ends that they are written with. -/
theorem spans_nest {text : String} {tokens : List Token} {nodes : List Node} (hs : Token.scan text = .ok tokens)
    (hp : parse tokens = .ok nodes) : Span.Lined 0 (nodes.map span) text.toList.length ∧
      ∀ node ∈ preorderAll nodes, node.SpansNest text.toList tokens :=
  nests_of_parse hs hp

/-- The value of `x` is a call with two groups, the second of them empty, and its line ends behind the call. -/
theorem spans_nest_call_in_value : ∃ tokens nodes, Token.scan "#let x (f a|)\n#x" = .ok tokens ∧
    parse tokens = .ok nodes ∧ Span.Lined 0 (nodes.map span) 16 ∧
    ∀ node ∈ preorderAll nodes, node.SpansNest "#let x (f a|)\n#x".toList tokens := by
  have hs : Token.scan "#let x (f a|)\n#x" = .ok
      [⟨.keyword .letWord, "let", "#let", ⟨⟨1, 1, 0⟩, ⟨1, 5, 4⟩⟩⟩,
        ⟨.identifier, "x", "x", ⟨⟨1, 6, 5⟩, ⟨1, 7, 6⟩⟩⟩, ⟨.openParen, "(", "(", ⟨⟨1, 8, 7⟩, ⟨1, 9, 8⟩⟩⟩,
        ⟨.identifier, "f", "f", ⟨⟨1, 9, 8⟩, ⟨1, 10, 9⟩⟩⟩, ⟨.text, " a", " a", ⟨⟨1, 10, 9⟩, ⟨1, 12, 11⟩⟩⟩,
        ⟨.pipe, "|", "|", ⟨⟨1, 12, 11⟩, ⟨1, 13, 12⟩⟩⟩, ⟨.closeParen, ")", ")", ⟨⟨1, 13, 12⟩, ⟨1, 14, 13⟩⟩⟩,
        ⟨.text, "\n", "\n", ⟨⟨1, 14, 13⟩, ⟨2, 1, 14⟩⟩⟩, ⟨.reference, "x", "#x", ⟨⟨2, 1, 14⟩, ⟨2, 3, 16⟩⟩⟩,
        ⟨.endOfInput, "", "", ⟨⟨2, 3, 16⟩, ⟨2, 3, 16⟩⟩⟩] := by cbv
  exact ⟨_, _, hs, rfl, spans_nest hs rfl⟩

end Node

end Markup
