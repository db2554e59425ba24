/-
Reading sees little of its tokens: tokens that are alike are taken alike.

A `Likeness` says which places and which texts count as the same. All that
reading asks of a text is whether it is blank and whether it ends a line, and all
that it does to one is to cut blanks off its edges, so a likeness that respects
these is kept by every step (`State.Like.step`): the nodes are alike, or the same
is missing at tokens that are alike.
-/
import Markup.Node.Parse
import Mathlib.Data.List.Forall2

namespace Markup

/-- Whether two results are both failures that are related, or both values that are. -/
inductive Agree {ε δ α β : Type} (E : ε → δ → Prop) (R : α → β → Prop) : Except ε α → Except δ β → Prop where
  | ok {a b} : R a b → Agree E R (.ok a) (.ok b)
  | error {e f} : E e f → Agree E R (.error e) (.error f)

theorem Agree.imp {ε δ α β : Type} {E E' : ε → δ → Prop} {R R' : α → β → Prop} {x : Except ε α} {y : Except δ β}
    (h : Agree E R x y) (he : ∀ {e f}, E e f → E' e f) (hr : ∀ {a b}, R a b → R' a b) : Agree E' R' x y := by
  cases h with
  | ok h => exact .ok (hr h)
  | error h => exact .error (he h)

/-- Which places and texts count as the same, of two texts that are read. -/
structure Likeness where
  /-- Which places of a start are the same. -/
  start : Position → Position → Prop
  /-- Which places of a stop are the same. -/
  stop : Position → Position → Prop
  text : String → String → Prop
  /-- Which words may be parameters. -/
  word : String → Prop
  stop_of_start {p q : Position} : start p q → stop p q
  isAllBlank_eq {s t : String} : text s t → Text.isAllBlank s = Text.isAllBlank t
  contains_newline_eq {s t : String} : text s t → s.toList.contains '\n' = t.toList.contains '\n'
  stripStart {s t : String} : text s t → text (Text.stripStart s) (Text.stripStart t)
  stripEnd {s t : String} : text s t → text (Text.stripEnd s) (Text.stripEnd t)
  dollar {s t : String} : text s t → text ("$" ++ s) ("$" ++ t)

variable (L : Likeness)

/-- Whether two spans have the same ends. -/
structure Span.Like (s t : Span) : Prop where
  start : L.start s.start t.start
  stop : L.stop s.stop t.stop

variable {L} in
theorem Span.Like.of_ends {p q p' q' : Position} (h : L.start p q) (h' : L.stop p' q') :
    Span.Like L ⟨p, p'⟩ ⟨q, q'⟩ := ⟨h, h'⟩

/-- Whether two tokens count as the same. Only plain text may differ; comments are not looked at. -/
structure Token.Like (t u : Token) : Prop where
  kind : u.kind = t.kind
  value : t.kind ≠ .comment → L.text t.value u.value
  same : t.kind ≠ .text → t.kind ≠ .comment → u.value = t.value
  word : t.kind = .argument → L.word t.value
  span : t.span.Like L u.span

mutual

/-- Whether two nodes differ in no more than places and texts that count as the same. -/
inductive Node.Like : Node → Node → Prop where
  | text {value other span around} : L.text value other → span.Like L around →
      Node.Like (.text value span) (.text other around)
  | number {value span around} : span.Like L around → Node.Like (.number value span) (.number value around)
  | call {name groups others span around} : List.Forall₂ Group.Like groups others → span.Like L around →
      Node.Like (.call name groups span) (.call name others around)
  | use {moduleName builtIn span around} : span.Like L around →
      Node.Like (.use moduleName builtIn span) (.use moduleName builtIn around)
  | define {name params body other span around} : (∀ param ∈ params, L.word param) →
      List.Forall₂ Node.Like body other → span.Like L around →
      Node.Like (.define name params body span) (.define name params other around)
  | bind {name changes value other span around} : List.Forall₂ Node.Like value other → span.Like L around →
      Node.Like (.bind name changes value span) (.bind name changes other around)
  | reference {name changes span around} : span.Like L around →
      Node.Like (.reference name changes span) (.reference name changes around)
  | stray {group other} : Group.Like group other → Node.Like (.stray group) (.stray other)

/-- Whether two groups differ in no more. -/
inductive Group.Like : Group → Group → Prop where
  | mk {index values others span around} : List.Forall₂ Node.Like values others → span.Like L around →
      Group.Like ⟨index, values, span⟩ ⟨index, others, around⟩

end

/-- Whether the same is missing at tokens that count as the same. -/
structure ParseError.Like (e f : ParseError) : Prop where
  expected : f.expected = e.expected
  found : e.found.Like L f.found

namespace Node

/-- Whether two pieces of a value count as the same. -/
structure Piece.Like (piece other : Piece) : Prop where
  node : piece.node.Like L other.node
  trimmable : other.trimmable = piece.trimmable

/-- Whether two constructs being read count as the same. -/
inductive Context.Like : Context → Context → Prop where
  | document {values others} : List.Forall₂ (Node.Like L) values others →
      Context.Like (.document values) (.document others)
  | call {start begins name groups more groupStart groupBegins values others outer around} :
      L.start start begins → List.Forall₂ (Group.Like L) groups more → L.start groupStart groupBegins →
      List.Forall₂ (Node.Like L) values others → Context.Like outer around →
      Context.Like (.call start name groups groupStart values outer) (.call begins name more groupBegins others around)
  | define {start begins name params values others outer around} : L.start start begins →
      (∀ param ∈ params, L.word param) → List.Forall₂ (Node.Like L) values others → Context.Like outer around →
      Context.Like (.define start name params values outer) (.define begins name params others around)
  | line {start begins name changes pieces others outer around} : L.start start begins →
      List.Forall₂ (Piece.Like L) pieces others → Context.Like outer around →
      Context.Like (.line start name changes pieces outer) (.line begins name changes others around)

/-- Whether the same has to come next. -/
inductive Mode.Like : Mode → Mode → Prop where
  | ready : Mode.Like .ready .ready
  | name {construct start begins} : L.start start begins → Mode.Like (.name construct start) (.name construct begins)
  | blank {construct} : Mode.Like (.blank construct) (.blank construct)
  | params {start begins label given} : L.start start begins → (∀ param ∈ given, L.word param) →
      Mode.Like (.params start label given) (.params begins label given)
  | group {start begins label groups others} : L.start start begins → List.Forall₂ (Group.Like L) groups others →
      Mode.Like (.group start label groups) (.group begins label others)

/-- Whether two states count as the same. -/
structure State.Like (st other : State) : Prop where
  context : st.context.Like L other.context
  mode : st.mode.Like L other.mode
  lastStop : L.stop st.lastStop other.lastStop

variable {L}

/-! ## Values -/

theorem Piece.Like.trimEdge {cut : String → String} (hcut : ∀ {s t}, L.text s t → L.text (cut s) (cut t))
    {pieces others : List Piece} (h : List.Forall₂ (Piece.Like L) pieces others) :
    List.Forall₂ (Piece.Like L) (trimEdge cut pieces) (trimEdge cut others) := by
  induction h with
  | nil => exact .nil
  | @cons piece other rest more hp hrest ih =>
    obtain ⟨node, trimmable⟩ := piece
    obtain ⟨twin, trimmable'⟩ := other
    have hn : node.Like L twin := hp.node
    obtain rfl : trimmable = trimmable' := hp.trimmable.symm
    cases trimmable with
    | false =>
      have hsame : List.Forall₂ (Piece.Like L) (⟨node, false⟩ :: rest) (⟨twin, false⟩ :: more) := .cons ⟨hn, rfl⟩ hrest
      simpa [Node.trimEdge] using hsame
    | true =>
      have hsame : List.Forall₂ (Piece.Like L) (⟨node, true⟩ :: rest) (⟨twin, true⟩ :: more) := .cons ⟨hn, rfl⟩ hrest
      cases hn with
      | text ht hs =>
        simp only [Node.trimEdge, L.isAllBlank_eq ht]
        split
        next => exact ih
        next => exact .cons ⟨.text (hcut ht) hs, rfl⟩ hrest
      | number | call | use | define | bind | reference | stray => exact hsame

theorem Piece.Like.trimLine {pieces others : List Piece} (h : List.Forall₂ (Piece.Like L) pieces others) :
    List.Forall₂ (Piece.Like L) (trimLine pieces) (trimLine others) := by
  rw [Node.trimLine, Node.trimLine, List.forall₂_reverse_iff]
  exact trimEdge L.stripEnd (List.forall₂_reverse_iff.2 (trimEdge L.stripStart h))

namespace Context

theorem bound_like {start begins stop ends : Position} (hstart : L.start start begins) (hstop : L.stop stop ends)
    (name : String) (changes : Bool) {pieces others : List Piece} (h : List.Forall₂ (Piece.Like L) pieces others) :
    (bound start stop name changes pieces).Like L (bound begins ends name changes others) := by
  refine .bind ?_ ⟨hstart, hstop⟩
  rw [List.forall₂_map_left_iff, List.forall₂_map_right_iff]
  exact (Piece.Like.trimLine (List.forall₂_reverse_iff.2 h)).imp fun _ _ hp => hp.node

variable {ctx other : Context} (h : ctx.Like L other)
include h

theorem Like.push {node twin : Node} (hn : node.Like L twin) (trimmable : Bool) :
    (ctx.push node trimmable).Like L (other.push twin trimmable) := by
  cases h with
  | document hv => exact .document (.cons hn hv)
  | call hs hg hgs hv ho => exact .call hs hg hgs (.cons hn hv) ho
  | define hs hp hv ho => exact .define hs hp (.cons hn hv) ho
  | line hs hp ho => exact .line hs (.cons ⟨hn, rfl⟩ hp) ho

theorem Like.inCall_eq : other.inCall = ctx.inCall := by
  induction h with
  | document | call | define => rfl
  | line _ _ _ ih => exact ih

theorem Like.finished : List.Forall₂ (Node.Like L) ctx.finished other.finished := by
  induction h with
  | document hv => exact List.forall₂_reverse_iff.2 hv
  | call _ _ _ _ _ ih | define _ _ _ _ ih | line _ _ _ ih => exact ih

theorem Like.closeLine {stop ends : Position} (hstop : L.stop stop ends) :
    (ctx.closeLine stop).Like L (other.closeLine ends) := by
  cases h with
  | line hs hp ho => exact ho.push (bound_like hs hstop _ _ hp) false
  | document hv => exact .document hv
  | call hs hg hgs hv ho => exact .call hs hg hgs hv ho
  | define hs hp hv ho => exact .define hs hp hv ho

theorem Like.closeLinesWith {stop ends : Position} (hstop : L.stop stop ends) {node twin : Option Node}
    (hn : Option.Rel (Node.Like L) node twin) :
    (closeLinesWith stop ctx node).Like L (closeLinesWith ends other twin) := by
  induction h generalizing node twin with
  | line hs hp _ ih =>
    refine ih (.some (bound_like hs hstop _ _ ?_))
    cases hn with
    | none => exact hp
    | some hn => exact .cons ⟨hn, rfl⟩ hp
  | document hv =>
    cases hn with
    | none => exact .document hv
    | some hn => exact (Like.document hv).push hn false
  | call hs hg hgs hv ho =>
    cases hn with
    | none => exact .call hs hg hgs hv ho
    | some hn => exact (Like.call hs hg hgs hv ho).push hn false
  | define hs hp hv ho =>
    cases hn with
    | none => exact .define hs hp hv ho
    | some hn => exact (Like.define hs hp hv ho).push hn false

theorem Like.closeLines {stop ends : Position} (hstop : L.stop stop ends) :
    (ctx.closeLines stop).Like L (other.closeLines ends) := h.closeLinesWith hstop .none

end Context

/-! ## One token -/

theorem isEmpty_eq_of_forall₂ {α β : Type} {R : α → β → Prop} {as : List α} {bs : List β}
    (h : List.Forall₂ R as bs) : bs.isEmpty = as.isEmpty := by
  cases h <;> rfl

theorem addGroup_like {groups more : List Group} {values others : List Node} {span around : Span}
    (hg : List.Forall₂ (Group.Like L) groups more) (hv : List.Forall₂ (Node.Like L) values others)
    (hs : span.Like L around) :
    List.Forall₂ (Group.Like L) (addGroup groups values span) (addGroup more others around) := by
  rw [addGroup, addGroup, hg.length_eq]
  exact .cons (.mk (List.forall₂_reverse_iff.2 hv) hs) hg

section

variable {ctx other : Context} {t u : Token} (hc : ctx.Like L other) (ht : t.Like L u)
include ht

theorem endsLine_like : endsLine u = endsLine t := by
  have hvalue := ht.value
  obtain ⟨kind, value, raw, span⟩ := t
  obtain ⟨kind', twin, raw', around⟩ := u
  obtain rfl : kind = kind' := ht.kind.symm
  cases kind with
  | text => exact (L.contains_newline_eq (hvalue nofun)).symm
  | _ => rfl

include hc

theorem endsLines_like : endsLines other u = endsLines ctx t := by
  rw [endsLines, endsLines, ht.kind, hc.inCall_eq]

theorem stepValue_like : Agree (ParseError.Like L) (State.Like L) (stepValue ctx t) (stepValue other u) := by
  have hvalue := ht.value
  have hsame := ht.same
  have hspan := ht.span
  obtain ⟨kind, value, raw, span⟩ := t
  obtain ⟨kind', twin, raw', around⟩ := u
  obtain rfl : kind = kind' := ht.kind.symm
  have hready : ∀ {node twin : Node} (trimmable : Bool), node.Like L twin →
      Agree (ParseError.Like L) (State.Like L) (.ok ⟨ctx.push node trimmable, .ready, span.stop⟩)
        (.ok ⟨other.push twin trimmable, .ready, around.stop⟩) :=
    fun trimmable hn => .ok ⟨hc.push hn trimmable, .ready, hspan.stop⟩
  have hname : ∀ construct : Named, Agree (ParseError.Like L) (State.Like L)
      (.ok ⟨ctx, .name construct span.start, span.stop⟩) (.ok ⟨other, .name construct around.start, around.stop⟩) :=
    fun construct => .ok ⟨hc, .name hspan.start, hspan.stop⟩
  cases kind with
  | keyword word =>
    cases word with
    | endWord => exact .error ⟨rfl, ht⟩
    | letWord | setWord | useWord | defWord => exact hname _
  | openParen => exact hname _
  | identifier | closeParen | endOfInput => exact .error ⟨rfl, ht⟩
  | comment => exact .ok ⟨hc, .ready, hspan.stop⟩
  | reference =>
    obtain rfl : twin = value := hsame nofun nofun
    exact hready _ (.reference hspan)
  | number => exact hready _ (.number hspan)
  | text | escape | hash | slash | pipe => exact hready _ (.text (hvalue nofun) hspan)
  | argument => exact hready _ (.text (L.dollar (hvalue nofun)) hspan)

theorem stepInner_like : Agree (ParseError.Like L) (State.Like L) (stepInner ctx t) (stepInner other u) := by
  have hvalue := stepValue_like hc ht
  cases hc with
  | line => exact hvalue
  | document hv =>
    simp only [stepInner, ht.kind]
    split
    next => exact .ok ⟨.document hv, .ready, ht.span.stop⟩
    next => exact hvalue
  | call hs hg hgs hv ho =>
    simp only [stepInner, ht.kind]
    split
    next =>
      refine .ok ⟨ho.push (.call (List.forall₂_reverse_iff.2 ?_) (.of_ends hs ht.span.stop)) false, .ready, ht.span.stop⟩
      rw [isEmpty_eq_of_forall₂ hv, isEmpty_eq_of_forall₂ hg]
      split
      next => exact hg
      next => exact addGroup_like hg hv (.of_ends hgs (L.stop_of_start ht.span.start))
    next =>
      exact .ok ⟨ho, .group hs (addGroup_like hg hv (.of_ends hgs (L.stop_of_start ht.span.start))), ht.span.stop⟩
    next => exact .error ⟨rfl, ht⟩
    next => exact hvalue
  | define hs hp hv ho =>
    simp only [stepInner, ht.kind]
    split
    next =>
      exact .ok ⟨ho.push (.define hp (List.forall₂_reverse_iff.2 hv) (.of_ends hs ht.span.stop)) false, .ready, ht.span.stop⟩
    next => exact .error ⟨rfl, ht⟩
    next => exact hvalue

theorem stepReady_like {lastStop lastEnd : Position} (hlast : L.stop lastStop lastEnd) :
    Agree (ParseError.Like L) (State.Like L) (stepReady ctx lastStop t) (stepReady other lastEnd u) := by
  have hinner := stepInner_like hc ht
  have hends := endsLines_like hc ht
  have hclosed := stepInner_like (hc.closeLines hlast) ht
  have hline := hc.closeLine ht.span.stop
  cases hc with
  | document | call | define => exact hinner
  | line =>
    simp only [stepReady, hends, endsLine_like ht]
    split
    next => exact hclosed
    next =>
    split
    next => exact .ok ⟨hline, .ready, ht.span.stop⟩
    next => exact hinner

theorem stepName_like (hk : t.kind = .identifier) (construct : Named) {start begins : Position}
    (hs : L.start start begins) :
    (stepName ctx construct start t).Like L (stepName other construct begins u) := by
  have hvalue : u.value = t.value := ht.same (by simp [hk]) (by simp [hk])
  cases construct with
  | call =>
    simp only [stepName, hvalue]
    exact ⟨hc, .group hs .nil, ht.span.stop⟩
  | use =>
    simp only [stepName, hvalue]
    split
    next => exact ⟨hc, .blank, ht.span.stop⟩
    next => exact ⟨hc.push (.use (.of_ends hs ht.span.stop)) false, .ready, ht.span.stop⟩
  | define =>
    simp only [stepName, hvalue]
    split
    next => exact ⟨hc, .blank, ht.span.stop⟩
    next => exact ⟨hc, .params hs nofun, ht.span.stop⟩
  | bind changes =>
    simp only [stepName, hvalue]
    split
    next => exact ⟨hc, .blank, ht.span.stop⟩
    next => exact ⟨.line hs .nil hc, .ready, ht.span.stop⟩

end

/-- Tokens that are alike lead from states that are alike to such states, or are refused alike. -/
theorem State.Like.step {st other : State} (h : st.Like L other) {t u : Token} (ht : t.Like L u) :
    Agree (ParseError.Like L) (State.Like L) (st.step t) (other.step u) := by
  obtain ⟨ctx, mode, lastStop⟩ := st
  obtain ⟨twin, _, lastEnd⟩ := other
  obtain ⟨hc, hm, hlast⟩ := h
  cases hm with
  | ready => exact stepReady_like hc ht hlast
  | name hs =>
    simp only [State.step, ht.kind]
    split
    next hk => exact .ok (stepName_like hc ht hk _ hs)
    next => exact .error ⟨rfl, ht⟩
  | blank => exact .error ⟨rfl, ht⟩
  | group hs hg => exact stepReady_like (.call hs hg ht.span.start .nil hc) ht hlast
  | @params start begins label given hs hp =>
    have hctx : (Context.define start label given.reverse [] ctx).Like L (.define begins label given.reverse [] twin) :=
      .define hs (fun param hm => hp param (List.mem_reverse.1 hm)) .nil hc
    have hready := stepReady_like hctx ht hlast
    simp only [State.step, ht.kind]
    split
    next hk =>
      rw [ht.same (by simp [hk]) (by simp [hk])]
      split
      next => exact .error ⟨rfl, ht⟩
      next => exact .ok ⟨hc, .params hs (List.forall_mem_cons.2 ⟨ht.word hk, hp⟩), ht.span.stop⟩
    next => exact hready
    next => exact hready
    next => exact hready
    next => exact hready
    next => exact .error ⟨rfl, ht⟩
    next => exact .error ⟨rfl, ht⟩

theorem State.Like.run {st other : State} (h : st.Like L other) {tokens others : List Token}
    (ht : List.Forall₂ (Token.Like L) tokens others) (hend : ∃ t ∈ tokens, t.kind = .endOfInput) :
    Agree (ParseError.Like L) (List.Forall₂ (Node.Like L)) (st.run tokens) (other.run others) := by
  induction ht generalizing st other with
  | nil => obtain ⟨t, hm, -⟩ := hend; cases hm
  | @cons t u rest more htu _ ih =>
    have hstep := h.step htu
    simp only [State.run, htu.kind]
    generalize st.step t = r, other.step u = s at hstep
    cases hstep with
    | error he => exact .error he
    | ok hnext =>
      simp only
      split
      next => exact .ok hnext.context.finished
      next hk =>
        obtain ⟨v, hv, hkind⟩ := hend
        rcases List.mem_cons.1 hv with rfl | hv
        · exact absurd hkind hk
        · exact ih hnext ⟨v, hv, hkind⟩

theorem parse_like {tokens others : List Token} (h : List.Forall₂ (Token.Like L) tokens others)
    (hend : ∃ t ∈ tokens, t.kind = .endOfInput) (hfirst : L.stop .first .first) :
    Agree (ParseError.Like L) (List.Forall₂ (Node.Like L)) (parse tokens) (parse others) :=
  State.Like.run ⟨.document .nil, .ready, hfirst⟩ h hend

end Node

end Markup
