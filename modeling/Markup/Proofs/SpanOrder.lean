/-
Spans go forward.

Over characters a place goes forward (`Position.Precedes`), so it never comes to
a smaller line, or to a smaller column of the same line. The tokens of a text
stand in a row: each begins where the last one stopped or behind that, and goes
forward. Reading keeps to that (`State.Ordered`): what is open began before the
place that has been come to. So the nodes of a text go forward, and so does the
token that is reported where it has no tree.
-/
import Markup.Document.Import
import Markup.Proofs.ParseStep
import Markup.Proofs.ScanErrors
import Markup.Proofs.Tiling

namespace Markup

/-! ## Places -/

/-- Whether characters lead from a place to another. -/
def Position.Precedes (p q : Position) : Prop := ∃ cs, q = p.advance cs

namespace Position

variable {p q r : Position}

theorem Precedes.refl (p : Position) : p.Precedes p := ⟨[], rfl⟩

theorem Precedes.trans (h : p.Precedes q) (k : q.Precedes r) : p.Precedes r := by
  obtain ⟨cs, rfl⟩ := h
  obtain ⟨ds, rfl⟩ := k
  exact ⟨cs ++ ds, (advance_append p cs ds).symm⟩

theorem precedes_advance (p : Position) (cs : List Char) : p.Precedes (p.advance cs) := ⟨cs, rfl⟩

/-- Places are ordered by their lines, and on one line by their columns. -/
theorem Precedes.line_column (h : p.Precedes q) : p.line < q.line ∨ p.line = q.line ∧ p.column ≤ q.column := by
  obtain ⟨cs, rfl⟩ := h
  induction cs using List.reverseRecOn with
  | nil => exact .inr ⟨rfl, Int.le_refl _⟩
  | append_singleton cs c ih =>
    rw [advance_concat]
    by_cases hc : c = '\n'
    · subst hc
      rw [step_newline]
      exact .inl (by simp only; omega)
    · rw [step_of_ne hc]
      simp only
      omega

theorem Precedes.one_le (h : first.Precedes p) : 1 ≤ p.line ∧ 1 ≤ p.column := by
  obtain ⟨cs, rfl⟩ := h
  rw [column_advance_first]
  exact ⟨line_le_line_advance first cs, by omega⟩

end Position

/-- Whether a span stands behind the first place and goes forward. -/
structure Span.Forward (s : Span) : Prop where
  start : Position.first.Precedes s.start
  stop : s.start.Precedes s.stop

theorem Span.Forward.extend {start p q : Position} (h : (Span.mk start p).Forward) (hq : p.Precedes q) :
    (Span.mk start q).Forward :=
  ⟨h.start, h.stop.trans hq⟩

namespace Token

/-! ## Tokens in a row -/

/-- Whether tokens stand behind a place, one behind the other, and each goes forward. -/
inductive Row : Position → List Token → Prop where
  | nil (p : Position) : Row p []
  | cons {p : Position} {t : Token} {rest : List Token} : p.Precedes t.span.start →
      t.span.start.Precedes t.span.stop → Row t.span.stop rest → Row p (t :: rest)

theorem Row.of_precedes {p q : Position} {tokens : List Token} (h : Row q tokens) (hp : p.Precedes q) :
    Row p tokens := by
  cases h with
  | nil => exact .nil p
  | cons hstart hstop hrest => exact .cons (hp.trans hstart) hstop hrest

theorem row_place {pieces : List Piece} : ∀ {p : Position} {more : List Token},
    Row (p.advance (Piece.textAll pieces)) more → Row p (place p pieces ++ more) := by
  induction pieces with
  | nil => exact id
  | cons piece pieces ih =>
    intro p more h
    cases piece with
    | token kind value raw =>
      rw [Piece.textAll_token, Position.advance_append] at h
      exact .cons (.refl p) (p.precedes_advance raw) (ih h)
    | gap chars =>
      rw [Piece.textAll_gap, Position.advance_append] at h
      exact (ih h).of_precedes (p.precedes_advance chars)

/-- The tokens of a text stand in a row from its first place on. -/
theorem row_of_scan {text : String} {tokens : List Token} (h : scan text = .ok tokens) : Row .first tokens := by
  obtain ⟨pieces, -, rfl⟩ := scan_ok_iff.1 h
  exact row_place (.cons (.refl _) (.refl _) (.nil _))

theorem precedes_of_scan_error {text : String} {e : ScanError} (h : scan text = .error e) :
    Position.first.Precedes e.position := by
  obtain ⟨pieces, rest, cause, before, -, -, rfl⟩ := scan_error_iff.1 h
  exact (Position.precedes_advance _ _).trans (Position.precedes_advance _ _)

end Token

namespace Node

/-! ## What is open -/

/-- Whether all that is open began behind the first place and before the given one, and the nodes of
the document that are finished go forward. -/
def Context.Ordered (p : Position) : Context → Prop
  | .document values => ∀ node ∈ values, node.span.Forward
  | .call start _ _ _ _ outer => (Span.mk start p).Forward ∧ outer.Ordered p
  | .define start _ _ _ outer => (Span.mk start p).Forward ∧ outer.Ordered p
  | .line start _ _ _ outer => (Span.mk start p).Forward ∧ outer.Ordered p

/-- The same of the construct of which the next token is a part. -/
def Mode.Ordered (p : Position) : Mode → Prop
  | .name _ start | .params start _ _ | .group start _ _ => (Span.mk start p).Forward
  | .ready | .blank _ => True

/-- Whether what is open began before the last token stopped. -/
structure State.Ordered (st : State) : Prop where
  place : Position.first.Precedes st.lastStop
  context : st.context.Ordered st.lastStop
  mode : st.mode.Ordered st.lastStop

section

variable {p q : Position} {ctx : Context}

theorem Context.Ordered.mono (h : ctx.Ordered p) (hq : p.Precedes q) : ctx.Ordered q := by
  induction ctx with
  | document => exact h
  | call _ _ _ _ _ _ ih | define _ _ _ _ _ ih | line _ _ _ _ _ ih => exact ⟨h.1.extend hq, ih h.2⟩

theorem Context.Ordered.push (h : ctx.Ordered p) {node : Node} (hn : node.span.Forward) (trimmable : Bool) :
    (ctx.push node trimmable).Ordered p := by
  cases ctx with
  | document values => exact List.forall_mem_cons.2 ⟨hn, h⟩
  | call | define | line => exact h

theorem Context.Ordered.closeLine (h : ctx.Ordered p) : (ctx.closeLine p).Ordered p := by
  cases ctx with
  | line start name changes pieces outer =>
    have hbound : (bound start p name changes pieces).span.Forward := h.1
    exact Ordered.push h.2 hbound false
  | document | call | define => exact h

theorem Context.Ordered.closeLinesWith : ∀ {ctx : Context} {node : Option Node}, ctx.Ordered p →
    (∀ n, node = some n → n.span.Forward) → (closeLinesWith p ctx node).Ordered p
  | .line start name changes pieces outer, node, h, _ => by
    rw [Context.closeLinesWith]
    refine closeLinesWith h.2 fun n hn => ?_
    cases hn
    exact h.1
  | .document _, none, h, _ | .call _ _ _ _ _ _, none, h, _ | .define _ _ _ _ _, none, h, _ => h
  | .document _, some n, h, hn | .call _ _ _ _ _ _, some n, h, hn | .define _ _ _ _ _, some n, h, hn =>
    Ordered.push h (hn n rfl) false

theorem Context.Ordered.closeLines (h : ctx.Ordered p) : (ctx.closeLines p).Ordered p :=
  closeLinesWith h nofun

end

/-! ## One token -/

theorem span_of_leaf? {t : Token} {node : Node} {trimmable : Bool} (h : leaf? t = some (node, trimmable)) :
    node.span = t.span := by
  obtain ⟨kind, value, raw, span⟩ := t
  cases kind with
  | keyword | identifier | comment | openParen | closeParen | endOfInput => cases h
  | _ => cases h; rfl

section

variable {st next : State} {t : Token} {ctx : Context}

theorem State.Meets.ordered (hm : st.Meets t ctx) (h : st.Ordered) : ctx.Ordered st.lastStop := by
  cases hm with
  | ready => exact h.context
  | group hg =>
    have hmode := h.mode
    rw [hg] at hmode
    exact ⟨hmode, h.context⟩
  | body hb =>
    have hmode := h.mode
    rw [hb] at hmode
    exact ⟨hmode, h.context⟩

theorem Takes.ordered {lastStop : Position} (h : Takes ctx lastStop t next) (hc : ctx.Ordered lastStop)
    (hfirst : Position.first.Precedes lastStop) (hstart : lastStop.Precedes t.span.start)
    (hstop : t.span.start.Precedes t.span.stop) : next.Ordered := by
  have hspan : t.span.Forward := ⟨hfirst.trans hstart, hstop⟩
  have hto : lastStop.Precedes t.span.stop := hstart.trans hstop
  have hplace : Position.first.Precedes t.span.stop := hfirst.trans hto
  have hctx : ctx.Ordered t.span.stop := hc.mono hto
  have hclosed : (ctx.closeLines lastStop).Ordered t.span.stop := hc.closeLines.mono hto
  cases h with
  | opens => exact ⟨hplace, hctx, hspan⟩
  | leaf node trimmable hn => exact ⟨hplace, hctx.push (span_of_leaf? hn ▸ hspan) trimmable, trivial⟩
  | skips => exact ⟨hplace, hctx, trivial⟩
  | endsLine => exact ⟨hplace, hctx.closeLine, trivial⟩
  | separates _ he =>
    rw [he] at hclosed
    exact ⟨hplace, hclosed.2, hclosed.1⟩
  | closesCall _ he | closesDefinition _ he =>
    rw [he] at hclosed
    refine ⟨hplace, Context.Ordered.push hclosed.2 ?_ false, trivial⟩
    exact hclosed.1
  | ends _ he =>
    rw [he] at hclosed
    exact ⟨hplace, hclosed, trivial⟩

theorem Begins.ordered {construct : Named} {start : Position} (h : Begins ctx start t construct next)
    (hc : ctx.Ordered t.span.stop) (hplace : Position.first.Precedes t.span.stop)
    (hstart : (Span.mk start t.span.stop).Forward) : next.Ordered := by
  cases h with
  | blank => exact ⟨hplace, hc, trivial⟩
  | call | define => exact ⟨hplace, hc, hstart⟩
  | use =>
    refine ⟨hplace, Context.Ordered.push hc ?_ false, trivial⟩
    exact hstart
  | bind => exact ⟨hplace, ⟨hstart, hc⟩, trivial⟩

/-- A token that stands behind the last one keeps what is open in order. -/
theorem State.Ordered.step (h : st.Ordered) (hs : st.step t = .ok next)
    (hstart : st.lastStop.Precedes t.span.start) (hstop : t.span.start.Precedes t.span.stop) :
    next.Ordered ∧ next.lastStop = t.span.stop := by
  have hto : st.lastStop.Precedes t.span.stop := hstart.trans hstop
  have hplace : Position.first.Precedes t.span.stop := h.place.trans hto
  rcases State.step_cases hs with ⟨ctx, hm, ht⟩ | ⟨construct, start, hm, -, hn⟩ | ⟨start, name, params, hm, -, -, rfl⟩
  · exact ⟨ht.ordered (hm.ordered h) h.place hstart hstop, by cases ht <;> rfl⟩
  · have hmode := h.mode
    rw [hm] at hmode
    exact ⟨hn.ordered (h.context.mono hto) hplace (hmode.extend hto), by cases hn <;> rfl⟩
  · have hmode := h.mode
    rw [hm] at hmode
    exact ⟨⟨hplace, h.context.mono hto, hmode.extend hto⟩, rfl⟩

end

/-! ## The token that is reported -/

theorem Shape.stepReady_found {brackets : List Bracket} {t : Token} {e : ParseError}
    (h : Shape.stepReady brackets t = .error e) : e.found = t := by
  unfold Shape.stepReady at h
  split at h
  case h_8 => split at h <;> cases h
  all_goals cases h
  all_goals rfl

theorem Shape.step_found {s : Shape} {t : Token} {e : ParseError} (h : s.step t = .error e) : e.found = t := by
  unfold Shape.step at h
  split at h
  next => exact stepReady_found h
  next =>
    split at h
    next => cases h
    next => cases h; rfl
  next => cases h; rfl
  next =>
    split at h
    next =>
      split at h
      next => cases h; rfl
      next => cases h
    next => exact stepReady_found h
    next => exact stepReady_found h
    next => exact stepReady_found h
    next => exact stepReady_found h
    next => cases h; rfl
    next => cases h; rfl

theorem State.step_found {st : State} {t : Token} {e : ParseError} (h : st.step t = .error e) : e.found = t := by
  have hshape := State.shape_step st t
  rw [h] at hshape
  exact Shape.step_found hshape.symm

/-! ## All tokens -/

theorem State.Ordered.forward_of_end {st next : State} {t : Token} (h : next.Ordered) (hs : st.step t = .ok next)
    (hk : t.kind = .endOfInput) : ∀ node ∈ next.context.finished, node.span.Forward := by
  obtain ⟨values, rfl⟩ := State.step_endOfInput hs hk
  exact fun node hn => h.context node (List.mem_reverse.1 hn)

/-- From a state in order, tokens in a row lead to nodes that go forward, or to the report of a token
that does. -/
theorem State.Ordered.run : ∀ {tokens : List Token} {st : State}, st.Ordered → Token.Row st.lastStop tokens →
    match st.run tokens with
    | .ok nodes => ∀ node ∈ nodes, node.span.Forward
    | .error e => e.span.Forward
  | [], st, h, _ => by
    have hhere := Position.Precedes.refl st.lastStop
    rw [State.run]
    cases hs : st.step ⟨.endOfInput, "", "", ⟨st.lastStop, st.lastStop⟩⟩ with
    | error e =>
      have hforward : (Span.mk st.lastStop st.lastStop).Forward := ⟨h.place, hhere⟩
      simp only [Except.map, ParseError.span, State.step_found hs]
      exact hforward
    | ok next =>
      simp only [Except.map]
      exact (h.step hs hhere hhere).1.forward_of_end hs rfl
  | t :: rest, st, h, .cons hstart hstop hrest => by
    rw [State.run]
    cases hs : st.step t with
    | error e =>
      have hforward : t.span.Forward := ⟨h.place.trans hstart, hstop⟩
      simp only [ParseError.span, State.step_found hs]
      exact hforward
    | ok next =>
      obtain ⟨hn, hlast⟩ := h.step hs hstart hstop
      by_cases hk : t.kind = .endOfInput
      · simp only [hk, if_true]
        exact hn.forward_of_end hs hk
      · simp only [hk, if_false]
        exact State.Ordered.run hn (hlast ▸ hrest)

theorem State.ordered_start : State.start.Ordered := ⟨.refl _, nofun, trivial⟩

/-! ## The whole text -/

variable {text : String}

theorem forward_of_ofText {nodes : List Node} (h : ofText text = .ok nodes) : ∀ node ∈ nodes, node.span.Forward := by
  obtain ⟨tokens, hs, hp⟩ := ofText_ok_iff.1 h
  have hrun := State.ordered_start.run (Token.row_of_scan hs)
  rw [show State.start.run tokens = .ok nodes from hp] at hrun
  exact hrun

/-- What is reported of a text without a tree is a place of it, or goes forward in it. -/
theorem TextError.forward_of_ofText {e : TextError} (h : ofText text = .error e) :
    match e with
    | .tokens e => Position.first.Precedes e.position
    | .tree e => e.span.Forward := by
  rcases ofText_error_iff.1 h with ⟨f, hs, rfl⟩ | ⟨tokens, f, hs, hp, rfl⟩
  · exact Token.precedes_of_scan_error hs
  · have hrun := State.ordered_start.run (Token.row_of_scan hs)
    rw [show State.start.run tokens = .error f from hp] at hrun
    exact hrun

end Node

end Markup
