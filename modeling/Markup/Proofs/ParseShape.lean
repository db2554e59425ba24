/-
The part of a reading state that decides whether the next token is in place:
the calls and definitions that are open, and what the next token has to be.

`Shape.step` takes one token by that part alone, and `State.shape_step` says
that the whole machine agrees with it, in what it refuses and why as well as
in what it goes on to. So a fact about which tokens can be read, or about the
token that is reported, is a fact about shapes: what has been read so far, the
variables' values and the pipes between groups have no say in it.
-/
import Markup.Node.Parse

namespace Markup

/-- The construct whose name has to follow a token, if one has to. -/
def Token.Kind.opens? : Token.Kind → Option Node.Named
  | .openParen => some .call
  | .keyword .letWord => some (.bind false)
  | .keyword .setWord => some (.bind true)
  | .keyword .useWord => some .use
  | .keyword .defWord => some .define
  | _ => none

namespace Node

/-- Whether a token is a `$` with its name. -/
def isArgument (t : Token) : Bool := t.kind == .argument

/-- The constructs that a token of their own closes. -/
inductive Bracket where
  | call
  | define
  deriving DecidableEq, Repr

/-- What the next token has to be. -/
inductive Phase where
  | ready
  | name (construct : Named)
  | blank (construct : Named)
  | params
  deriving DecidableEq, Repr

/-- The open brackets, innermost first, and what the next token has to be. -/
structure Shape where
  brackets : List Bracket
  phase : Phase
  deriving DecidableEq, Repr

/-- The bracket that a construct's first token opens. -/
def Named.bracket? : Named → Option Bracket
  | .call => some .call
  | .define => some .define
  | .use | .bind _ => none

/-- The kind of a construct's first token. -/
def Named.opener : Named → Token.Kind
  | .call => .openParen
  | .use => .keyword .useWord
  | .define => .keyword .defWord
  | .bind false => .keyword .letWord
  | .bind true => .keyword .setWord

theorem opens?_eq_some_iff {kind : Token.Kind} {construct : Named} :
    kind.opens? = some construct ↔ kind = construct.opener := by
  constructor
  · intro h
    cases kind with
    | keyword word => cases word <;> cases h <;> rfl
    | openParen => cases h; rfl
    | _ => cases h
  · rintro rfl
    rcases construct with _ | _ | _ | ⟨_ | _⟩ <;> rfl

/-- The calls and definitions being read, innermost first. -/
def Context.brackets : Context → List Bracket
  | .document _ => []
  | .call _ _ _ _ _ outer => .call :: outer.brackets
  | .define _ _ _ _ outer => .define :: outer.brackets
  | .line _ _ _ _ outer => outer.brackets

/-- A bracket is open from its first token on, before its name is read. -/
def State.shape (st : State) : Shape :=
  match st.mode with
  | .ready => ⟨st.context.brackets, .ready⟩
  | .name construct _ => ⟨construct.bracket?.toList ++ st.context.brackets, .name construct⟩
  | .blank construct => ⟨construct.bracket?.toList ++ st.context.brackets, .blank construct⟩
  | .params .. => ⟨.define :: st.context.brackets, .params⟩
  | .group .. => ⟨.call :: st.context.brackets, .ready⟩

namespace Shape

/-- What is missing at the end of the text. -/
def Bracket.closer : Bracket → ParseError.Expected
  | .call => .closeParen
  | .define => .endWord

/-- Takes a token that goes on with the innermost bracket, or closes it. -/
def stepReady (brackets : List Bracket) (t : Token) : Except ParseError Shape :=
  match t.kind, brackets with
  | .identifier, _ => .error ⟨.value, t⟩
  | .closeParen, .call :: outer => .ok ⟨outer, .ready⟩
  | .closeParen, _ => .error ⟨.value, t⟩
  | .keyword .endWord, .define :: outer => .ok ⟨outer, .ready⟩
  | .keyword .endWord, _ => .error ⟨.value, t⟩
  | .endOfInput, [] => .ok ⟨[], .ready⟩
  | .endOfInput, b :: _ => .error ⟨Bracket.closer b, t⟩
  | _, _ =>
    match t.kind.opens? with
    | some construct => .ok ⟨construct.bracket?.toList ++ brackets, .name construct⟩
    | none => .ok ⟨brackets, .ready⟩

/-- Takes the name of a construct. -/
def stepName (brackets : List Bracket) (construct : Named) (t : Token) : Shape :=
  if construct = .call then ⟨brackets, .ready⟩
  else if Text.isAllBlank t.value then ⟨brackets, .blank construct⟩
  else if construct = .define then ⟨brackets, .params⟩
  else ⟨brackets, .ready⟩

/-- Takes a token. -/
def step (s : Shape) (t : Token) : Except ParseError Shape :=
  match s.phase with
  | .ready => stepReady s.brackets t
  | .name construct =>
    if t.kind = .identifier then .ok (stepName s.brackets construct t)
    else .error ⟨construct.expected, t⟩
  | .blank construct => .error ⟨construct.expected, t⟩
  | .params =>
    match t.kind with
    | .argument => if t.value.isEmpty then .error ⟨.parameterName, t⟩ else .ok ⟨s.brackets, .params⟩
    | .text | .escape | .comment | .keyword .endWord => stepReady s.brackets t
    | .endOfInput => .error ⟨.endWord, t⟩
    | _ => .error ⟨.parameterOrBody, t⟩

end Shape

/-! ## Contexts and their brackets -/

@[simp] theorem Context.brackets_push (node : Node) (trimmable : Bool) (ctx : Context) :
    (ctx.push node trimmable).brackets = ctx.brackets := by
  cases ctx <;> rfl

@[simp] theorem Context.brackets_closeLine (stop : Position) (ctx : Context) :
    (ctx.closeLine stop).brackets = ctx.brackets := by
  cases ctx with
  | line start name changes pieces outer => exact Context.brackets_push _ _ outer
  | _ => rfl

theorem Context.brackets_closeLinesWith (stop : Position) : ∀ (ctx : Context) (node : Option Node),
    (closeLinesWith stop ctx node).brackets = ctx.brackets
  | .line _ _ _ _ outer, node => by
    simp only [closeLinesWith, brackets]
    exact brackets_closeLinesWith stop outer _
  | .document _, node => by cases node <;> rfl
  | .call _ _ _ _ _ _, node => by cases node <;> rfl
  | .define _ _ _ _ _, node => by cases node <;> rfl

@[simp] theorem Context.brackets_closeLines (stop : Position) (ctx : Context) :
    (ctx.closeLines stop).brackets = ctx.brackets :=
  brackets_closeLinesWith stop ctx none

/-- Whether a value is being read. -/
def Context.isLine : Context → Bool
  | .line .. => true
  | _ => false

theorem Context.isLine_closeLinesWith (stop : Position) : ∀ (ctx : Context) (node : Option Node),
    (closeLinesWith stop ctx node).isLine = false
  | .line _ _ _ _ outer, node => by
    simp only [closeLinesWith]
    exact isLine_closeLinesWith stop outer _
  | .document _, node => by cases node <;> rfl
  | .call _ _ _ _ _ _, node => by cases node <;> rfl
  | .define _ _ _ _ _, node => by cases node <;> rfl

theorem Context.isLine_closeLines (stop : Position) (ctx : Context) :
    (ctx.closeLines stop).isLine = false :=
  isLine_closeLinesWith stop ctx none

theorem Context.closeLines_of_not_isLine (stop : Position) {ctx : Context} (h : ctx.isLine = false) :
    ctx.closeLines stop = ctx := by
  cases ctx with
  | line => cases h
  | _ => rfl

theorem Context.isLine_push (ctx : Context) (node : Node) (trimmable : Bool) :
    (ctx.push node trimmable).isLine = ctx.isLine := by
  cases ctx <;> rfl

section

variable {ctx : Context} (h : ctx.isLine = false)
include h

theorem Context.push_of_not_isLine (node : Node) (trimmable : Bool) : ctx.push node trimmable = ctx.push node false := by
  cases ctx with
  | line => cases h
  | document | call | define => rfl

theorem Context.closeLine_of_not_isLine (stop : Position) : ctx.closeLine stop = ctx := by
  cases ctx with
  | line => cases h
  | document | call | define => rfl

theorem Context.closeLinesWith_of_not_isLine (stop : Position) (node : Node) :
    closeLinesWith stop ctx (some node) = ctx.push node false := by
  cases ctx with
  | line => cases h
  | document | call | define => rfl

end

theorem Context.inCall_eq (ctx : Context) : ctx.inCall = (ctx.brackets.head? == some .call) := by
  induction ctx with
  | document | call | define => rfl
  | line _ _ _ _ outer ih => exact ih

/-! ## One token -/

/-- Where a value may begin, brackets and the end of the text apart, the open brackets stay. -/
theorem shape_stepValue (ctx : Context) (t : Token) (hc : t.kind ≠ .closeParen)
    (he : t.kind ≠ .keyword .endWord) (hi : t.kind ≠ .endOfInput) :
    (stepValue ctx t).map State.shape = Shape.stepReady ctx.brackets t := by
  obtain ⟨kind, value, raw, span⟩ := t
  cases kind with
  | keyword word => cases word <;> first | rfl | exact absurd rfl he
  | closeParen => exact absurd rfl hc
  | endOfInput => exact absurd rfl hi
  | reference | number | text | escape | hash | slash | pipe | argument =>
    simp [stepValue, Shape.stepReady, State.shape, Except.map, Token.Kind.opens?]
  | _ => rfl

/-- Only the tokens that close or separate mean something else inside a call or a definition. -/
theorem stepInner_eq_stepValue (ctx : Context) (t : Token) (hc : t.kind ≠ .closeParen)
    (he : t.kind ≠ .keyword .endWord) (hp : t.kind ≠ .pipe) (hi : t.kind ≠ .endOfInput) :
    stepInner ctx t = stepValue ctx t := by
  cases ctx with
  | document values => simp only [stepInner, hi, if_false]
  | line => rfl
  | call => simp only [stepInner]
  | define => simp only [stepInner]

theorem shape_stepInner {ctx : Context} (h : ctx.isLine = false) (t : Token) :
    (stepInner ctx t).map State.shape = Shape.stepReady ctx.brackets t := by
  by_cases hs : t.kind = .closeParen ∨ t.kind = .keyword .endWord ∨ t.kind = .pipe ∨ t.kind = .endOfInput
  · rcases hs with hk | hk | hk | hk <;> cases ctx <;>
      simp_all [stepInner, stepValue, Shape.stepReady, State.shape, Except.map, Context.brackets,
        Token.Kind.opens?, Context.isLine, Shape.Bracket.closer]
  · simp only [not_or] at hs
    obtain ⟨hc, he, hp, hi⟩ := hs
    rw [stepInner_eq_stepValue ctx t hc he hp hi, shape_stepValue ctx t hc he hi]

theorem Shape.stepReady_of_endsLine {t : Token} (h : endsLine t = true) (brackets : List Bracket) :
    Shape.stepReady brackets t = .ok ⟨brackets, .ready⟩ := by
  obtain ⟨kind, value, raw, span⟩ := t
  cases kind with
  | text | comment => simp [Shape.stepReady, Token.Kind.opens?]
  | _ => simp [endsLine] at h

theorem shape_stepReady (ctx : Context) (lastStop : Position) (t : Token) :
    (stepReady ctx lastStop t).map State.shape = Shape.stepReady ctx.brackets t := by
  cases hl : ctx.isLine with
  | false =>
    have hr : stepReady ctx lastStop t = stepInner ctx t := by
      cases ctx with
      | line => cases hl
      | _ => rfl
    rw [hr, shape_stepInner hl]
  | true =>
    obtain ⟨start, name, changes, pieces, outer, rfl⟩ :
        ∃ start name changes pieces outer, ctx = .line start name changes pieces outer := by
      cases ctx with
      | line => exact ⟨_, _, _, _, _, rfl⟩
      | _ => cases hl
    simp only [stepReady]
    split
    · rw [shape_stepInner (Context.isLine_closeLines _ _), Context.brackets_closeLines]
    next hs =>
    split
    next he =>
      rw [Shape.stepReady_of_endsLine he]
      simp [Except.map, State.shape]
    next he =>
      refine shape_stepValue _ _ ?_ ?_ ?_ <;> intro hk <;> simp [endsLines, hk] at hs

theorem shape_stepName (ctx : Context) (construct : Named) (start : Position) (t : Token) :
    (stepName ctx construct start t).shape =
      Shape.stepName (construct.bracket?.toList ++ ctx.brackets) construct t := by
  cases construct with
  | call => rfl
  | use | define | bind =>
    simp only [stepName, Shape.stepName, reduceCtorEq, if_false]
    split <;> simp [State.shape, Context.brackets, Named.bracket?]

/-- The machine refuses a token exactly when its shape does, for the same reason, and otherwise
goes on to a state of the shape that its shape goes on to. -/
theorem State.shape_step (st : State) (t : Token) :
    (st.step t).map State.shape = st.shape.step t := by
  obtain ⟨ctx, mode, lastStop⟩ := st
  cases mode with
  | ready => exact shape_stepReady ctx lastStop t
  | name construct start =>
    simp only [State.step, Shape.step, State.shape]
    split
    · exact congrArg Except.ok (shape_stepName ctx construct start t)
    · rfl
  | blank construct => rfl
  | group start name groups =>
    exact shape_stepReady (.call start name groups t.span.start [] ctx) lastStop t
  | params start name params =>
    have hb := shape_stepReady (.define start name params.reverse [] ctx) lastStop t
    obtain ⟨kind, value, raw, span⟩ := t
    cases kind with
    | argument => simp only [State.step, Shape.step, State.shape]; split <;> rfl
    | text | escape | comment => exact hb
    | keyword word =>
      cases word with
      | endWord => exact hb
      | _ => rfl
    | _ => rfl

end Node

end Markup
