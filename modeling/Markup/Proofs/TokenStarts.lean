/-
Which tokens start nodes, told from the tokens around them.

The rule (`head?`) looks at the constructs that the tokens before leave open
(`openFrames`), and, for text in a variable's value, at whether only blanks
stand between it and an end of the value. The constructs that a state is
reading are the ones that the tokens before it leave open
(`State.frames_step`).
-/
import Markup.Proofs.LineEdges
import Markup.Proofs.ParseStep
import Markup.Proofs.Preorder

namespace Markup.Node

/-! ## The rule -/

/-- The constructs that nodes stand in. -/
inductive Frame where
  | call
  | define
  | line
  deriving DecidableEq, Repr

/-- The innermost call or definition. -/
def bracketOf (frames : List Frame) : Option Frame := (frames.dropWhile (· == .line)).head?

/-- The constructs open behind a token, innermost first. What closes a bracket closes the values
begun in it, and so does a pipe of a call. -/
def framesBehind (frames : List Frame) (t : Token) : List Frame :=
  match t.kind with
  | .keyword .letWord | .keyword .setWord => .line :: frames
  | .keyword .defWord => .define :: frames
  | .openParen => .call :: frames
  | .closeParen | .keyword .endWord => (frames.dropWhile (· == .line)).tail
  | .pipe => if bracketOf frames = some .call then frames.dropWhile (· == .line) else frames
  | .comment | .text => if endsLine t && frames.head? == some .line then frames.tail else frames
  | _ => frames

/-- The constructs that tokens leave open, innermost first. The tokens are given last first. -/
def openFrames : List Token → List Frame
  | [] => []
  | t :: before => framesBehind (openFrames before) t

/-- Whether a token is blank text without a newline. -/
def isBlankText (t : Token) : Bool := t.kind == .text && Text.isAllBlank t.value && !endsLine t

/-- Whether nothing but blanks stands between tokens, given last first, and the name of a variable
that is given a value. -/
def beginsValue (before : List Token) : Bool :=
  match before.dropWhile isBlankText with
  | n :: d :: _ => n.kind == .identifier && (d.kind == .keyword .letWord || d.kind == .keyword .setWord)
  | _ => false

/-- Whether a token ends the value that is being read in the given constructs. -/
def endsValueIn (frames : List Frame) (t : Token) : Bool :=
  match t.kind with
  | .endOfInput | .keyword .endWord | .closeParen => true
  | .pipe => bracketOf frames == some .call
  | _ => endsLine t

/-- Whether nothing but blanks comes before the end of the value that is being read. -/
def endsValue (frames : List Frame) (after : List Token) : Bool :=
  match after.dropWhile isBlankText with
  | t :: _ => endsValueIn frames t
  | [] => true

/-- Whether tokens, given last first, end with the name of a definition and arguments alone. -/
def inParams (before : List Token) : Bool :=
  match before.dropWhile isArgument with
  | n :: d :: _ => n.kind == .identifier && d.kind == .keyword .defWord
  | _ => false

/-- The name that stands first. -/
def nameBehind (after : List Token) : String := (after.head?.map (·.value)).getD ""

/-- The names of the arguments that stand first. -/
def paramsIn (after : List Token) : List String := (after.takeWhile isArgument).map (·.value)

/-- What a text token starts. In a variable's value it is nothing if it ends the value, and blanks
are cut off both ends of the value. -/
def textHead? (before : List Token) (t : Token) (after : List Token) : Option Head :=
  if (openFrames before).head? = some .line then
    if endsLine t then none
    else
      let front := beginsValue before
      let ends := endsValue (openFrames before) after
      if Text.isAllBlank t.value && (front || ends) then none
      else some (.text (cutText front ends t.value))
  else some (.text t.value)

theorem exists_text_of_textHead? {before after : List Token} {t : Token} {head : Head}
    (h : textHead? before t after = some head) : ∃ value, head = .text value := by
  rw [textHead?] at h
  split at h
  next =>
    split at h
    next => cases h
    next =>
      simp only at h
      split at h <;> cases h
      exact ⟨_, rfl⟩
  next =>
    cases h
    exact ⟨_, rfl⟩

/-- What a token starts between the tokens before it, given last first, and those after it. -/
def head? (before : List Token) (t : Token) (after : List Token) : Option Head :=
  match t.kind with
  | .keyword .letWord => some (.bind (nameBehind after) false)
  | .keyword .setWord => some (.bind (nameBehind after) true)
  | .keyword .useWord =>
    let moduleName := Text.strip (nameBehind after)
    some (.use moduleName (BuiltIn.moduleNames.contains moduleName))
  | .keyword .defWord => some (.define (nameBehind after) (paramsIn after.tail))
  | .openParen => some (.call (nameBehind after))
  | .reference => some (.reference t.value)
  | .number value => some (.number value)
  | .escape | .hash | .slash => some (.text t.value)
  | .text => textHead? before t after
  | .argument => if inParams before then none else some (.text ("$" ++ t.value))
  | .pipe => if bracketOf (openFrames before) = some .call then none else some (.text t.value)
  | .keyword .endWord | .identifier | .closeParen | .comment | .endOfInput => none

/-- What tokens start, with where, behind the tokens before them, given last first. -/
def startsFrom : List Token → List Token → List Start
  | _, [] => []
  | before, t :: after =>
    ((head? before t after).map (Start.mk t.span.start)).toList ++ startsFrom (t :: before) after

/-! ## Constructs being read -/

/-- The constructs being read, innermost first. -/
def Context.frames : Context → List Frame
  | .document _ => []
  | .call _ _ _ _ _ outer => .call :: outer.frames
  | .define _ _ _ _ outer => .define :: outer.frames
  | .line _ _ _ _ outer => .line :: outer.frames

/-- The construct that a name begins, if nodes can stand in it. -/
def Named.frame? : Named → Option Frame
  | .call => some .call
  | .define => some .define
  | .bind _ => some .line
  | .use => none

/-- A construct is open from its first token on. -/
def State.frames (st : State) : List Frame :=
  match st.mode with
  | .ready => st.context.frames
  | .name construct _ | .blank construct => construct.frame?.toList ++ st.context.frames
  | .params .. => .define :: st.context.frames
  | .group .. => .call :: st.context.frames

@[simp] theorem Context.frames_push (node : Node) (trimmable : Bool) (ctx : Context) :
    (ctx.push node trimmable).frames = ctx.frames := by
  cases ctx <;> rfl

theorem Context.head?_frames (ctx : Context) : (ctx.frames.head? == some .line) = ctx.isLine := by
  cases ctx <;> rfl

theorem Context.frames_closeLinesWith (stop : Position) : ∀ (ctx : Context) (node : Option Node),
    (closeLinesWith stop ctx node).frames = ctx.frames.dropWhile (· == .line)
  | .line _ _ _ _ outer, node => by
    simp only [closeLinesWith, frames, List.dropWhile_cons, beq_self_eq_true, if_true]
    exact frames_closeLinesWith stop outer _
  | .document _, node => by cases node <;> rfl
  | .call _ _ _ _ _ _, node => by cases node <;> rfl
  | .define _ _ _ _ _, node => by cases node <;> rfl

theorem Context.frames_closeLines (stop : Position) (ctx : Context) :
    (ctx.closeLines stop).frames = ctx.frames.dropWhile (· == .line) :=
  frames_closeLinesWith stop ctx none

theorem Context.inCall_iff_bracketOf (ctx : Context) : ctx.inCall = true ↔ bracketOf ctx.frames = some .call := by
  induction ctx with
  | document => simp [inCall, bracketOf, frames]
  | call => simp [inCall, bracketOf, frames]
  | define => simp [inCall, bracketOf, frames]
  | line _ _ _ _ outer ih => simpa [inCall, bracketOf, frames] using ih

theorem Takes.frames_eq {ctx : Context} {lastStop : Position} {t : Token} {next : State}
    (h : Takes ctx lastStop t next) (hi : t.kind ≠ .endOfInput) :
    next.frames = framesBehind ctx.frames t := by
  cases h with
  | opens construct ho =>
    obtain ⟨kind, value, raw, span⟩ := t
    cases kind with
    | keyword word => cases word <;> cases ho <;> rfl
    | openParen => cases ho; rfl
    | _ => cases ho
  | leaf node trimmable hn hl hp =>
    simp only [State.frames, Context.frames_push]
    obtain ⟨kind, value, raw, span⟩ := t
    cases kind with
    | keyword | identifier | comment | openParen | closeParen | endOfInput => cases hn
    | pipe =>
      have hc : bracketOf ctx.frames ≠ some .call := by
        rw [Ne, ← Context.inCall_iff_bracketOf, hp rfl]
        simp
      simp [framesBehind, hc]
    | text =>
      cases hc : ctx.isLine with
      | true => simp [framesBehind, hl hc]
      | false => simp [framesBehind, Context.head?_frames, hc]
    | _ => rfl
  | skips hk hc => simp [State.frames, framesBehind, hk, Context.head?_frames, hc]
  | endsLine hc he =>
    cases ctx with
    | document | call | define => cases hc
    | line start name changes pieces outer =>
      rcases kind_of_endsLine he with hk | hk <;>
        simp [State.frames, Context.closeLine, Context.frames, framesBehind, hk, he]
  | separates hk he =>
    have hf := Context.frames_closeLines lastStop ctx
    rw [he] at hf
    simp [State.frames, framesBehind, hk, bracketOf, ← hf, Context.frames]
  | closesCall hk he | closesDefinition hk he =>
    have hf := Context.frames_closeLines lastStop ctx
    rw [he] at hf
    simp [State.frames, framesBehind, hk, ← hf, Context.frames]
  | ends hk => exact absurd hk hi

theorem State.Meets.frames_eq {st : State} {t : Token} {ctx : Context} (h : st.Meets t ctx) :
    st.frames = ctx.frames := by
  cases h with
  | ready hm | group hm | body hm => simp [State.frames, hm, Context.frames]

theorem State.frames_step {st next : State} {t : Token} (h : st.step t = .ok next)
    (hi : t.kind ≠ .endOfInput) : next.frames = framesBehind st.frames t := by
  rcases State.step_cases h with ⟨ctx, hm, ht⟩ | ⟨construct, start, hm, hk, hb⟩ |
    ⟨start, name, params, hm, hk, _, rfl⟩
  · rw [hm.frames_eq, ht.frames_eq hi]
  · have hf : framesBehind st.frames t = st.frames := by simp [framesBehind, hk]
    rw [hf]
    cases hb with
    | blank | call | use | define | bind => simp [State.frames, hm, Named.frame?, Context.frames]
  · simp [State.frames, hm, framesBehind, hk]

end Markup.Node
