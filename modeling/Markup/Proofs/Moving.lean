/-
Reading asks nothing of places: tokens that are moved make the same nodes,
moved (`State.step_moved`).
-/
import Markup.Proofs.LineEdges
import Markup.Proofs.Nesting

namespace Markup

variable (f : Position → Position)

/-- A span with both its ends moved. -/
def Span.moved (s : Span) : Span := ⟨f s.start, f s.stop⟩

/-- A token in another place. -/
def Token.moved (t : Token) : Token := { t with span := t.span.moved f }

/-- An error in another place. -/
def ParseError.moved (e : ParseError) : ParseError := { e with found := e.found.moved f }

mutual

/-- A node with all its places moved. -/
def Node.moved : Node → Node
  | .text value span => .text value (span.moved f)
  | .number value span => .number value (span.moved f)
  | .call name groups span => .call name (Group.movedAll groups) (span.moved f)
  | .use moduleName builtIn span => .use moduleName builtIn (span.moved f)
  | .define name params body span => .define name params (Node.movedAll body) (span.moved f)
  | .bind name changes value span => .bind name changes (Node.movedAll value) (span.moved f)
  | .reference name changes span => .reference name changes (span.moved f)
  | .stray group => .stray group.moved

/-- Nodes with all their places moved. -/
def Node.movedAll : List Node → List Node
  | [] => []
  | node :: rest => node.moved :: Node.movedAll rest

/-- A group with all its places moved. -/
def Group.moved : Group → Group
  | ⟨index, values, span⟩ => ⟨index, Node.movedAll values, span.moved f⟩

/-- Groups with all their places moved. -/
def Group.movedAll : List Group → List Group
  | [] => []
  | group :: rest => group.moved :: Group.movedAll rest

end

namespace Node

theorem movedAll_eq_map (nodes : List Node) : movedAll f nodes = nodes.map (moved f) := by
  induction nodes with
  | nil => rw [movedAll, List.map_nil]
  | cons node nodes ih => rw [movedAll, List.map_cons, ih]

theorem groupMovedAll_eq_map (groups : List Group) : Group.movedAll f groups = groups.map (Group.moved f) := by
  induction groups with
  | nil => rw [Group.movedAll, List.map_nil]
  | cons group groups ih => rw [Group.movedAll, List.map_cons, ih]

theorem span_moved (node : Node) : (node.moved f).span = node.span.moved f := by
  cases node with
  | stray group => cases group; rfl
  | _ => rfl

mutual

theorem moved_id : ∀ node : Node, node.moved id = node
  | .text .. | .number .. | .use .. | .reference .. => rfl
  | .call name groups span => by
    rw [moved, groupMovedAll_id groups]
    rfl
  | .define name params body span => by
    rw [moved, movedAll_id body]
    rfl
  | .bind name changes value span => by
    rw [moved, movedAll_id value]
    rfl
  | .stray group => by rw [moved, groupMoved_id group]

theorem movedAll_id : ∀ nodes : List Node, movedAll id nodes = nodes
  | [] => by rw [movedAll]
  | node :: rest => by rw [movedAll, moved_id node, movedAll_id rest]

theorem groupMoved_id : ∀ group : Group, group.moved id = group
  | ⟨index, values, span⟩ => by
    rw [Group.moved, movedAll_id values]
    rfl

theorem groupMovedAll_id : ∀ groups : List Group, Group.movedAll id groups = groups
  | [] => by rw [Group.movedAll]
  | group :: rest => by rw [Group.movedAll, groupMoved_id group, groupMovedAll_id rest]

end

theorem map_moved_id (nodes : List Node) : nodes.map (moved id) = nodes := by
  rw [← movedAll_eq_map, movedAll_id]

/-- A piece of a value with all its places moved. -/
def Piece.moved (piece : Piece) : Piece := ⟨piece.node.moved f, piece.trimmable⟩

/-- Constructs being read with all their places moved. -/
def Context.moved : Context → Context
  | .document values => .document (values.map (Node.moved f))
  | .call start name groups groupStart values outer =>
    .call (f start) name (groups.map (Group.moved f)) (f groupStart) (values.map (Node.moved f)) outer.moved
  | .define start name params values outer =>
    .define (f start) name params (values.map (Node.moved f)) outer.moved
  | .line start name changes pieces outer =>
    .line (f start) name changes (pieces.map (Piece.moved f)) outer.moved

/-- What the next token has to be, with all places moved. -/
def Mode.moved : Mode → Mode
  | .ready => .ready
  | .name construct start => .name construct (f start)
  | .blank construct => .blank construct
  | .params start label given => .params (f start) label given
  | .group start label groups => .group (f start) label (groups.map (Group.moved f))

/-- A state with all its places moved. -/
def State.moved (st : State) : State := ⟨st.context.moved f, st.mode.moved f, f st.lastStop⟩

/-- What a token leads to, with all places moved. -/
def stepMoved : Except ParseError State → Except ParseError State
  | .error e => .error (e.moved f)
  | .ok st => .ok (st.moved f)

/-! ## Values -/

theorem trimEdge_moved (cut : String → String) (pieces : List Piece) :
    trimEdge cut (pieces.map (Piece.moved f)) = (trimEdge cut pieces).map (Piece.moved f) := by
  induction pieces with
  | nil => rfl
  | cons piece rest ih =>
    obtain ⟨node, trimmable⟩ := piece
    cases trimmable with
    | false =>
      simp only [List.map_cons, Piece.moved, trimEdge_of_not_trimmable]
    | true =>
      cases node with
      | text value span =>
        simp only [List.map_cons, Piece.moved, Node.moved, trimEdge]
        split
        next => exact ih
        next => simp only [List.map_cons, Piece.moved, Node.moved]
      | number | call | use | define | bind | reference | stray =>
        simp only [List.map_cons, Piece.moved, Node.moved, trimEdge]

theorem trimLine_moved (pieces : List Piece) :
    trimLine (pieces.map (Piece.moved f)) = (trimLine pieces).map (Piece.moved f) := by
  simp only [trimLine, trimEdge_moved, ← List.map_reverse]

theorem Context.bound_moved (start stop : Position) (name : String) (changes : Bool) (pieces : List Piece) :
    (bound start stop name changes pieces).moved f =
      bound (f start) (f stop) name changes (pieces.map (Piece.moved f)) := by
  simp only [bound, Node.moved, movedAll_eq_map, ← List.map_reverse, trimLine_moved, List.map_map]
  rfl

theorem Context.push_moved (ctx : Context) (node : Node) (trimmable : Bool) :
    (ctx.push node trimmable).moved f = (ctx.moved f).push (node.moved f) trimmable := by
  cases ctx <;> rfl

theorem Context.inCall_moved (ctx : Context) : (ctx.moved f).inCall = ctx.inCall := by
  induction ctx with
  | document | call | define => rfl
  | line _ _ _ _ _ ih => exact ih

theorem Context.closeLine_moved (ctx : Context) (stop : Position) :
    (ctx.closeLine stop).moved f = (ctx.moved f).closeLine (f stop) := by
  cases ctx with
  | document | call | define => rfl
  | line start name changes pieces outer => simp only [closeLine, moved, push_moved, bound_moved]

theorem Context.closeLinesWith_moved (stop : Position) : ∀ (ctx : Context) (node : Option Node),
    (closeLinesWith stop ctx node).moved f = closeLinesWith (f stop) (ctx.moved f) (node.map (Node.moved f))
  | .document _, node => by cases node <;> rfl
  | .call _ _ _ _ _ _, node => by cases node <;> rfl
  | .define _ _ _ _ _, node => by cases node <;> rfl
  | .line start name changes pieces outer, node => by
    simp only [closeLinesWith, moved, closeLinesWith_moved stop outer, Option.map_some, bound_moved]
    cases node <;> rfl

theorem Context.closeLines_moved (stop : Position) (ctx : Context) :
    (ctx.closeLines stop).moved f = (ctx.moved f).closeLines (f stop) :=
  closeLinesWith_moved f stop ctx none

theorem addGroup_moved (groups : List Group) (values : List Node) (span : Span) :
    (addGroup groups values span).map (Group.moved f) =
      addGroup (groups.map (Group.moved f)) (values.map (Node.moved f)) (span.moved f) := by
  simp only [addGroup, List.map_cons, Group.moved, movedAll_eq_map, List.map_reverse, List.length_map]

/-! ## One token -/

theorem stepValue_moved (ctx : Context) (t : Token) :
    stepValue (ctx.moved f) (t.moved f) = stepMoved f (stepValue ctx t) := by
  obtain ⟨kind, value, raw, span⟩ := t
  cases kind with
  | keyword word => cases word <;> rfl
  | identifier | comment | openParen | closeParen | endOfInput => rfl
  | reference | number | text | escape | hash | slash | pipe | argument =>
    simp only [stepValue, stepMoved, State.moved, Context.push_moved, Node.moved]
    rfl

theorem stepInner_moved (ctx : Context) (t : Token) :
    stepInner (ctx.moved f) (t.moved f) = stepMoved f (stepInner ctx t) := by
  have hvalue := stepValue_moved f ctx t
  have hk : (t.moved f).kind = t.kind := rfl
  cases ctx with
  | document values =>
    simp only [Context.moved, stepInner, hk] at hvalue ⊢
    split
    next => rfl
    next => exact hvalue
  | line => exact hvalue
  | call start name groups groupStart values outer =>
    simp only [Context.moved, stepInner, hk] at hvalue ⊢
    split
    next =>
      have hspan : (Span.mk (f groupStart) (t.moved f).span.start) = (Span.mk groupStart t.span.start).moved f := rfl
      simp only [stepMoved, State.moved, Context.push_moved, Node.moved, groupMovedAll_eq_map, hspan,
        List.isEmpty_map, ← addGroup_moved]
      split <;> simp [Token.moved, Span.moved, Mode.moved]
    next =>
      simp only [stepMoved, State.moved, Mode.moved, addGroup_moved]
      rfl
    next => rfl
    next => exact hvalue
  | define start name params values outer =>
    simp only [Context.moved, stepInner, hk] at hvalue ⊢
    split
    next =>
      simp only [stepMoved, State.moved, Context.push_moved, Node.moved, movedAll_eq_map, List.map_reverse]
      rfl
    next => rfl
    next => exact hvalue

theorem stepReady_moved (ctx : Context) (lastStop : Position) (t : Token) :
    stepReady (ctx.moved f) (f lastStop) (t.moved f) = stepMoved f (stepReady ctx lastStop t) := by
  have hsame := stepInner_moved f ctx t
  cases ctx with
  | document | call | define => exact hsame
  | line start name changes pieces outer =>
    have hends : endsLines (Context.line start name changes pieces outer |>.moved f) (t.moved f) =
        endsLines (.line start name changes pieces outer) t := by
      simp only [endsLines, Context.inCall_moved]
      rfl
    have hclose := Context.closeLines_moved f lastStop (.line start name changes pieces outer)
    have hline := Context.closeLine_moved f (.line start name changes pieces outer) t.span.stop
    have hinner := stepInner_moved f ((Context.line start name changes pieces outer).closeLines lastStop) t
    have hvalue := stepValue_moved f (.line start name changes pieces outer) t
    have hend : endsLine (t.moved f) = endsLine t := rfl
    simp only [Context.moved] at hends hclose hline hvalue ⊢
    simp only [stepReady, hends, hend]
    split
    next => rw [← hclose, hinner]
    next =>
    split
    next => simp only [stepMoved, State.moved, hline]; rfl
    next => exact hvalue

theorem stepName_moved (ctx : Context) (construct : Named) (start : Position) (t : Token) :
    stepName (ctx.moved f) construct (f start) (t.moved f) = (stepName ctx construct start t).moved f := by
  have hv : (t.moved f).value = t.value := rfl
  cases construct with
  | call => rfl
  | use =>
    simp only [stepName, hv]
    split
    next => rfl
    next => simp only [State.moved, Context.push_moved, Node.moved]; rfl
  | define | bind =>
    simp only [stepName, hv]
    split <;> rfl

/-- A moved token leads to the moved state, or is refused for the same reason. -/
theorem State.step_moved (st : State) (t : Token) :
    (st.moved f).step (t.moved f) = stepMoved f (st.step t) := by
  obtain ⟨ctx, mode, lastStop⟩ := st
  have hk : (t.moved f).kind = t.kind := rfl
  cases mode with
  | ready => exact stepReady_moved f ctx lastStop t
  | name construct start =>
    simp only [State.step, State.moved, Mode.moved, hk, stepName_moved]
    split <;> rfl
  | blank construct => rfl
  | group start name groups =>
    exact stepReady_moved f (.call start name groups t.span.start [] ctx) lastStop t
  | params start name params =>
    have hready := stepReady_moved f (.define start name params.reverse [] ctx) lastStop t
    have hv : (t.moved f).value = t.value := rfl
    simp only [Context.moved, List.map_nil] at hready
    simp only [State.step, State.moved, Mode.moved, hk, hv]
    split
    next => split <;> rfl
    next => exact hready
    next => exact hready
    next => exact hready
    next => exact hready
    next => rfl
    next => rfl

theorem Context.finished_moved (ctx : Context) : (ctx.moved f).finished = ctx.finished.map (Node.moved f) := by
  induction ctx with
  | document values => exact List.map_reverse.symm
  | call _ _ _ _ _ _ ih | define _ _ _ _ _ ih | line _ _ _ _ _ ih => exact ih

/-- What reading gives, with all places moved. -/
def readMoved : Except ParseError (List Node) → Except ParseError (List Node)
  | .error e => .error (e.moved f)
  | .ok nodes => .ok (nodes.map (Node.moved f))

/-- Moved tokens make the moved nodes, or are refused for the same reason. -/
theorem State.run_moved : ∀ (tokens : List Token) (st : State),
    (st.moved f).run (tokens.map (Token.moved f)) = readMoved f (st.run tokens)
  | [], st => by
    have hlast := State.step_moved f st ⟨.endOfInput, "", "", ⟨st.lastStop, st.lastStop⟩⟩
    simp only [Token.moved, Span.moved] at hlast
    rw [List.map_nil, run, run]
    simp only [State.moved] at hlast ⊢
    rw [hlast]
    cases st.step ⟨.endOfInput, "", "", ⟨st.lastStop, st.lastStop⟩⟩ with
    | error e => rfl
    | ok next => simp [stepMoved, readMoved, Except.map, State.moved, Context.finished_moved]
  | t :: rest, st => by
    have hk : (t.moved f).kind = t.kind := rfl
    rw [List.map_cons, run, run, State.step_moved, hk]
    cases st.step t with
    | error e => rfl
    | ok next =>
      simp only [stepMoved]
      split
      next => simp [readMoved, State.moved, Context.finished_moved]
      next => exact run_moved rest next

theorem State.Steps.moved {st next : State} {tokens : List Token} (h : Steps st tokens next) :
    Steps (st.moved f) (tokens.map (Token.moved f)) (next.moved f) := by
  induction h with
  | refl st => exact .refl _
  | step hs _ ih => exact .step (by rw [State.step_moved, hs]; rfl) ih

end Node

end Markup
