/-
What is read inside other constructs is read as if it stood on its own.

`Context.onto` puts constructs around those being read. While a call or a
definition is open, a token does the same with the constructs around it and
without (`State.step_onto`), and where the last one is closed, the node that it
makes stands alone in a document on its own, and is added to the construct
around it there (`exists_closing`). The same holds of a document behind finished
nodes (`State.run_onto_document`).
-/
import Markup.Proofs.ParseStep

namespace Markup.Node

/-! ## Constructs around others -/

/-- The constructs of `ctx`, read inside those of `outer`. -/
def Context.onto (ctx outer : Context) : Context :=
  match ctx with
  | .document values => values.foldr (fun node around => around.push node false) outer
  | .call start name groups groupStart values inner =>
    .call start name groups groupStart values (inner.onto outer)
  | .define start name params values inner => .define start name params values (inner.onto outer)
  | .line start name changes pieces inner => .line start name changes pieces (inner.onto outer)

/-- A state inside the constructs of `outer`. -/
def State.onto (st : State) (outer : Context) : State := { st with context := st.context.onto outer }

theorem Context.onto_push_false (ctx outer : Context) (node : Node) :
    (ctx.push node false).onto outer = (ctx.onto outer).push node false := by
  cases ctx <;> rfl

theorem Context.onto_document (values more : List Node) :
    (Context.document values).onto (.document more) = .document (values ++ more) := by
  induction values with
  | nil => rfl
  | cons node values ih =>
    have hpush := onto_push_false (.document values) (.document more) node
    rw [ih] at hpush
    exact hpush

theorem Context.brackets_onto (ctx outer : Context) : (ctx.onto outer).brackets = ctx.brackets ++ outer.brackets := by
  induction ctx with
  | document values =>
    induction values with
    | nil => rfl
    | cons node values ih =>
      have hpush := onto_push_false (.document values) outer node
      exact (congrArg brackets hpush).trans ((brackets_push node false _).trans ih)
  | call _ _ _ _ _ _ ih | define _ _ _ _ _ ih => exact congrArg _ ih
  | line _ _ _ _ _ ih => exact ih

/-- Whether the constructs of `ctx` hold the same inside those of `outer` as they do alone: a call or a
definition is open among them, or no value is being read around them. -/
def Context.Clear (ctx outer : Context) : Prop := ctx.brackets ≠ [] ∨ outer.isLine = false

/-- Whether the constructs of `ctx` are read inside those of `outer` as they are alone: a call or a
definition is open among them, or nothing but a document is around them. -/
def Context.Apart (ctx outer : Context) : Prop := ctx.brackets ≠ [] ∨ ∃ values, outer = .document values

theorem Context.Apart.clear {ctx outer : Context} (h : ctx.Apart outer) : ctx.Clear outer := by
  rcases h with hb | ⟨values, rfl⟩
  · exact .inl hb
  · exact .inr rfl

theorem Context.Apart.of_document {values : List Node} {outer : Context} (h : (document values).Apart outer) :
    ∃ more, outer = .document more := h.resolve_left fun hb => hb rfl

theorem Context.Clear.isLine_onto {values : List Node} {outer : Context} (h : (document values).Clear outer) :
    ((document values).onto outer).isLine = false := by
  have houter : outer.isLine = false := h.resolve_left fun hb => hb rfl
  induction values with
  | nil => exact houter
  | cons node values ih =>
    have hpush := isLine_push ((document values).onto outer) node false
    rw [ih (.inr houter)] at hpush
    exact hpush

variable {ctx outer : Context}

theorem Context.onto_push (h : ctx.Clear outer) (node : Node) (trimmable : Bool) :
    (ctx.push node trimmable).onto outer = (ctx.onto outer).push node trimmable := by
  cases ctx with
  | document values => exact (push_of_not_isLine h.isLine_onto node trimmable).symm
  | call | define | line => rfl

theorem Context.inCall_onto (h : ctx.Apart outer) : (ctx.onto outer).inCall = ctx.inCall := by
  induction ctx with
  | document values =>
    obtain ⟨more, rfl⟩ := h.of_document
    rw [onto_document]
    rfl
  | call | define => rfl
  | line _ _ _ _ _ ih => exact ih h

theorem Context.onto_closeLine (h : ctx.Clear outer) (stop : Position) :
    (ctx.closeLine stop).onto outer = (ctx.onto outer).closeLine stop := by
  cases ctx with
  | document values => exact (closeLine_of_not_isLine h.isLine_onto stop).symm
  | call | define => rfl
  | line start name changes pieces inner => exact onto_push_false inner outer _

theorem Context.onto_closeLinesWith (stop : Position) : ∀ {ctx : Context} (node : Option Node),
    ctx.Clear outer → (closeLinesWith stop ctx node).onto outer = closeLinesWith stop (ctx.onto outer) node
  | .document _, none, h => (closeLines_of_not_isLine stop h.isLine_onto).symm
  | .document _, some node, h => (closeLinesWith_of_not_isLine h.isLine_onto stop node).symm
  | .call _ _ _ _ _ _, node, _ => by cases node <;> rfl
  | .define _ _ _ _ _, node, _ => by cases node <;> rfl
  | .line _ _ _ _ inner, node, h => by
    simp only [closeLinesWith, onto]
    exact onto_closeLinesWith stop _ h

theorem Context.onto_closeLines (h : ctx.Clear outer) (stop : Position) :
    (ctx.closeLines stop).onto outer = (ctx.onto outer).closeLines stop :=
  onto_closeLinesWith stop none h

/-! ## One token -/

theorem stepValue_onto (h : ctx.Clear outer) (t : Token) :
    stepValue (ctx.onto outer) t = (stepValue ctx t).map (·.onto outer) := by
  obtain ⟨kind, value, raw, span⟩ := t
  cases kind with
  | keyword word => cases word <;> rfl
  | reference | number | text | escape | hash | slash | pipe | argument =>
    simp only [stepValue, ← Context.onto_push h]
    rfl
  | identifier | comment | openParen | closeParen | endOfInput => rfl

theorem stepInner_onto (h : ctx.Apart outer) (hl : ctx.isLine = false) (t : Token) :
    stepInner (ctx.onto outer) t = (stepInner ctx t).map (·.onto outer) := by
  have hvalue := stepValue_onto h.clear t
  cases ctx with
  | document values =>
    obtain ⟨more, rfl⟩ := h.of_document
    rw [Context.onto_document] at hvalue ⊢
    simp only [stepInner]
    split
    next => simp [Except.map, State.onto, Context.onto_document]
    next => exact hvalue
  | line => cases hl
  | call start name groups groupStart values inner =>
    simp only [Context.onto, stepInner] at hvalue ⊢
    split
    next => simp [Except.map, State.onto, Context.onto_push_false]
    next => rfl
    next => rfl
    next => exact hvalue
  | define start name params values inner =>
    simp only [Context.onto, stepInner] at hvalue ⊢
    split
    next => simp [Except.map, State.onto, Context.onto_push_false]
    next => rfl
    next => exact hvalue

theorem stepReady_onto (h : ctx.Apart outer) (lastStop : Position) (t : Token) :
    stepReady (ctx.onto outer) lastStop t = (stepReady ctx lastStop t).map (·.onto outer) := by
  cases ctx with
  | document values =>
    have hinner := stepInner_onto h rfl t
    obtain ⟨more, rfl⟩ := h.of_document
    rw [Context.onto_document] at hinner ⊢
    exact hinner
  | call | define => exact stepInner_onto h rfl t
  | line start name changes pieces inner =>
    have hends : endsLines (Context.line start name changes pieces inner |>.onto outer) t =
        endsLines (.line start name changes pieces inner) t := by
      simp only [endsLines, Context.inCall_onto h]
    have hclose := Context.onto_closeLines h.clear lastStop
    have hline := Context.onto_closeLine h.clear t.span.stop
    have hvalue := stepValue_onto h.clear t
    have hb : ((Context.line start name changes pieces inner).closeLines lastStop).Apart outer := by
      rwa [Context.Apart, Context.brackets_closeLines]
    have hinner := stepInner_onto hb (Context.isLine_closeLines lastStop _) t
    simp only [Context.onto] at hends hclose hline hvalue hinner ⊢
    simp only [stepReady, hends]
    split
    next => rw [← hclose, hinner]
    next =>
    split
    next => rw [← hline]; rfl
    next => exact hvalue

theorem stepName_onto (ctx outer : Context) (construct : Named) (start : Position) (t : Token) :
    stepName (ctx.onto outer) construct start t = (stepName ctx construct start t).onto outer := by
  cases construct with
  | call => rfl
  | use =>
    simp only [stepName]
    split
    next => rfl
    next => simp only [State.onto, Context.onto_push_false]
  | define | bind =>
    simp only [stepName]
    split <;> rfl

/-- While a call or a definition is open, or in a document alone, the constructs around have no say. -/
theorem State.step_onto {st : State} (h : st.shape.brackets ≠ [] ∨ ∃ values, outer = .document values) (t : Token) :
    (st.onto outer).step t = (st.step t).map (·.onto outer) := by
  obtain ⟨ctx, mode, lastStop⟩ := st
  cases mode with
  | ready => exact stepReady_onto h lastStop t
  | name construct start =>
    simp only [State.step, State.onto, stepName_onto]
    split <;> rfl
  | blank construct => rfl
  | group start name groups =>
    have hb : (Context.call start name groups t.span.start [] ctx).Apart outer := .inl (by simp [Context.brackets])
    exact stepReady_onto hb lastStop t
  | params start name params =>
    have hb : (Context.define start name params.reverse [] ctx).Apart outer := .inl (by simp [Context.brackets])
    have hready := stepReady_onto hb lastStop t
    simp only [Context.onto] at hready
    simp only [State.step, State.onto]
    split
    next => split <;> rfl
    next => exact hready
    next => exact hready
    next => exact hready
    next => exact hready
    next => rfl
    next => rfl

/-! ## Behind finished nodes -/

theorem Context.finished_onto_document (ctx : Context) (values : List Node) :
    (ctx.onto (.document values)).finished = values.reverse ++ ctx.finished := by
  induction ctx with
  | document more =>
    rw [onto_document]
    exact List.reverse_append
  | call _ _ _ _ _ _ ih | define _ _ _ _ _ ih | line _ _ _ _ _ ih => exact ih

/-- Behind finished nodes the tokens of a document make the nodes that they make alone. -/
theorem State.run_onto_document (values : List Node) : ∀ (tokens : List Token) (st : State),
    (st.onto (.document values)).run tokens = (st.run tokens).map (values.reverse ++ ·)
  | [], st => by
    have hlast : (st.onto (.document values)).lastStop = st.lastStop := rfl
    rw [run, run, hlast, step_onto (.inr ⟨values, rfl⟩)]
    cases st.step ⟨.endOfInput, "", "", ⟨st.lastStop, st.lastStop⟩⟩ with
    | error e => rfl
    | ok next => simp [Except.map, State.onto, Context.finished_onto_document]
  | t :: rest, st => by
    rw [run, run, step_onto (.inr ⟨values, rfl⟩)]
    cases st.step t with
    | error e => rfl
    | ok next =>
      simp only [Except.map]
      split
      next => simp [State.onto, Context.finished_onto_document]
      next => exact run_onto_document values rest next

/-! ## Several tokens -/

/-- Tokens, none of which is refused, and the state behind them. -/
inductive State.Steps : State → List Token → State → Prop where
  | refl (st : State) : State.Steps st [] st
  | step {st mid next : State} {t : Token} {rest : List Token} : st.step t = .ok mid →
      State.Steps mid rest next → State.Steps st (t :: rest) next

theorem State.Steps.concat {st mid next : State} {t : Token} {tokens : List Token} (h : Steps st tokens mid)
    (hs : mid.step t = .ok next) : Steps st (tokens ++ [t]) next := by
  induction h with
  | refl => exact .step hs (.refl _)
  | step ht _ ih => exact .step ht (ih hs)

theorem State.Steps.exists_last {st next : State} {t : Token} : ∀ {tokens : List Token},
    Steps st (tokens ++ [t]) next → ∃ mid, Steps st tokens mid ∧ mid.step t = .ok next
  | [], .step hs (.refl _) => ⟨st, .refl st, hs⟩
  | _ :: _, .step hs h => by
    obtain ⟨mid, hsteps, hlast⟩ := exists_last h
    exact ⟨mid, .step hs hsteps, hlast⟩

theorem State.Steps.run_append {st next : State} {tokens : List Token} (h : Steps st tokens next)
    (hi : ∀ t ∈ tokens, t.kind ≠ .endOfInput) (rest : List Token) :
    st.run (tokens ++ rest) = next.run rest := by
  induction h with
  | refl => rfl
  | @step st mid next t more hs _ ih =>
    obtain ⟨ht, hi⟩ := List.forall_mem_cons.1 hi
    rw [List.cons_append, State.run, hs]
    simp only [ht, if_false]
    exact ih hi

theorem State.exists_steps_of_run {nodes : List Node} {rest : List Token} :
    ∀ {tokens : List Token} {st : State}, (∀ t ∈ tokens, t.kind ≠ .endOfInput) →
      st.run (tokens ++ rest) = .ok nodes → ∃ next, Steps st tokens next ∧ next.run rest = .ok nodes
  | [], st, _, h => ⟨st, .refl st, h⟩
  | t :: tokens, st, hi, h => by
    obtain ⟨ht, hi⟩ := List.forall_mem_cons.1 hi
    obtain ⟨mid, hs, h⟩ := (State.run_cons_ok_iff ht).1 h
    obtain ⟨next, hsteps, hr⟩ := exists_steps_of_run hi h
    exact ⟨next, .step hs hsteps, hr⟩

/-! ## From an opening token to the one that closes it -/

/-- Whether a node is one that a token of its own closes. -/
def isBracket : Node → Bool
  | .call .. | .define .. => true
  | _ => false

/-- Whether a call or a definition that starts at `p` is open, alone in its document. -/
def Context.RootedAt (p : Position) : Context → Prop
  | .document _ => False
  | .call start _ _ _ _ outer => (outer = .document [] ∧ start = p) ∨ outer.RootedAt p
  | .define start _ _ _ outer => (outer = .document [] ∧ start = p) ∨ outer.RootedAt p
  | .line _ _ _ _ outer => outer.RootedAt p

/-- A call or a definition is open from its first token on. -/
def State.RootedAt (p : Position) (st : State) : Prop :=
  st.context.RootedAt p ∨ st.context = .document [] ∧
    match st.mode with
    | .ready => False
    | .name construct start => construct.bracket?.isSome = true ∧ start = p
    | .blank construct => construct.bracket?.isSome = true
    | .params start _ _ | .group start _ _ => start = p

variable {p : Position}

theorem Context.RootedAt.brackets_ne_nil (h : ctx.RootedAt p) : ctx.brackets ≠ [] := by
  induction ctx with
  | document => cases h
  | call | define => simp [brackets]
  | line _ _ _ _ _ ih => exact ih h

theorem State.RootedAt.brackets_ne_nil {st : State} (h : st.RootedAt p) : st.shape.brackets ≠ [] := by
  obtain ⟨ctx, mode, lastStop⟩ := st
  rcases h with h | ⟨rfl, h⟩
  · have hb := h.brackets_ne_nil
    cases mode <;> simp [State.shape, hb]
  · cases mode with
    | ready => cases h
    | name construct | blank construct =>
      cases construct <;> simp_all [State.shape, Named.bracket?]
    | params | group => simp [State.shape]

theorem Context.RootedAt.push (h : ctx.RootedAt p) (node : Node) (trimmable : Bool) :
    (ctx.push node trimmable).RootedAt p := by
  cases ctx with
  | document => cases h
  | call | define | line => exact h

theorem Context.RootedAt.closeLine (h : ctx.RootedAt p) (stop : Position) :
    (ctx.closeLine stop).RootedAt p := by
  cases ctx with
  | line start name changes pieces inner =>
    have hi : inner.RootedAt p := h
    exact hi.push _ _
  | document | call | define => exact h

theorem Context.RootedAt.closeLinesWith (stop : Position) : ∀ {ctx : Context} (node : Option Node),
    ctx.RootedAt p → (closeLinesWith stop ctx node).RootedAt p
  | .document _, _, h => h.elim
  | .call _ _ _ _ _ _, node, h => by cases node <;> exact h
  | .define _ _ _ _ _, node, h => by cases node <;> exact h
  | .line _ _ _ _ inner, node, h => by
    have hi : inner.RootedAt p := h
    simp only [Context.closeLinesWith]
    exact RootedAt.closeLinesWith stop _ hi

theorem Context.RootedAt.closeLines (h : ctx.RootedAt p) (stop : Position) :
    (ctx.closeLines stop).RootedAt p :=
  closeLinesWith stop none h

theorem Takes.rootedAt {lastStop : Position} {t : Token} {next : State} (h : Takes ctx lastStop t next)
    (hr : ctx.RootedAt p) : next.RootedAt p ∨ ∃ node, next = ⟨.document [node], .ready, t.span.stop⟩ ∧
      isBracket node = true ∧ node.span = ⟨p, t.span.stop⟩ ∧
      (t.kind = .closeParen ∨ t.kind = .keyword .endWord) := by
  have hclose := hr.closeLines lastStop
  cases h with
  | opens | skips => exact .inl (.inl hr)
  | leaf node trimmable => exact .inl (.inl (hr.push node trimmable))
  | endsLine => exact .inl (.inl (hr.closeLine _))
  | separates hk he =>
    rw [he] at hclose
    rcases hclose with ⟨rfl, rfl⟩ | ho
    · exact .inl (.inr ⟨rfl, rfl⟩)
    · exact .inl (.inl ho)
  | closesCall hk he =>
    rw [he] at hclose
    rcases hclose with ⟨rfl, rfl⟩ | ho
    · exact .inr ⟨_, rfl, rfl, rfl, .inl hk⟩
    · exact .inl (.inl (ho.push _ _))
  | closesDefinition hk he =>
    rw [he] at hclose
    rcases hclose with ⟨rfl, rfl⟩ | ho
    · exact .inr ⟨_, rfl, rfl, rfl, .inr hk⟩
    · exact .inl (.inl (ho.push _ _))
  | ends hk he =>
    rw [he] at hclose
    exact hclose.elim

theorem State.Meets.rootedAt {st : State} {t : Token} (h : st.Meets t ctx) (hr : st.RootedAt p) :
    ctx.RootedAt p := by
  rcases hr with hr | ⟨hd, hr⟩
  · cases h with
    | ready => exact hr
    | group | body => exact .inr hr
  · cases h with
    | ready hm => simp [hm] at hr
    | group hm | body hm =>
      simp only [hm] at hr
      exact .inl ⟨hd, hr⟩

theorem Begins.rootedAt {construct : Named} {start : Position} {t : Token} {next : State}
    (h : Begins ctx start t construct next)
    (hr : ctx.RootedAt p ∨ ctx = .document [] ∧ construct.bracket?.isSome = true ∧ start = p) :
    next.RootedAt p := by
  rcases hr with hr | ⟨hd, hbracket, hs⟩
  · cases h with
    | blank | call | define | bind => exact .inl hr
    | use => exact .inl (hr.push _ _)
  · cases h with
    | blank => exact .inr ⟨hd, hbracket⟩
    | call | define => exact .inr ⟨hd, hs⟩
    | use | bind => cases hbracket

/-- An open call or definition stays open, or its closing token makes it the only node. -/
theorem State.RootedAt.step {st next : State} {t : Token} (h : st.RootedAt p) (hs : st.step t = .ok next) :
    next.RootedAt p ∨ ∃ node, next = ⟨.document [node], .ready, t.span.stop⟩ ∧ isBracket node = true ∧
      node.span = ⟨p, t.span.stop⟩ ∧ (t.kind = .closeParen ∨ t.kind = .keyword .endWord) := by
  rcases State.step_cases hs with ⟨ctx, hm, ht⟩ | ⟨construct, start, hm, hk, hn⟩ |
    ⟨start, name, params, hm, hk, _, rfl⟩
  · exact ht.rootedAt (hm.rootedAt h)
  · refine .inl (hn.rootedAt ?_)
    simpa [State.RootedAt, hm] using h
  · rcases h with h | ⟨hd, h⟩
    · exact .inl (.inl h)
    · simp only [hm] at h
      exact .inl (.inr ⟨hd, h⟩)

variable (outer) in
/-- What opens inside other constructs closes there, if the whole text can be read. Read alone, its
tokens make one node, which is added to the construct around it. -/
theorem exists_closing {last : Token} (hlast : last.kind = .endOfInput) {nodes : List Node} :
    ∀ {rest : List Token} {st : State}, (∀ t ∈ rest, t.kind ≠ .endOfInput) → st.RootedAt p →
      (st.onto outer).run (rest ++ [last]) = .ok nodes →
      ∃ inside closer after node, rest = inside ++ closer :: after ∧
        st.Steps (inside ++ [closer]) ⟨.document [node], .ready, closer.span.stop⟩ ∧
        (st.onto outer).Steps (inside ++ [closer]) ⟨outer.push node false, .ready, closer.span.stop⟩ ∧
        isBracket node = true ∧ node.span = ⟨p, closer.span.stop⟩ ∧
        (closer.kind = .closeParen ∨ closer.kind = .keyword .endWord)
  | [], st, _, hr, h => by
    simp only [List.nil_append, State.run] at h
    rw [State.step_onto (.inl hr.brackets_ne_nil)] at h
    cases hs : st.step last with
    | error e => simp [hs, Except.map] at h
    | ok next =>
      obtain ⟨values, rfl⟩ := State.step_endOfInput hs hlast
      rcases hr.step hs with hr | ⟨_, _, _, _, hk⟩
      · rcases hr with hr | ⟨_, hr⟩ <;> exact hr.elim
      · simp [hlast] at hk
  | t :: rest, st, hi, hr, h => by
    obtain ⟨ht, hi⟩ := List.forall_mem_cons.1 hi
    have honto : (st.onto outer).step t = (st.step t).map (·.onto outer) := State.step_onto (.inl hr.brackets_ne_nil) t
    simp only [List.cons_append, State.run, honto] at h
    cases hs : st.step t with
    | error e => simp [hs, Except.map] at h
    | ok next =>
      simp only [hs, Except.map, ht, if_false] at h
      rw [hs] at honto
      rcases hr.step hs with hr | ⟨node, rfl, hb, hspan, hk⟩
      · obtain ⟨inside, closer, after, node, rfl, halone, hwithin, hnode⟩ := exists_closing hlast hi hr h
        exact ⟨t :: inside, closer, after, node, rfl, .step hs halone, .step honto hwithin, hnode⟩
      · exact ⟨[], t, rest, node, rfl, .step hs (.refl _), .step honto (.refl _), hb, hspan, hk⟩

end Markup.Node
