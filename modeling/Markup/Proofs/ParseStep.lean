/-
What a token does to the construct being read, said once: `Takes` lists what
can happen where a value may begin, `Begins` what a name does, and
`State.step_cases` what can happen at all. An invariant of reading is proved
by going through these lists; none of the functions behind them is opened
again.
-/
import Markup.Proofs.ParseShape

namespace Markup.Node

/-- The node that a token is by itself, and whether a value's edge may be cut off it. -/
def leaf? (t : Token) : Option (Node × Bool) :=
  match t.kind with
  | .reference => some (.reference t.value false t.span, false)
  | .number value => some (.number value t.span, false)
  | .text => some (.text t.value t.span, true)
  | .escape | .hash | .slash | .pipe => some (.text t.value t.span, false)
  | .argument => some (.text ("$" ++ t.value) t.span, false)
  | .keyword _ | .identifier | .comment | .openParen | .closeParen | .endOfInput => none

theorem leaf?_kind {t : Token} {node : Node} {trimmable : Bool} (h : leaf? t = some (node, trimmable)) :
    t.kind ≠ .identifier ∧ t.kind ≠ .endOfInput ∧ (trimmable = true → t.kind = .text ∧ node = .text t.value t.span) ∧
      (trimmable = false → t.kind ≠ .text) := by
  obtain ⟨kind, value, raw, span⟩ := t
  cases kind with
  | keyword | identifier | comment | openParen | closeParen | endOfInput => cases h
  | _ => cases h; simp

theorem kind_of_endsLine {t : Token} (h : endsLine t = true) : t.kind = .comment ∨ t.kind = .text := by
  obtain ⟨kind, value, raw, span⟩ := t
  cases kind with
  | comment => exact .inl rfl
  | text => exact .inr rfl
  | _ => cases h

theorem endsLine_of_kind {t : Token} (hc : t.kind ≠ .comment) (ht : t.kind ≠ .text) : endsLine t = false := by
  cases he : endsLine t with
  | false => rfl
  | true =>
    rcases kind_of_endsLine he with hk | hk
    · exact absurd hk hc
    · exact absurd hk ht

/-- The groups of a call at its closing parenthesis, newest first: none if nothing stands in it. -/
def closedGroups (groups : List Group) (values : List Node) (span : Span) : List Group :=
  if values.isEmpty && groups.isEmpty then groups else addGroup groups values span

/-- What a token does where a value may begin, and the state behind it. -/
inductive Takes (ctx : Context) (lastStop : Position) (t : Token) : State → Prop where
  | opens (construct : Named) : t.kind.opens? = some construct →
      Takes ctx lastStop t ⟨ctx, .name construct t.span.start, t.span.stop⟩
  | leaf (node : Node) (trimmable : Bool) : leaf? t = some (node, trimmable) →
      (ctx.isLine = true → endsLine t = false) → (t.kind = .pipe → ctx.inCall = false) →
      Takes ctx lastStop t ⟨ctx.push node trimmable, .ready, t.span.stop⟩
  | skips : t.kind = .comment → ctx.isLine = false → Takes ctx lastStop t ⟨ctx, .ready, t.span.stop⟩
  | endsLine : ctx.isLine = true → endsLine t = true →
      Takes ctx lastStop t ⟨ctx.closeLine t.span.stop, .ready, t.span.stop⟩
  | separates {start name groups groupStart values outer} : t.kind = .pipe →
      ctx.closeLines lastStop = .call start name groups groupStart values outer →
      Takes ctx lastStop t
        ⟨outer, .group start name (addGroup groups values ⟨groupStart, t.span.start⟩), t.span.stop⟩
  | closesCall {start name groups groupStart values outer} : t.kind = .closeParen →
      ctx.closeLines lastStop = .call start name groups groupStart values outer →
      Takes ctx lastStop t
        ⟨outer.push (.call name (closedGroups groups values ⟨groupStart, t.span.start⟩).reverse
          ⟨start, t.span.stop⟩) false, .ready, t.span.stop⟩
  | closesDefinition {start name params values outer} : t.kind = .keyword .endWord →
      ctx.closeLines lastStop = .define start name params values outer →
      Takes ctx lastStop t
        ⟨outer.push (.define name params values.reverse ⟨start, t.span.stop⟩) false, .ready, t.span.stop⟩
  | ends {values} : t.kind = .endOfInput → ctx.closeLines lastStop = .document values →
      Takes ctx lastStop t ⟨.document values, .ready, t.span.stop⟩

theorem takes_of_stepValue {ctx : Context} {lastStop : Position} {t : Token} {next : State}
    (hl : ctx.isLine = true → endsLine t = false) (hp : t.kind = .pipe → ctx.inCall = false)
    (h : stepValue ctx t = .ok next) : Takes ctx lastStop t next := by
  obtain ⟨kind, value, raw, span⟩ := t
  cases kind with
  | keyword word =>
    cases word with
    | endWord => cases h
    | letWord | setWord | useWord | defWord => cases h; exact .opens _ rfl
  | openParen => cases h; exact .opens _ rfl
  | identifier | closeParen | endOfInput => cases h
  | comment =>
    cases h
    refine .skips rfl ?_
    cases hc : ctx.isLine with
    | false => rfl
    | true => cases hl hc
  | reference | number | text | escape | hash | slash | argument | pipe =>
    cases h
    exact .leaf _ _ rfl hl hp

theorem takes_of_stepInner {ctx : Context} {lastStop : Position} {t : Token} {next : State}
    (hc : ctx.isLine = false) (h : stepInner ctx t = .ok next) : Takes ctx lastStop t next := by
  have hclose := Context.closeLines_of_not_isLine lastStop hc
  have hl : ctx.isLine = true → endsLine t = false := by simp [hc]
  cases ctx with
  | line => cases hc
  | document values =>
    simp only [stepInner] at h
    split at h
    next hi => cases h; exact .ends hi hclose
    next => exact takes_of_stepValue hl (fun _ => rfl) h
  | call start name groups groupStart values outer =>
    simp only [stepInner] at h
    split at h
    next hk => cases h; exact .closesCall hk hclose
    next hk => cases h; exact .separates hk hclose
    next => cases h
    next _ hk _ => exact takes_of_stepValue hl (fun he => absurd he hk) h
  | define start name params values outer =>
    simp only [stepInner] at h
    split at h
    next hk => cases h; exact .closesDefinition hk hclose
    next => cases h
    next => exact takes_of_stepValue hl (fun _ => rfl) h

/-- What closes a value first does the same to what the value stands in. -/
theorem Takes.of_closeLines {ctx : Context} {lastStop : Position} {t : Token} {next : State}
    (hs : endsLines ctx t = true) (h : Takes (ctx.closeLines lastStop) lastStop t next) :
    Takes ctx lastStop t next := by
  have hc := Context.closeLines_of_not_isLine lastStop (Context.isLine_closeLines lastStop ctx)
  cases h with
  | opens construct ho =>
    obtain ⟨kind, value, raw, span⟩ := t
    cases kind with
    | keyword word => cases word <;> simp_all [endsLines, Token.Kind.opens?]
    | _ => simp_all [endsLines, Token.Kind.opens?]
  | leaf node trimmable hn hl hp =>
    have hk : t.kind = .pipe := by
      obtain ⟨kind, value, raw, span⟩ := t
      cases kind with
      | pipe => rfl
      | keyword word => cases hn
      | _ => simp_all [endsLines, leaf?]
    have hcall := hp hk
    rw [Context.inCall_eq, Context.brackets_closeLines, ← Context.inCall_eq] at hcall
    simp [endsLines, hk, hcall] at hs
  | skips hk => simp [endsLines, hk] at hs
  | endsLine hl => rw [Context.isLine_closeLines] at hl; cases hl
  | separates hk he => exact .separates hk (hc ▸ he)
  | closesCall hk he => exact .closesCall hk (hc ▸ he)
  | closesDefinition hk he => exact .closesDefinition hk (hc ▸ he)
  | ends hk he => exact .ends hk (hc ▸ he)

theorem takes_of_stepReady {ctx : Context} {lastStop : Position} {t : Token} {next : State}
    (h : stepReady ctx lastStop t = .ok next) : Takes ctx lastStop t next := by
  cases hc : ctx.isLine with
  | false =>
    refine takes_of_stepInner hc ?_
    cases ctx with
    | line => cases hc
    | _ => exact h
  | true =>
    cases ctx with
    | document | call | define => cases hc
    | line start name changes pieces outer =>
      simp only [stepReady] at h
      split at h
      next hs =>
        exact .of_closeLines hs (takes_of_stepInner (Context.isLine_closeLines _ _) h)
      next hs =>
      split at h
      next he =>
        cases h
        exact .endsLine rfl he
      next he =>
        refine takes_of_stepValue (fun _ => by simpa using he) ?_ h
        intro hk
        simpa [endsLines, hk] using hs

/-! ## Names -/

/-- What a name does for the construct that takes it, and the state behind it. -/
inductive Begins (ctx : Context) (start : Position) (t : Token) : Named → State → Prop where
  | blank (construct : Named) : construct ≠ .call → Text.isAllBlank t.value = true →
      Begins ctx start t construct ⟨ctx, .blank construct, t.span.stop⟩
  | call : Begins ctx start t .call ⟨ctx, .group start t.value [], t.span.stop⟩
  | use : Text.isAllBlank t.value = false →
      Begins ctx start t .use ⟨ctx.push (.use (Text.strip t.value)
        (BuiltIn.moduleNames.contains (Text.strip t.value)) ⟨start, t.span.stop⟩) false, .ready, t.span.stop⟩
  | define : Text.isAllBlank t.value = false →
      Begins ctx start t .define ⟨ctx, .params start t.value [], t.span.stop⟩
  | bind (changes : Bool) : Text.isAllBlank t.value = false →
      Begins ctx start t (.bind changes) ⟨.line start t.value changes [] ctx, .ready, t.span.stop⟩

theorem begins_stepName (ctx : Context) (construct : Named) (start : Position) (t : Token) :
    Begins ctx start t construct (stepName ctx construct start t) := by
  cases hb : Text.isAllBlank t.value with
  | true =>
    cases construct with
    | call => exact .call
    | use | define | bind =>
      simp only [stepName, hb, if_true]
      exact .blank _ (by simp) hb
  | false =>
    cases construct with
    | call => exact .call
    | use =>
      simp only [stepName, hb, Bool.false_eq_true, if_false]
      exact .use hb
    | define =>
      simp only [stepName, hb, Bool.false_eq_true, if_false]
      exact .define hb
    | bind changes =>
      simp only [stepName, hb, Bool.false_eq_true, if_false]
      exact .bind changes hb

/-! ## The whole machine -/

/-- The construct that a token goes on with, where a value may begin with it. -/
inductive State.Meets (st : State) (t : Token) : Context → Prop where
  | ready : st.mode = .ready → State.Meets st t st.context
  | group {start name groups} : st.mode = .group start name groups →
      State.Meets st t (.call start name groups t.span.start [] st.context)
  | body {start name params} : st.mode = .params start name params →
      (t.kind = .text ∨ t.kind = .escape ∨ t.kind = .comment ∨ t.kind = .keyword .endWord) →
      State.Meets st t (.define start name params.reverse [] st.context)

/-- A token is taken where a value may begin, as a name, or as a parameter. -/
theorem State.step_cases {st next : State} {t : Token} (h : st.step t = .ok next) :
    (∃ ctx, st.Meets t ctx ∧ Takes ctx st.lastStop t next) ∨
      (∃ construct start, st.mode = .name construct start ∧ t.kind = .identifier ∧
        Begins st.context start t construct next) ∨
      ∃ start name params, st.mode = .params start name params ∧ t.kind = .argument ∧ t.value ≠ "" ∧
        next = ⟨st.context, .params start name (t.value :: params), t.span.stop⟩ := by
  obtain ⟨ctx, mode, lastStop⟩ := st
  cases mode with
  | ready => exact .inl ⟨ctx, .ready rfl, takes_of_stepReady h⟩
  | name construct start =>
    simp only [State.step] at h
    split at h
    next hk => cases h; exact .inr (.inl ⟨construct, start, rfl, hk, begins_stepName _ _ _ _⟩)
    next => cases h
  | blank construct => cases h
  | group start name groups => exact .inl ⟨_, .group rfl, takes_of_stepReady h⟩
  | params start name params =>
    simp only [State.step] at h
    split at h
    next hk =>
      split at h
      next => cases h
      next hv => cases h; exact .inr (.inr ⟨start, name, params, rfl, hk, by simpa using hv, rfl⟩)
    next hk => exact .inl ⟨_, .body rfl (.inl hk), takes_of_stepReady h⟩
    next hk => exact .inl ⟨_, .body rfl (.inr (.inl hk)), takes_of_stepReady h⟩
    next hk => exact .inl ⟨_, .body rfl (.inr (.inr (.inl hk))), takes_of_stepReady h⟩
    next hk => exact .inl ⟨_, .body rfl (.inr (.inr (.inr hk))), takes_of_stepReady h⟩
    next => cases h
    next => cases h

theorem State.lastStop_of_step {st next : State} {t : Token} (h : st.step t = .ok next) :
    next.lastStop = t.span.stop := by
  rcases State.step_cases h with ⟨ctx, -, ht⟩ | ⟨construct, start, -, -, hb⟩ | ⟨start, name, params, -, -, -, rfl⟩
  · cases ht <;> rfl
  · cases hb <;> rfl
  · rfl

theorem State.step_opener {st next : State} {t : Token} {construct : Named}
    (ho : t.kind.opens? = some construct) (h : st.step t = .ok next) :
    ∃ ctx, next = ⟨ctx, .name construct t.span.start, t.span.stop⟩ := by
  rcases State.step_cases h with ⟨ctx, _, ht⟩ | ⟨_, _, _, hk, _⟩ | ⟨_, _, _, _, hk, _⟩
  · cases ht with
    | opens other hother =>
      rw [ho, Option.some.injEq] at hother
      exact ⟨ctx, by rw [hother]⟩
    | leaf node trimmable hn =>
      obtain ⟨kind, value, raw, span⟩ := t
      cases kind with
      | keyword | openParen => cases hn
      | _ => cases ho
    | endsLine _ he => rcases kind_of_endsLine he with hk | hk <;> rw [hk] at ho <;> cases ho
    | skips hk | separates hk | closesCall hk | closesDefinition hk | ends hk => rw [hk] at ho; cases ho
  · rw [hk] at ho
    cases ho
  · rw [hk] at ho
    cases ho

theorem Takes.of_endOfInput {ctx : Context} {lastStop : Position} {t : Token} {next : State}
    (h : Takes ctx lastStop t next) (hi : t.kind = .endOfInput) :
    ∃ values, ctx.closeLines lastStop = .document values ∧ next = ⟨.document values, .ready, t.span.stop⟩ := by
  cases h with
  | ends _ hc => exact ⟨_, hc, rfl⟩
  | opens construct ho => rw [hi] at ho; cases ho
  | leaf node trimmable hn => exact absurd hi (leaf?_kind hn).2.1
  | endsLine hl he => rcases kind_of_endsLine he with hk | hk <;> rw [hi] at hk <;> cases hk
  | skips hk | separates hk | closesCall hk | closesDefinition hk => rw [hi] at hk; cases hk

/-- The text may end where nothing is open but values, and these end with it. -/
theorem State.of_step_endOfInput {st next : State} {t : Token} (h : st.step t = .ok next)
    (hi : t.kind = .endOfInput) : st.mode = .ready ∧ ∃ values, st.context.closeLines st.lastStop = .document values ∧
      next = ⟨.document values, .ready, t.span.stop⟩ := by
  rcases State.step_cases h with ⟨ctx, hm, ht⟩ | ⟨_, _, _, hk, _⟩ | ⟨_, _, _, _, hk, _⟩
  · obtain ⟨values, hclose, hnext⟩ := ht.of_endOfInput hi
    cases hm with
    | ready hm => exact ⟨hm, values, hclose, hnext⟩
    | group => cases hclose
    | body _ hk => simp [hi] at hk
  · rw [hi] at hk
    cases hk
  · rw [hi] at hk
    cases hk

theorem State.step_endOfInput {st next : State} {t : Token} (h : st.step t = .ok next)
    (hi : t.kind = .endOfInput) : ∃ values, next = ⟨.document values, .ready, t.span.stop⟩ := by
  obtain ⟨-, values, -, hnext⟩ := State.of_step_endOfInput h hi
  exact ⟨values, hnext⟩

/-! ## Runs -/

/-- Tokens that stop without a mark of the end are read as if it stood where the last of them stopped. -/
theorem State.run_nil (st : State) : st.run [] = st.run [⟨.endOfInput, "", "", ⟨st.lastStop, st.lastStop⟩⟩] := by
  rw [run, run]
  cases st.step ⟨.endOfInput, "", "", ⟨st.lastStop, st.lastStop⟩⟩ <;> rfl

/-- A run that comes to its end takes every token before the mark of the end. -/
theorem State.run_cons_ok_iff {st : State} {t : Token} {rest : List Token} {nodes : List Node}
    (hk : t.kind ≠ .endOfInput) :
    st.run (t :: rest) = .ok nodes ↔ ∃ next, st.step t = .ok next ∧ next.run rest = .ok nodes := by
  rw [run]
  cases st.step t <;> simp [hk]

/-- A run comes to its end with the nodes that it has at the mark of the end. -/
theorem State.exists_step_of_run_end {st : State} {mark : Token} {rest : List Token} {nodes : List Node}
    (hk : mark.kind = .endOfInput) (h : st.run (mark :: rest) = .ok nodes) :
    ∃ values, st.step mark = .ok ⟨.document values, .ready, mark.span.stop⟩ ∧ nodes = values.reverse := by
  rw [run] at h
  split at h
  next => cases h
  next next hs =>
  obtain ⟨values, rfl⟩ := State.step_endOfInput hs hk
  rw [if_pos hk] at h
  exact ⟨values, hs, (Except.ok.inj h).symm⟩

/-- At the mark of the end nothing is open but values. -/
theorem State.of_run_end {st : State} {mark : Token} {rest : List Token} {nodes : List Node}
    (hk : mark.kind = .endOfInput) (h : st.run (mark :: rest) = .ok nodes) :
    st.mode = .ready ∧ ∃ values, st.context.closeLines st.lastStop = .document values ∧ nodes = values.reverse := by
  obtain ⟨values, hs, rfl⟩ := exists_step_of_run_end hk h
  obtain ⟨hm, _, hclose, hnext⟩ := State.of_step_endOfInput hs hk
  cases hnext
  exact ⟨hm, values, hclose, rfl⟩

end Markup.Node
