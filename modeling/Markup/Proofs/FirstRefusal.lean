/-
Reading stops at the first token behind which nothing helps.

The tokens before the one reported are all taken, and whatever state they lead to
can be brought to an end: a name is given where one has to follow, and then all
that is open is closed (`State.completion`). Only behind a blank name there is no
way on; the name has been taken by then, and what is reported is the token behind
it. So the tokens up to the one reported decide that there is no tree and what is
reported, and those before it do not yet (`parse_first_refusal`).

What is reported is recorded when the token is met, and nothing else ever is
(`State.runRecording_eq`).
-/
import Markup.Proofs.Nesting
import Markup.Proofs.ParseLanguage
import Markup.Proofs.SpanOrder

namespace Markup.Node

/-! ## The record -/

/-- Reading records nothing if there is a tree, and otherwise one message. -/
theorem State.runRecording_eq (st : State) (messages : List String) (tokens : List Token) :
    st.runRecording messages tokens = ⟨st.run tokens,
      match st.run tokens with
      | .ok _ => messages
      | .error e => messages ++ [e.message]⟩ := by
  induction tokens generalizing st with
  | nil =>
    rw [runRecording, run]
    cases st.step ⟨.endOfInput, "", "", ⟨st.lastStop, st.lastStop⟩⟩ <;> rfl
  | cons t rest ih =>
    rw [runRecording, run]
    cases st.step t with
    | error e => rfl
    | ok next =>
      by_cases hi : t.kind = .endOfInput
      · simp only [if_pos hi]
      · simp only [if_neg hi]
        exact ih next

/-! ## The token that is refused -/

/-- Tokens that have no tree are taken up to one that is refused. -/
theorem State.exists_refusal {last : Token} {e : ParseError} :
    ∀ {tokens : List Token} {st : State}, (∀ t ∈ tokens, t.kind ≠ .endOfInput) → last.kind = .endOfInput →
      st.run (tokens ++ [last]) = .error e →
      ∃ before t after mid, tokens ++ [last] = before ++ t :: after ∧ (∀ u ∈ before, u.kind ≠ .endOfInput) ∧
        Steps st before mid ∧ mid.step t = .error e
  | [], st, _, hl, h => by
    rw [List.nil_append, run] at h
    split at h
    next f hs =>
      cases h
      exact ⟨[], last, [], st, rfl, List.forall_mem_nil _, .refl st, hs⟩
    next => simp only [hl, if_true, reduceCtorEq] at h
  | t :: tokens, st, hi, hl, h => by
    obtain ⟨ht, hi⟩ := List.forall_mem_cons.1 hi
    rw [List.cons_append, run] at h
    split at h
    next f hs =>
      cases h
      exact ⟨[], t, tokens ++ [last], st, rfl, List.forall_mem_nil _, .refl st, hs⟩
    next next hs =>
      rw [if_neg ht] at h
      obtain ⟨before, u, after, mid, he, hb, hsteps, hu⟩ := exists_refusal hi hl h
      refine ⟨t :: before, u, after, mid, ?_, List.forall_mem_cons.2 ⟨ht, hb⟩, .step hs hsteps, hu⟩
      rw [List.cons_append, he, List.cons_append]

theorem found_mem_of_parse_error {text : String} {tokens : List Token} {e : ParseError}
    (hs : Token.scan text = .ok tokens) (hp : parse tokens = .error e) : e.found ∈ tokens := by
  obtain ⟨others, mark, rfl, hmark, -, -, ho⟩ := Token.exists_last_of_scan hs
  obtain ⟨before, t, after, mid, he, -, -, hstep⟩ := State.exists_refusal ho hmark hp
  rw [he, State.step_found hstep]
  exact List.mem_append_right _ List.mem_cons_self

theorem State.Steps.run_refusal {st mid : State} {before : List Token} {t : Token} {e : ParseError}
    (h : Steps st before mid) (hb : ∀ u ∈ before, u.kind ≠ .endOfInput) (hs : mid.step t = .error e)
    (after : List Token) : st.run (before ++ t :: after) = .error e := by
  rw [h.run_append hb, run, hs]

/-! ## The way to an end -/

/-- Whether tokens begin a list of tokens that has a tree. -/
def Completable (before : List Token) : Prop :=
  ∃ more mark nodes, (∀ t ∈ before ++ more, t.kind ≠ .endOfInput) ∧ mark.kind = .endOfInput ∧
    parse (before ++ more ++ [mark]) = .ok nodes

/-- The token that closes a bracket. -/
def Bracket.closingToken : Bracket → Token
  | .call => ⟨.closeParen, ")", ")", .builtIn⟩
  | .define => ⟨.keyword .endWord, "end", "#end", .builtIn⟩

/-- Tokens that bring a state to an end: a name, if one has to follow, and what closes the open
brackets. -/
def State.completion (st : State) : List Token :=
  let closing := st.shape.brackets.map Bracket.closingToken
  match st.mode with
  | .name .. => ⟨.identifier, "x", "x", .builtIn⟩ :: closing
  | _ => closing

theorem Bracket.closingToken_kind (b : Bracket) :
    b.closingToken.kind ≠ .identifier ∧ b.closingToken.kind ≠ .endOfInput ∧ b.closingToken.kind.opens? = none := by
  cases b <;> simp [closingToken, Token.Kind.opens?]

theorem closes_map_closingToken (brackets : List Bracket) :
    Closes brackets (edges (brackets.map Bracket.closingToken)) := by
  induction brackets with
  | nil => simp [edges, Closes]
  | cons b outer ih =>
    have hedge : edge? b.closingToken = some (.closing b) := by cases b <;> rfl
    rw [List.map_cons, edges, List.filterMap_cons, hedge]
    simp only [Closes, true_and]
    exact ih

theorem follows_map_closingToken {last : Token} (hl : last.kind = .endOfInput) (brackets : List Bracket) :
    Follows .ready (brackets.map Bracket.closingToken ++ [last]) := by
  induction brackets with
  | nil => simp [Follows, Phase.Admits, Phase.after, hl, Token.Kind.opens?]
  | cons b outer ih =>
    obtain ⟨hname, -, hopens⟩ := b.closingToken_kind
    rw [List.map_cons, List.cons_append, Follows, Phase.after, hopens]
    exact ⟨hname, ih⟩

theorem follows_params_closingToken {last : Token} (hl : last.kind = .endOfInput) (brackets : List Bracket) :
    Follows .params ((Bracket.define :: brackets).map Bracket.closingToken ++ [last]) :=
  ⟨.inr rfl, follows_map_closingToken hl brackets⟩

/-- Every state can be brought to an end, but one behind a blank name. -/
theorem State.exists_run_completion (st : State) (h : ∀ construct, st.mode ≠ .blank construct) {last : Token}
    (hl : last.kind = .endOfInput) :
    (∀ t ∈ st.completion, t.kind ≠ .endOfInput) ∧ ∃ nodes, st.run (st.completion ++ [last]) = .ok nodes := by
  have hclosing : ∀ brackets : List Bracket, ∀ t ∈ brackets.map Bracket.closingToken, t.kind ≠ .endOfInput := by
    intro brackets t ht
    obtain ⟨b, -, rfl⟩ := List.mem_map.1 ht
    exact b.closingToken_kind.2.1
  have hends : ∀ t ∈ st.completion, t.kind ≠ .endOfInput := by
    obtain ⟨ctx, mode, lastStop⟩ := st
    cases mode with
    | name => exact List.forall_mem_cons.2 ⟨by simp, hclosing _⟩
    | ready | blank | params | group => exact hclosing _
  refine ⟨hends, (run_ok_iff hl st.completion st hends).2 ?_⟩
  obtain ⟨ctx, mode, lastStop⟩ := st
  cases mode with
  | ready => exact ⟨follows_map_closingToken hl _, closes_map_closingToken _⟩
  | group => exact ⟨follows_map_closingToken hl _, closes_map_closingToken _⟩
  | params => exact ⟨follows_params_closingToken hl _, closes_map_closingToken (.define :: ctx.brackets)⟩
  | blank construct => exact absurd rfl (h construct)
  | name construct start =>
    refine ⟨⟨⟨rfl, .inr rfl⟩, ?_⟩, closes_map_closingToken (construct.bracket?.toList ++ ctx.brackets)⟩
    cases construct with
    | define => exact follows_params_closingToken hl _
    | call | use | bind => exact follows_map_closingToken hl _

theorem State.Steps.completable {before : List Token} {mid : State} (h : Steps .start before mid)
    (hb : ∀ u ∈ before, u.kind ≠ .endOfInput) (hm : ∀ construct, mid.mode ≠ .blank construct) :
    Completable before := by
  let mark : Token := ⟨.endOfInput, "", "", .builtIn⟩
  have hmark : mark.kind = .endOfInput := rfl
  obtain ⟨hends, nodes, hr⟩ := mid.exists_run_completion hm hmark
  refine ⟨mid.completion, mark, nodes, ?_, rfl, ?_⟩
  · simpa only [List.forall_mem_append] using ⟨hb, hends⟩
  · rw [parse, List.append_assoc, h.run_append hb, hr]

/-! ## Blank names -/

/-- Whether tokens end with a directive and a name for it that is blank. -/
def EndsWithBlankName (construct : Named) (first : List Token) (directive : Token) (before : List Token) : Prop :=
  ∃ name, before = first ++ [directive, name] ∧ directive.kind = construct.opener ∧ construct ≠ .call ∧
    name.kind = .identifier ∧ Text.isAllBlank name.value = true

theorem State.mode_of_step_name {st next : State} {t : Token} {construct : Named} {start : Position}
    (h : st.step t = .ok next) (hm : next.mode = .name construct start) : t.kind = construct.opener := by
  rcases State.step_cases h with ⟨ctx, _, ht⟩ | ⟨_, _, _, _, hb⟩ | ⟨_, _, _, _, _, _, rfl⟩
  · cases ht with
    | opens other ho =>
      cases hm
      exact opens?_eq_some_iff.1 ho
    | leaf | skips | endsLine | separates | closesCall | closesDefinition | ends => cases hm
  · cases hb <;> cases hm
  · cases hm

theorem State.of_step_blank {st next : State} {t : Token} {construct : Named}
    (h : st.step t = .ok next) (hm : next.mode = .blank construct) :
    (∃ start, st.mode = .name construct start) ∧ construct ≠ .call ∧ t.kind = .identifier ∧
      Text.isAllBlank t.value = true := by
  rcases State.step_cases h with ⟨ctx, _, ht⟩ | ⟨_, start, hmode, hk, hb⟩ | ⟨_, _, _, _, _, _, rfl⟩
  · cases ht <;> cases hm
  · cases hb with
    | blank construct hc hblank =>
      cases hm
      exact ⟨⟨start, hmode⟩, hc, hk, hblank⟩
    | call | use | define | bind => cases hm
  · cases hm

/-- A state that waits for a name stands behind the token that asks for it. -/
theorem State.Steps.exists_opener {tokens : List Token} {st : State} (h : Steps .start tokens st)
    {construct : Named} {start : Position} (hm : st.mode = .name construct start) :
    ∃ first opener, tokens = first ++ [opener] ∧ opener.kind = construct.opener := by
  rcases List.eq_nil_or_concat' tokens with rfl | ⟨first, opener, rfl⟩
  · cases h
    cases hm
  · obtain ⟨mid, -, hs⟩ := h.exists_last
    exact ⟨first, opener, rfl, State.mode_of_step_name hs hm⟩

/-- Behind a blank name, what stands before it still waits for a name. -/
theorem State.Steps.exists_blank {tokens : List Token} {st : State} (h : Steps .start tokens st)
    {construct : Named} (hm : st.mode = .blank construct) :
    ∃ first directive mid start, EndsWithBlankName construct first directive tokens ∧
      Steps .start (first ++ [directive]) mid ∧ mid.mode = .name construct start := by
  rcases List.eq_nil_or_concat' tokens with rfl | ⟨before, name, rfl⟩
  · cases h
    cases hm
  · obtain ⟨mid, hsteps, hs⟩ := h.exists_last
    obtain ⟨⟨start, hmode⟩, hc, hk, hb⟩ := State.of_step_blank hs hm
    obtain ⟨first, directive, rfl, ho⟩ := hsteps.exists_opener hmode
    refine ⟨first, directive, mid, start, ⟨name, ?_, ho, hc, hk, hb⟩, hsteps, hmode⟩
    rw [List.append_assoc, List.singleton_append]

/-! ## All tokens -/

/-- Tokens with a tree leave no record. For those without one the record is the message of one of
them, and with it stand the span and all that is reported: whatever begins with the tokens up to that
one is reported the same, while those before it begin a list that has a tree. If a directive's name
is blank, the token behind it is reported, and it is the tokens before the name that do. -/
theorem parse_first_refusal (tokens : List Token) (last : Token) (hl : last.kind = .endOfInput)
    (ho : ∀ t ∈ tokens, t.kind ≠ .endOfInput) :
    match parse (tokens ++ [last]) with
    | .ok nodes => parseRecording (tokens ++ [last]) = ⟨.ok nodes, []⟩
    | .error e => parseRecording (tokens ++ [last]) = ⟨.error e, [e.message]⟩ ∧
      ∃ before found after, tokens ++ [last] = before ++ found :: after ∧ e.found = found ∧ e.span = found.span ∧
        (∀ rest, parse (before ++ found :: rest) = .error e) ∧
        (Completable before ∨ ∃ construct first directive, e.expected = construct.expected ∧
          EndsWithBlankName construct first directive before ∧ Completable (first ++ [directive])) := by
  have hrecord := State.runRecording_eq .start [] (tokens ++ [last])
  split
  next nodes h =>
    rw [parse] at h
    rw [parseRecording, hrecord, h]
  next e h =>
    rw [parse] at h
    refine ⟨by rw [parseRecording, hrecord, h]; rfl, ?_⟩
    obtain ⟨before, found, after, mid, hsplit, hb, hsteps, hs⟩ := State.exists_refusal ho hl h
    have hfound := State.step_found hs
    refine ⟨before, found, after, hsplit, hfound, congrArg Token.span hfound, hsteps.run_refusal hb hs, ?_⟩
    by_cases hm : ∃ construct, mid.mode = .blank construct
    · obtain ⟨construct, hm⟩ := hm
      obtain ⟨first, directive, earlier, start, hends, hbefore, hmode⟩ := hsteps.exists_blank hm
      have hexpected : e.expected = construct.expected := by
        rw [State.step, hm] at hs
        cases hs
        rfl
      have hfirst : ∀ u ∈ first ++ [directive], u.kind ≠ .endOfInput := by
        obtain ⟨name, rfl, -⟩ := hends
        rw [List.append_cons] at hb
        exact (List.forall_mem_append.1 hb).1
      have hname : ∀ other, earlier.mode ≠ .blank other := by
        intro other hother
        rw [hmode] at hother
        cases hother
      exact .inr ⟨construct, first, directive, hexpected, hends, hbefore.completable hfirst hname⟩
    · exact .inl (hsteps.completable hb fun construct hc => hm ⟨construct, hc⟩)

/-- The name of `#let` is blank in a call, and the pipe behind it is reported. Up to `#let` the tokens
begin a document: a name and a closing parenthesis make it one. -/
theorem first_refusal_behind_blank_name :
    let call : List Token := [⟨.openParen, "(", "(", .builtIn⟩, ⟨.identifier, "f", "f", .builtIn⟩]
    let directive : Token := ⟨.keyword .letWord, "let", "#let", .builtIn⟩
    let pipe : Token := ⟨.pipe, "|", "|", ⟨⟨1, 9, 8⟩, ⟨1, 10, 9⟩⟩⟩
    let tokens := call ++ [directive, ⟨.identifier, " ", " ", .builtIn⟩, pipe]
    (∀ t ∈ tokens, t.kind ≠ .endOfInput) ∧
      parseRecording (tokens ++ [⟨.endOfInput, "", "", .builtIn⟩]) =
        ⟨.error ⟨.variableName, pipe⟩, ["expected variable name but found '|'"]⟩ ∧
      ∃ before found after, tokens ++ [⟨.endOfInput, "", "", .builtIn⟩] = before ++ found :: after ∧ pipe = found ∧
        pipe.span = found.span ∧ (∀ rest, parse (before ++ found :: rest) = .error ⟨.variableName, pipe⟩) ∧
        (Completable before ∨ ∃ construct first directive, .variableName = construct.expected ∧
          EndsWithBlankName construct first directive before ∧ Completable (first ++ [directive])) := by
  intro call directive pipe tokens
  have htokens : ∀ t ∈ tokens, t.kind ≠ .endOfInput := by decide
  exact ⟨htokens, parse_first_refusal tokens ⟨.endOfInput, "", "", .builtIn⟩ rfl htokens⟩

end Markup.Node
