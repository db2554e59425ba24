/-
What the tokens before say about a state.

The rule for what a token starts looks at the tokens before it, not at a
state; `State.Tracks` says that both agree on what the rule asks: the
constructs that are open, whether the front of a value is, and whether a
parameter may come. Every token that can be taken keeps them in agreement
(`State.Tracks.step`).
-/
import Markup.Proofs.LineEdges
import Markup.Proofs.TokenStarts

namespace Markup.Node

/-- Whether tokens say truly if the front of the value being read is open: if nothing stays in it. -/
def Context.FrontIs (before : List Token) : Context → Prop
  | .line _ _ _ pieces _ => beginsValue before = (trimEdge Text.stripStart pieces.reverse).isEmpty
  | .document _ | .call .. | .define .. => True

/-- What the rule asks of the tokens before is what the state is about. -/
structure State.Tracks (before : List Token) (st : State) : Prop where
  frames : st.frames = openFrames before
  front : st.mode = .ready → st.context.FrontIs before
  params : inParams before = true ↔ ∃ start name params, st.mode = .params start name params
  opened : ∀ {construct start}, st.mode = .name construct start →
    ∃ opener earlier, before = opener :: earlier ∧ opener.kind.opens? = some construct

theorem State.tracks_start : State.start.Tracks [] := by
  refine ⟨rfl, fun _ => trivial, ?_, nofun⟩
  simp [inParams, State.start]

/-! ## The front of a value -/

theorem beginsValue_cons_blank {t : Token} (h : isBlankText t = true) (before : List Token) :
    beginsValue (t :: before) = beginsValue before := by
  rw [beginsValue, beginsValue, List.dropWhile_cons, if_pos h]

theorem isBlankText_of_kind {t : Token} (h : t.kind ≠ .text) : isBlankText t = false := by
  simp [isBlankText, h]

/-- Only blanks and a variable's name keep the front of a value open. -/
theorem beginsValue_cons_of_kind {t : Token} (hb : isBlankText t = false) (hk : t.kind ≠ .identifier)
    (before : List Token) : beginsValue (t :: before) = false := by
  cases before <;> simp [beginsValue, hb, hk]

theorem trimEdge_text_isEmpty (value : String) (span : Span) :
    (trimEdge Text.stripStart [⟨.text value span, true⟩]).isEmpty = Text.isAllBlank value := by
  cases hb : Text.isAllBlank value with
  | true => rw [trimEdge, if_pos hb]; rfl
  | false => rw [trimEdge, hb]; rfl

theorem Context.frontIs_of_not_isLine {ctx : Context} (h : ctx.isLine = false) (before : List Token) :
    ctx.FrontIs before := by
  cases ctx with
  | line => cases h
  | document | call | define => trivial

/-- A node that stays settles the front of the value that it is added to. -/
theorem Context.frontIs_push {before : List Token} (h : beginsValue before = false) (ctx : Context)
    (node : Node) : (ctx.push node false).FrontIs before := by
  cases ctx with
  | line start name changes pieces outer =>
    simp only [push, FrontIs]
    rw [List.reverse_cons, trimEdge_concat_isEmpty, trimEdge_of_not_trimmable, h]
    simp
  | document | call | define => trivial

/-- A node that is added to a value leaves its front open only if it is blank text. -/
theorem Context.FrontIs.push_leaf {ctx : Context} {t : Token} {node : Node} {trimmable : Bool}
    {before : List Token} (hf : ctx.FrontIs before) (hn : leaf? t = some (node, trimmable))
    (hl : ctx.isLine = true → endsLine t = false) : (ctx.push node trimmable).FrontIs (t :: before) := by
  obtain ⟨hi, -, htext, hother⟩ := leaf?_kind hn
  cases trimmable with
  | false => exact frontIs_push (beginsValue_cons_of_kind (isBlankText_of_kind (hother rfl)) hi before) ctx node
  | true =>
    obtain ⟨hk, rfl⟩ := htext rfl
    cases ctx with
    | document | call | define => trivial
    | line start name changes pieces outer =>
      have he := hl rfl
      simp only [Context.push, FrontIs] at hf ⊢
      rw [List.reverse_cons, trimEdge_concat_isEmpty, trimEdge_text_isEmpty, ← hf]
      cases hb : Text.isAllBlank t.value with
      | true =>
        rw [beginsValue_cons_blank (by simp [isBlankText, hk, hb, he]), Bool.and_true]
      | false =>
        rw [beginsValue_cons_of_kind (by simp [isBlankText, hb]) hi, Bool.and_false]

theorem Takes.frontIs {ctx : Context} {lastStop : Position} {t : Token} {next : State} {before : List Token}
    (h : Takes ctx lastStop t next) (hf : ctx.FrontIs before) (hm : next.mode = .ready) :
    next.context.FrontIs (t :: before) := by
  cases h with
  | opens | separates => cases hm
  | ends => trivial
  | leaf node trimmable hn hl => exact hf.push_leaf hn hl
  | skips hk hl => exact Context.frontIs_of_not_isLine hl _
  | endsLine hl he =>
    have hk : t.kind ≠ .identifier := by
      intro hk
      rcases kind_of_endsLine he with hk' | hk' <;> rw [hk] at hk' <;> cases hk'
    have hb : isBlankText t = false := by simp [isBlankText, he]
    cases ctx with
    | document | call | define => trivial
    | line start name changes pieces outer =>
      exact Context.frontIs_push (beginsValue_cons_of_kind hb hk before) outer _
  | closesCall hk | closesDefinition hk =>
    refine Context.frontIs_push ?_ _ _
    exact beginsValue_cons_of_kind (isBlankText_of_kind (by simp [hk])) (by simp [hk]) before

theorem State.Meets.frontIs {st : State} {t : Token} {ctx : Context} {before : List Token}
    (hm : st.Meets t ctx) (h : st.Tracks before) : ctx.FrontIs before := by
  cases hm with
  | ready hr => exact h.front hr
  | group | body => trivial

/-! ## Parameters -/

theorem Takes.kind_ne_identifier {ctx : Context} {lastStop : Position} {t : Token} {next : State}
    (h : Takes ctx lastStop t next) : t.kind ≠ .identifier := by
  intro hi
  cases h with
  | opens construct ho => rw [hi] at ho; cases ho
  | leaf node trimmable hn => exact (leaf?_kind hn).1 hi
  | endsLine hl he => rcases kind_of_endsLine he with hk | hk <;> rw [hi] at hk <;> cases hk
  | skips hk | separates hk | closesCall hk | closesDefinition hk | ends hk => rw [hi] at hk; cases hk

theorem Takes.mode_ne_params {ctx : Context} {lastStop : Position} {t : Token} {next : State}
    (h : Takes ctx lastStop t next) : ¬ ∃ start name params, next.mode = .params start name params := by
  rintro ⟨start, name, params, hm⟩
  cases h <;> cases hm

theorem inParams_cons_argument {t : Token} (h : t.kind = .argument) (before : List Token) :
    inParams (t :: before) = inParams before := by
  rw [inParams, inParams, List.dropWhile_cons, if_pos (by simp [isArgument, h])]

theorem inParams_cons_of_kind {t : Token} (ha : t.kind ≠ .argument) (hi : t.kind ≠ .identifier)
    (before : List Token) : inParams (t :: before) = false := by
  cases before <;> simp [inParams, isArgument, ha, hi]

theorem State.Tracks.params_takes {st next : State} {t : Token} {ctx : Context} {before : List Token}
    (h : st.Tracks before) (hm : st.Meets t ctx) (ht : Takes ctx st.lastStop t next) :
    inParams (t :: before) = false := by
  by_cases ha : t.kind = .argument
  · rw [inParams_cons_argument ha, ← Bool.not_eq_true, h.params]
    rintro ⟨start, name, params, hp⟩
    cases hm with
    | ready hr | group hr => rw [hp] at hr; cases hr
    | body _ hk => simp [ha] at hk
  · exact inParams_cons_of_kind ha ht.kind_ne_identifier before

/-! ## One token -/

theorem State.Tracks.step_takes {st next : State} {t : Token} {ctx : Context} {before : List Token}
    (h : st.Tracks before) (hm : st.Meets t ctx) (ht : Takes ctx st.lastStop t next)
    (hi : t.kind ≠ .endOfInput) : next.Tracks (t :: before) := by
  refine ⟨?_, ?_, ?_, ?_⟩
  · rw [ht.frames_eq hi, ← hm.frames_eq, h.frames, openFrames]
  · exact ht.frontIs (hm.frontIs h)
  · simp [h.params_takes hm ht, ht.mode_ne_params]
  · intro construct start hn
    cases ht with
    | opens _ ho => cases hn; exact ⟨t, before, rfl, ho⟩
    | leaf | skips | endsLine | separates | closesCall | closesDefinition | ends => cases hn

theorem beginsValue_name {t : Token} (h : t.kind = .identifier) (opener : Token) (earlier : List Token) :
    beginsValue (t :: opener :: earlier) =
      (opener.kind == .keyword .letWord || opener.kind == .keyword .setWord) := by
  simp [beginsValue, isBlankText, h]

theorem inParams_name {t : Token} (h : t.kind = .identifier) (opener : Token) (earlier : List Token) :
    inParams (t :: opener :: earlier) = (opener.kind == .keyword .defWord) := by
  simp [inParams, isArgument, h]

theorem State.Tracks.step_name {st next : State} {t : Token} {construct : Named} {start : Position}
    {before : List Token} (h : st.Tracks before) (hm : st.mode = .name construct start)
    (hs : st.step t = .ok next) (hi : t.kind = .identifier) (hn : Begins st.context start t construct next)
    (hb : ∀ c, next.mode ≠ .blank c) : next.Tracks (t :: before) := by
  have hf : next.frames = openFrames (t :: before) := by
    rw [State.frames_step hs (by simp [hi]), h.frames, openFrames]
  obtain ⟨opener, earlier, rfl, ho⟩ := h.opened hm
  have hk := opens?_eq_some_iff.1 ho
  have hbegins := beginsValue_name hi opener earlier
  have hparams := inParams_name hi opener earlier
  cases hn with
  | blank construct => exact absurd rfl (hb construct)
  | call =>
    refine ⟨hf, nofun, ?_, nofun⟩
    simp [hparams, hk, Named.opener]
  | use =>
    refine ⟨hf, fun _ => Context.frontIs_push ?_ _ _, ?_, nofun⟩
    · rw [hbegins, hk]
      rfl
    · simp [hparams, hk, Named.opener]
  | define =>
    refine ⟨hf, nofun, ?_, nofun⟩
    simp [hparams, hk, Named.opener]
  | bind changes =>
    refine ⟨hf, fun _ => ?_, ?_, nofun⟩
    · simp only [Context.FrontIs]
      rw [hbegins, hk]
      cases changes <;> rfl
    · cases changes <;> simp [hparams, hk, Named.opener]

/-- Every token keeps the tokens before in step with the state; a blank name does not, but nothing
comes of it. -/
theorem State.Tracks.step {st next : State} {t : Token} {before : List Token} (h : st.Tracks before)
    (hs : st.step t = .ok next) (hi : t.kind ≠ .endOfInput) (hb : ∀ c, next.mode ≠ .blank c) :
    next.Tracks (t :: before) := by
  rcases State.step_cases hs with ⟨ctx, hm, ht⟩ | ⟨construct, start, hm, hk, hn⟩ |
    ⟨start, name, params, hm, hk, _, rfl⟩
  · exact h.step_takes hm ht hi
  · exact h.step_name hm hs hk hn hb
  · refine ⟨?_, nofun, ?_, nofun⟩
    · rw [State.frames_step hs hi, h.frames, openFrames]
    · rw [inParams_cons_argument hk, h.params, hm]
      simp

end Markup.Node
