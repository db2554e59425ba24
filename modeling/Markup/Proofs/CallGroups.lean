/-
The groups of a call.

A pipe divides the innermost bracket that is open before it, if that is a call, also
where the pipe ends a variable's value there; pipes inside of the calls and definitions
in it leave it whole. A call has a group more than it has pipes of its own, or none if
it has no pipe and no value. What stands between two neighbouring pipes of a call makes,
read alone, the values of one group (`groups_of_call`).

Along the run, what has been read of a group is a document put onto the call
(`State.onto`). `Advances` lists what a token can do there, and `exists_groups`
follows the tokens to the call's parenthesis.
-/
import Mathlib.Data.List.Forall2
import Markup.Proofs.Locality
import Markup.Proofs.OpenBrackets

namespace Markup.Node

/-! ## The values of groups -/

/-- The values of a call's groups, given those between its pipes: it has no group if these are none. -/
def grouped : List (List Node) → List (List Node)
  | [[]] => []
  | values => values

theorem grouped_concat {finished : List (List Node)} {values : List Node} (h : finished ≠ [] ∨ values ≠ []) :
    grouped (finished ++ [values]) = finished ++ [values] := by
  rcases finished with _ | ⟨first, finished⟩
  · cases values with
    | nil => simp at h
    | cons => rfl
  · cases first <;> cases finished <;> rfl

/-- Groups that hold the given values, with their numbers. -/
structure Hold (groups : List Group) (values : List (List Node)) : Prop where
  values : groups.map (·.values) = values
  numbers : groups.map (·.index) = List.range groups.length

section

variable {done : List Group} {finished : List (List Node)} (h : Hold done.reverse finished)
include h

theorem Hold.addGroup (values : List Node) (span : Span) :
    Hold (addGroup done values span).reverse (finished ++ [values.reverse]) := by
  have hnumbers := h.numbers
  rw [List.length_reverse] at hnumbers
  constructor
  · simp [Node.addGroup, ← h.values]
  · simp [Node.addGroup, List.range_succ, ← hnumbers]

theorem Hold.closedGroups (values : List Node) (span : Span) :
    Hold (closedGroups done values span).reverse (grouped (finished ++ [values.reverse])) := by
  rw [Node.closedGroups]
  split
  next hnone =>
    simp only [Bool.and_eq_true, List.isEmpty_iff] at hnone
    obtain ⟨rfl, rfl⟩ := hnone
    obtain rfl : [] = finished := h.values
    exact ⟨rfl, rfl⟩
  next hsome =>
    rw [grouped_concat]
    · exact h.addGroup values span
    · by_contra hnone
      simp only [ne_eq, List.reverse_eq_nil_iff, not_or, not_not] at hnone
      obtain ⟨rfl, rfl⟩ := hnone
      have hd : done = [] := by simpa using h.values
      simp [hd] at hsome

end

/-! ## What is read of a group -/

/-- Only what closes and what separates depends on the constructs around. -/
theorem stepReady_onto_of_clear {ctx outer : Context} {t : Token} (h : ctx.Clear outer) (lastStop : Position)
    (hc : t.kind ≠ .closeParen) (he : t.kind ≠ .keyword .endWord) (hp : t.kind ≠ .pipe)
    (hi : t.kind ≠ .endOfInput) :
    stepReady (ctx.onto outer) lastStop t = (stepReady ctx lastStop t).map (·.onto outer) := by
  have hvalue := stepValue_onto h t
  rw [← stepInner_eq_stepValue _ t hc he hp hi, ← stepInner_eq_stepValue _ t hc he hp hi] at hvalue
  have hends (ctx : Context) : endsLines ctx t = false := by
    obtain ⟨kind, value, raw, span⟩ := t
    cases kind with
    | keyword word => cases word <;> first | rfl | exact absurd rfl he
    | closeParen => exact absurd rfl hc
    | pipe => exact absurd rfl hp
    | endOfInput => exact absurd rfl hi
    | _ => rfl
  cases ctx with
  | document values =>
    have hready : stepReady ((Context.document values).onto outer) lastStop t =
        stepInner ((Context.document values).onto outer) t := by
      have hl := h.isLine_onto
      cases hctx : (Context.document values).onto outer with
      | line => rw [hctx] at hl; cases hl
      | document | call | define => rfl
    rw [hready, hvalue]
    rfl
  | call | define => exact hvalue
  | line start name changes pieces inner =>
    have hline := Context.onto_closeLine h t.span.stop
    simp only [Context.onto] at hline hvalue ⊢
    simp only [stepReady, hends, Bool.false_eq_true, if_false]
    split
    next => rw [← hline]; rfl
    next => exact hvalue

section

variable {start groupStart : Position} {name : String} {done : List Group} {outer : Context}

theorem Context.onto_call (values : List Node) : (document values).onto (.call start name done groupStart [] outer) =
    .call start name done groupStart values outer := by
  induction values with
  | nil => rfl
  | cons node values ih =>
    have hpush := onto_push_false (.document values) (.call start name done groupStart [] outer) node
    rw [ih] at hpush
    exact hpush

variable (start groupStart name done outer) in
theorem Context.closeLines_of_onto_call {ctx : Context} (stop : Position) (hb : ctx.brackets = []) :
    ∃ values, ctx.closeLines stop = .document values ∧
      (ctx.onto (.call start name done groupStart [] outer)).closeLines stop =
        .call start name done groupStart values outer := by
  have hclear : ctx.Clear (.call start name done groupStart [] outer) := .inr rfl
  have honto := onto_closeLines hclear stop
  have hl := isLine_closeLines stop ctx
  have hbrackets := brackets_closeLines stop ctx
  rw [hb] at hbrackets
  cases hclose : ctx.closeLines stop with
  | document values =>
    rw [hclose, onto_call] at honto
    exact ⟨values, rfl, honto.symm⟩
  | call | define => rw [hclose] at hbrackets; cases hbrackets
  | line => rw [hclose] at hl; cases hl

variable (start groupStart name done outer) in
/-- What a token does in a call, where `st` is what has been read of its last group, and the state behind it. -/
inductive Advances (st : State) (t : Token) : State → Prop where
  | separates {values : List Node} : t.kind = .pipe → st.shape.brackets = [] → st.mode = .ready →
      st.context.closeLines st.lastStop = .document values →
      Advances st t ⟨outer, .group start name (addGroup done values ⟨groupStart, t.span.start⟩), t.span.stop⟩
  | closes {values : List Node} : t.kind = .closeParen → st.shape.brackets = [] → st.mode = .ready →
      st.context.closeLines st.lastStop = .document values →
      Advances st t ⟨outer.push (.call name (closedGroups done values ⟨groupStart, t.span.start⟩).reverse
        ⟨start, t.span.stop⟩) false, .ready, t.span.stop⟩
  | goesOn {next : State} : (t.kind = .pipe → st.shape.brackets ≠ []) → st.step t = .ok next →
      Advances st t (next.onto (.call start name done groupStart [] outer))

theorem advances_of_onto {st next : State} {t : Token} (hp : t.kind = .pipe → st.shape.brackets ≠ [])
    (honto : (st.onto (.call start name done groupStart [] outer)).step t =
      (st.step t).map (·.onto (.call start name done groupStart [] outer)))
    (h : (st.onto (.call start name done groupStart [] outer)).step t = .ok next) :
    Advances start groupStart name done outer st t next := by
  rw [honto] at h
  cases hs : st.step t with
  | error e => rw [hs] at h; cases h
  | ok mid =>
    rw [hs] at h
    cases h
    exact .goesOn hp hs

/-- Where no bracket is open in a call, a token closes it, or separates its groups, or does what it does in a
document. -/
theorem advances_of_stepReady {ctx : Context} {lastStop : Position} {t : Token} {next : State}
    (hb : ctx.brackets = []) (hi : t.kind ≠ .endOfInput)
    (h : stepReady (ctx.onto (.call start name done groupStart [] outer)) lastStop t = .ok next) :
    Advances start groupStart name done outer ⟨ctx, .ready, lastStop⟩ t next := by
  obtain ⟨values, hclose, honto⟩ :=
    Context.closeLines_of_onto_call start groupStart name done outer lastStop hb
  have hcall : (ctx.onto (.call start name done groupStart [] outer)).inCall = true := by
    rw [Context.inCall_eq, Context.brackets_onto, hb]
    rfl
  -- Only these tokens look at what is around the values; the others are taken as in a document.
  by_cases hs : t.kind = .closeParen ∨ t.kind = .keyword .endWord ∨ t.kind = .pipe
  · cases takes_of_stepReady h with
    | separates hk he =>
      rw [honto] at he
      cases he
      exact .separates hk hb rfl hclose
    | closesCall hk he =>
      rw [honto] at he
      cases he
      exact .closes hk hb rfl hclose
    | closesDefinition hk he => rw [honto] at he; cases he
    | ends hk => exact absurd hk hi
    | opens construct ho => rcases hs with hk | hk | hk <;> rw [hk] at ho <;> cases ho
    | skips hk => rw [hk] at hs; simp at hs
    | endsLine hl he =>
      rcases kind_of_endsLine he with hk | hk <;> rw [hk] at hs <;> simp at hs
    | leaf node trimmable hn hl hp =>
      rcases hs with hk | hk | hk
      · simp [leaf?, hk] at hn
      · simp [leaf?, hk] at hn
      · rw [hcall] at hp
        exact absurd (hp hk) (by simp)
  · simp only [not_or] at hs
    obtain ⟨hc, he, hp⟩ := hs
    exact advances_of_onto (fun hk => absurd hk hp) (stepReady_onto_of_clear (.inr rfl) lastStop hc he hp hi) h

/-- `Advances` lists all that a token can do in a call. -/
theorem advances_of_step {st next : State} {t : Token} (hi : t.kind ≠ .endOfInput)
    (h : (st.onto (.call start name done groupStart [] outer)).step t = .ok next) :
    Advances start groupStart name done outer st t next := by
  by_cases hb : st.shape.brackets = []
  · obtain ⟨ctx, mode, lastStop⟩ := st
    cases mode with
    | ready => exact advances_of_stepReady hb hi h
    | name construct begin =>
      have hk : t.kind = .identifier := by
        simp only [State.onto, State.step] at h
        split at h
        next hk => exact hk
        next => cases h
      refine advances_of_onto (fun hp => by rw [hk] at hp; cases hp) ?_ h
      simp only [State.step, State.onto, stepName_onto]
      split <;> rfl
    | blank construct => cases h
    | params | group => cases hb
  · exact advances_of_onto (fun _ => hb) (State.step_onto (.inl hb) t) h

end

/-! ## A whole call -/

theorem State.run_document (stop : Position) (tokens : List Token) :
    State.run ⟨.document [], .ready, stop⟩ tokens = parse tokens := by
  cases tokens with
  | nil => simp [parse, State.start, State.run, State.step, stepReady, stepInner, Except.map, Context.finished]
  | cons t rest => rfl

theorem State.run_nil_of_closeLines {ctx : Context} {lastStop : Position} {values : List Node}
    (h : ctx.closeLines lastStop = .document values) : State.run ⟨ctx, .ready, lastStop⟩ [] = .ok values.reverse := by
  have hready : stepReady ctx lastStop ⟨.endOfInput, "", "", ⟨lastStop, lastStop⟩⟩ =
      .ok ⟨.document values, .ready, lastStop⟩ := by
    cases ctx with
    | document => cases h; simp [stepReady, stepInner]
    | call | define => cases h
    | line => simp [stepReady, endsLines, h, stepInner]
  simp [State.run, State.step, hready, Except.map, Context.finished]

/-- What has been read of a group: `taken` are its tokens, and `inside` the first tokens of the brackets
open in it. -/
structure InGroup (opener : Token) (st : State) (taken inside : List Token) : Prop where
  steps : ∃ stop, State.Steps ⟨.document [], .ready, stop⟩ taken st
  noEnd : ∀ t ∈ taken, t.kind ≠ .endOfInput
  length : inside.length = st.shape.brackets.length
  fresh : opener ∉ inside

theorem InGroup.start (opener : Token) (stop : Position) : InGroup opener ⟨.document [], .ready, stop⟩ [] [] where
  steps := ⟨stop, .refl _⟩
  noEnd := by simp
  length := rfl
  fresh := by simp

section

variable {opener : Token} {st : State} {taken inside : List Token} (h : InGroup opener st taken inside)
include h

theorem InGroup.step {next : State} {t : Token} (hs : st.step t = .ok next) (hi : t.kind ≠ .endOfInput)
    (ht : opener ≠ t) (stack : List Token) :
    ∃ more, openBehind (inside ++ opener :: stack) t = more ++ opener :: stack ∧
      InGroup opener next (taken ++ [t]) more := by
  obtain ⟨stop, hsteps⟩ := h.steps
  obtain ⟨more, hopen, hlength, hfresh⟩ := exists_openBehind hs hi h.length h.fresh ht stack
  refine ⟨more, hopen, ⟨stop, hsteps.concat hs⟩, ?_, hlength, hfresh⟩
  intro u hu
  rcases List.mem_append.1 hu with hu | hu
  · exact h.noEnd u hu
  · exact List.mem_singleton.1 hu ▸ hi

theorem InGroup.nil_of_brackets (hb : st.shape.brackets = []) : inside = [] := by
  have hlength := h.length
  rw [hb] at hlength
  exact List.length_eq_zero_iff.1 hlength

/-- While a bracket is open in the call a pipe is none of the call. -/
theorem InGroup.not_own {t : Token} (hp : t.kind = .pipe → st.shape.brackets ≠ []) (stack : List Token) :
    ¬(t.kind = .pipe ∧ (inside ++ opener :: stack).head? = some opener) := by
  rintro ⟨hk, hhead⟩
  have hnone := (head?_eq_opener_iff h.fresh stack).1 hhead
  have hlength := h.length
  rw [hnone] at hlength
  exact hp hk (List.length_eq_zero_iff.1 hlength.symm)

/-- At the end of a group its tokens make its values. -/
theorem InGroup.parse_eq {values : List Node} (hm : st.mode = .ready)
    (hc : st.context.closeLines st.lastStop = .document values) : parse taken = .ok values.reverse := by
  obtain ⟨stop, hsteps⟩ := h.steps
  obtain ⟨ctx, mode, lastStop⟩ := st
  obtain rfl : mode = .ready := hm
  have hrun := hsteps.run_append h.noEnd []
  rw [List.append_nil, State.run_document, State.run_nil_of_closeLines hc] at hrun
  exact hrun

end

/-- How the tokens of a call up to its parenthesis are cut: they leave its bracket open, as it is in front
of them, and the parts make `values`. The first part goes on behind `taken`, with the brackets of `inside`
open. -/
structure CutInto (opener : Token) (stack inside taken own : List Token) (values : List (List Node)) : Prop where
  stays : own.foldl openBehind (inside ++ opener :: stack) = opener :: stack
  parts : List.Forall₂ (parse · = .ok ·)
    ((cutAtPipes opener (inside ++ opener :: stack) own).modifyHead (taken ++ ·)) values

section

variable {opener t : Token} {stack inside taken own : List Token} {held : List Node} {values : List (List Node)}

theorem CutInto.parts_of_nil (h : CutInto opener stack [] [] own values) :
    List.Forall₂ (parse · = .ok ·) (cutAtPipes opener (opener :: stack) own) values := by
  have hwhole : (cutAtPipes opener (opener :: stack) own).modifyHead ([] ++ ·) =
      cutAtPipes opener (opener :: stack) own := congrFun List.modifyHead_id _
  exact hwhole ▸ h.parts

theorem CutInto.last (h : parse taken = .ok held) : CutInto opener stack [] taken [] [held] where
  stays := rfl
  parts := by
    simp only [cutAtPipes, List.modifyHead_cons, List.append_nil]
    exact .cons h .nil

theorem CutInto.separate (h : CutInto opener stack [] [] own values) (hk : t.kind = .pipe)
    (hv : parse taken = .ok held) : CutInto opener stack [] taken (t :: own) (held :: values) := by
  have hstays : openBehind (opener :: stack) t = opener :: stack := openBehind_of_edge? (by simp [edge?, hk]) _
  constructor
  · rw [List.nil_append, List.foldl_cons, hstays]
    exact h.stays
  · rw [List.nil_append, cutAtPipes, if_pos ⟨hk, rfl⟩, hstays, List.modifyHead_cons, List.append_nil]
    exact .cons hv h.parts_of_nil

theorem CutInto.goOn {more : List Token} (h : CutInto opener stack more (taken ++ [t]) own values)
    (hstack : openBehind (inside ++ opener :: stack) t = more ++ opener :: stack)
    (hp : ¬(t.kind = .pipe ∧ (inside ++ opener :: stack).head? = some opener)) :
    CutInto opener stack inside taken (t :: own) values := by
  have hparts := h.parts
  constructor
  · rw [List.foldl_cons, hstack]
    exact h.stays
  · rw [cutAtPipes, if_neg hp, hstack, List.modifyHead_modifyHead]
    simpa [Function.comp_def] using hparts

end

theorem State.exists_run_group (ctx : Context) (start : Position) (name : String) (done : List Group)
    (stop : Position) {tokens : List Token} (h : tokens ≠ []) :
    ∃ groupStart, State.run ⟨ctx, .group start name done, stop⟩ tokens =
      (State.onto ⟨.document [], .ready, stop⟩ (.call start name done groupStart [] ctx)).run tokens := by
  cases tokens with
  | nil => exact absurd rfl h
  | cons t rest => exact ⟨t.span.start, rfl⟩

section

variable {start : Position} {name : String} {outer : Context} {opener last : Token} {nodes : List Node}

theorem not_run_onto_call (hlast : last.kind = .endOfInput) (st : State) (done : List Group) (groupStart : Position) :
    (st.onto (.call start name done groupStart [] outer)).run [last] ≠ .ok nodes := by
  intro h
  obtain ⟨-, values, hclose, -⟩ := State.of_run_end hlast h
  have hb := congrArg Context.brackets hclose
  rw [Context.brackets_closeLines] at hb
  simp [State.onto, Context.brackets_onto, Context.brackets] at hb

/-- The rest of a call, where `finished` are the values of its finished groups: its parenthesis comes, and its own
pipes cut what stands before that into the other groups, of which the first goes on behind `taken`. -/
theorem exists_groups (hlast : last.kind = .endOfInput) (stack : List Token) : ∀ {rest : List Token} {st : State}
    {taken inside : List Token} {done : List Group} {finished : List (List Node)} {groupStart : Position},
    (∀ t ∈ rest, t.kind ≠ .endOfInput) → opener ∉ rest → InGroup opener st taken inside → Hold done.reverse finished →
    (st.onto (.call start name done groupStart [] outer)).run (rest ++ [last]) = .ok nodes →
    ∃ own closer behind values groups, rest = own ++ closer :: behind ∧ closer.kind = .closeParen ∧
      CutInto opener stack inside taken own values ∧ Hold groups (grouped (finished ++ values)) ∧
      State.run ⟨outer.push (.call name groups ⟨start, closer.span.stop⟩) false, .ready, closer.span.stop⟩
        (behind ++ [last]) = .ok nodes
  | [], st, _, _, done, _, groupStart, _, _, _, _, h => absurd h (not_run_onto_call hlast st done groupStart)
  | t :: rest, st, taken, inside, done, finished, groupStart, hi, ho, hg, hd, h => by
    -- What has been read of a group grows at its end, while the parts are cut off at the front.
    obtain ⟨ht, hi⟩ := List.forall_mem_cons.1 hi
    obtain ⟨hne, ho⟩ := List.ne_and_not_mem_of_not_mem_cons ho
    rw [List.cons_append, State.run_cons_ok_iff ht] at h
    obtain ⟨next, hs, h⟩ := h
    cases advances_of_step ht hs with
    | @separates held hk hb hm hc =>
      obtain rfl := hg.nil_of_brackets hb
      obtain ⟨nextStart, hrun⟩ := State.exists_run_group outer start name
        (addGroup done held ⟨groupStart, t.span.start⟩) t.span.stop
        (List.append_ne_nil_of_right_ne_nil rest (List.cons_ne_nil last []))
      rw [hrun] at h
      obtain ⟨own, closer, behind, values, groups, rfl, hcloser, hcut, hgroups, hbehind⟩ :=
        exists_groups hlast stack hi ho (.start opener _) (hd.addGroup _ _) h
      rw [List.append_assoc, List.singleton_append] at hgroups
      have hfirst := hg.parse_eq hm hc
      exact ⟨t :: own, closer, behind, _, groups, rfl, hcloser, hcut.separate hk hfirst, hgroups, hbehind⟩
    | closes hk hb hm hc =>
      obtain rfl := hg.nil_of_brackets hb
      exact ⟨[], t, rest, _, _, rfl, hk, .last (hg.parse_eq hm hc), hd.closedGroups _ _, h⟩
    | goesOn hp hstep =>
      obtain ⟨more, hstack, hg'⟩ := hg.step hstep ht hne stack
      obtain ⟨own, closer, behind, values, groups, rfl, hcloser, hcut, hgroups, hbehind⟩ :=
        exists_groups hlast stack hi ho hg' hd h
      have hinner := hg.not_own hp stack
      exact ⟨t :: own, closer, behind, values, groups, rfl, hcloser, hcut.goOn hstack hinner, hgroups, hbehind⟩

end

/-! ## A whole text -/

theorem not_mem_of_scan {text : String} {before after : List Token} {t : Token}
    (hs : Token.scan text = .ok (before ++ t :: after)) (hi : t.kind ≠ .endOfInput) (hn : t.kind ≠ .identifier) :
    t ∉ before ∧ t ∉ after := by
  have hlt := Token.start_lt_stop_of_scan hs (List.mem_append_right before List.mem_cons_self) hi hn
  obtain ⟨-, hafter, hbefore⟩ := List.pairwise_append.1 (Token.pairwise_of_scan hs)
  constructor
  · intro hm
    have hle := hbefore t hm t List.mem_cons_self
    omega
  · intro hm
    have hle := (List.pairwise_cons.1 hafter).1 t hm
    omega

/-- The pipes of a call stand between its name and its parenthesis. -/
theorem ownPipes_eq {before inside behind : List Token} {opener called closer : Token}
    (hbefore : opener ∉ before) (hafter : opener ∉ called :: (inside ++ closer :: behind))
    (ho : opener.kind = .openParen) (hn : called.kind = .identifier) (hc : closer.kind = .closeParen)
    (hopen : inside.foldl openBehind (opener :: openAfter before) = opener :: openAfter before) :
    ownPipes opener [] (before ++ opener :: called :: (inside ++ closer :: behind)) =
      ownPipes opener (opener :: openAfter before) inside := by
  have houter : opener ∉ openAfter before := fun hm => (mem_openAfter hm).elim List.not_mem_nil hbefore
  have hbehind : opener ∉ behind := fun hm => hafter (by simp [hm])
  rw [ownPipes_append, ownPipes_eq_zero List.not_mem_nil hbefore, Nat.zero_add, ← openAfter,
    ownPipes_cons_of_kind (by simp [ho]), openBehind_of_openParen ho, ownPipes_cons_of_kind (by simp [hn]),
    openBehind_of_identifier hn, ownPipes_append, hopen, ownPipes_cons_of_kind (by simp [hc]),
    openBehind_of_closeParen hc, List.tail_cons, ownPipes_eq_zero houter hbehind, Nat.add_zero]

theorem exists_openParen {text : String} {tokens : List Token} {nodes : List Node} {name : String}
    {groups : List Group} {span : Span} (hs : Token.scan text = .ok tokens) (hp : parse tokens = .ok nodes)
    (hc : .call name groups span ∈ preorderAll nodes) :
    ∃ opener ∈ tokens, opener.kind = .openParen ∧ span.start = opener.span.start := by
  have hstart : Node.start (.call name groups span) ∈ startsFrom [] tokens := by
    rw [← startsAll_of_parse hs hp]
    exact List.mem_map_of_mem hc
  obtain ⟨opener, hm, he, before, after, hh⟩ := mem_startsFrom hstart
  refine ⟨opener, hm, ?_, he⟩
  have hcall : isBracket (.call name groups span) = true := rfl
  obtain ⟨construct, ho, hb⟩ := opens?_of_head? hcall hh
  rcases construct with _ | _ | _ | _
  · exact opens?_eq_some_iff.1 ho
  · cases hb
  · have hk : opener.kind = .keyword .defWord := opens?_eq_some_iff.1 ho
    simp [head?, hk, Node.start, head] at hh
  · cases hb

/-- What is read from an opening parenthesis on, in a text that can be read: a call that is closed, and cut at
its pipes. -/
theorem exists_call_of_opener {before after : List Token} {opener last : Token} {nodes : List Node}
    (hlast : last.kind = .endOfInput) (hi : ∀ t ∈ before ++ opener :: after, t.kind ≠ .endOfInput)
    (ho : opener.kind = .openParen) (hnot : opener ∉ after)
    (h : parse (before ++ opener :: after ++ [last]) = .ok nodes) (stack : List Token) :
    ∃ called inside closer behind values groups, after = called :: (inside ++ closer :: behind) ∧
      called.kind = .identifier ∧ closer.kind = .closeParen ∧
      CutInto opener stack [] [] inside values ∧ Hold groups (grouped values) ∧
      .call called.value groups ⟨opener.span.start, closer.span.stop⟩ ∈ preorderAll nodes := by
  obtain ⟨hbefore, hrest⟩ := List.forall_mem_append.1 hi
  obtain ⟨-, hafter⟩ := List.forall_mem_cons.1 hrest
  rw [List.append_assoc, List.cons_append] at h
  have hopens : opener.kind.opens? = some .call := by rw [ho]; rfl
  obtain ⟨outer, hrun⟩ := State.exists_run_behind_opener hbefore hopens h
  cases after with
  | nil => simp [State.run, State.step, hlast] at hrun
  | cons called after =>
    obtain ⟨hcalled, hafter⟩ := List.forall_mem_cons.1 hafter
    have hk : called.kind = .identifier := by
      by_contra hk
      simp [State.run, State.step, hk] at hrun
    simp only [List.cons_append, State.run, State.step, hk, if_true, reduceCtorEq, if_false, stepName] at hrun
    obtain ⟨groupStart, hgroup⟩ := State.exists_run_group outer opener.span.start called.value [] called.span.stop
      (List.append_ne_nil_of_right_ne_nil after (List.cons_ne_nil last []))
    rw [hgroup] at hrun
    have hnone : Hold [].reverse [] := ⟨rfl, rfl⟩
    obtain ⟨inside, closer, behind, values, groups, rfl, hcloser, hcut, hgroups, hbehind⟩ :=
      exists_groups hlast stack hafter (fun hm => hnot (List.mem_cons_of_mem _ hm)) (.start opener _) hnone hrun
    refine ⟨called, inside, closer, behind, values, groups, rfl, hk, hcloser, hcut, hgroups, ?_⟩
    -- Behind its parenthesis the call is held, and what is held is in the tree.
    exact State.Holds.mem_of_run rfl (.inl (Context.holds_push.2 (.inl (mem_preorder_self _)))) hbehind

theorem Hold.eq_nil_of_flatten {groups : List Group} {values : List (List Node)} (h : Hold groups (grouped values))
    (hl : values.length = 1) (hv : values.flatten = []) : groups = [] := by
  obtain ⟨only, rfl⟩ := List.length_eq_one_iff.1 hl
  obtain rfl : only = [] := by simpa using hv
  exact List.map_eq_nil_iff.1 h.values

theorem Hold.of_grouped {groups : List Group} {values : List (List Node)} (h : Hold groups (grouped values))
    (hv : ¬(values.length = 1 ∧ values.flatten = [])) : Hold groups values := by
  unfold grouped at h
  split at h
  next => exact absurd ⟨rfl, rfl⟩ hv
  next => exact h

/-- The groups of a call, in every text that can be read: between its name and its parenthesis the call is cut at
its own pipes, those for which its bracket is the innermost one open. It has no group if it has no such pipe and
holds no value, and otherwise one more than pipes: each holds the values that its part makes, read alone. -/
theorem groups_of_call {text : String} {tokens : List Token} {nodes : List Node} {name : String}
    {groups : List Group} {span : Span} (hs : Token.scan text = .ok tokens) (hp : parse tokens = .ok nodes)
    (hc : .call name groups span ∈ preorderAll nodes) :
    ∃ before opener called inside closer behind values,
      tokens = before ++ opener :: called :: (inside ++ closer :: behind) ∧ opener.kind = .openParen ∧
      called.kind = .identifier ∧ called.value = name ∧ closer.kind = .closeParen ∧
      span = ⟨opener.span.start, closer.span.stop⟩ ∧
      openAfter (before ++ opener :: called :: inside) = opener :: openAfter before ∧
      List.Forall₂ (parse · = .ok ·) (cutAtPipes opener (opener :: openAfter before) inside) values ∧
      (ownPipes opener [] tokens = 0 ∧ values.flatten = [] → groups = []) ∧
      (¬(ownPipes opener [] tokens = 0 ∧ values.flatten = []) →
        groups.length = ownPipes opener [] tokens + 1 ∧ groups.map (·.values) = values ∧
        groups.map (·.index) = List.range groups.length) := by
  obtain ⟨opener, hmem, ho, hstart⟩ := exists_openParen hs hp hc
  obtain ⟨others, last, rfl, hlast, -, -, hothers⟩ := Token.exists_last_of_scan hs
  have hmem : opener ∈ others := by
    rcases List.mem_append.1 hmem with hm | hm
    · exact hm
    · rw [List.mem_singleton.1 hm, hlast] at ho
      cases ho
  obtain ⟨before, after, rfl⟩ := List.append_of_mem hmem
  have hscan : Token.scan text = .ok (before ++ opener :: (after ++ [last])) := by simpa using hs
  obtain ⟨hbefore, hafter⟩ := not_mem_of_scan hscan (by simp [ho]) (by simp [ho])
  obtain ⟨called, inside, closer, behind, values, made, rfl, hn, hk, hcut, hgroups, hmade⟩ :=
    exists_call_of_opener hlast hothers ho (fun hm => hafter (List.mem_append_left _ hm)) hp (openAfter before)
  cases eq_of_start_eq hs hp hc hmade hstart
  have htokens : before ++ opener :: called :: (inside ++ closer :: behind) ++ [last] =
      before ++ opener :: called :: (inside ++ closer :: (behind ++ [last])) := by simp
  rw [htokens]
  have hafter : opener ∉ called :: (inside ++ closer :: (behind ++ [last])) := by simpa using hafter
  have hpipes := ownPipes_eq hbefore hafter ho hn hk hcut.stays
  have hlength : values.length = ownPipes opener (opener :: openAfter before) inside + 1 := by
    rw [← length_cutAtPipes, hcut.parts_of_nil.length_eq]
  refine ⟨before, opener, called, inside, closer, behind ++ [last], values, rfl, ho, hn, rfl, hk, rfl, ?_,
    hcut.parts_of_nil, ?_, ?_⟩
  · rw [openAfter, List.foldl_append, ← openAfter, List.foldl_cons, List.foldl_cons, openBehind_of_openParen ho,
      openBehind_of_identifier hn]
    exact hcut.stays
  · rintro ⟨hnone, hv⟩
    exact hgroups.eq_nil_of_flatten (by omega) hv
  · intro hsome
    have hhold := hgroups.of_grouped fun ⟨hone, hv⟩ => hsome ⟨by omega, hv⟩
    refine ⟨?_, hhold.values, hhold.numbers⟩
    rw [hpipes, ← hlength, ← hhold.values, List.length_map]

/-- The value of `x` ends at the pipe of the outer call, and the other pipe is that of the call behind it: so the
outer call has one pipe of its own, and two groups. -/
theorem groups_of_call_with_value : ∃ tokens nodes groups, Token.scan "(f #let x a|(g |))" = .ok tokens ∧
    parse tokens = .ok nodes ∧ .call "f" groups ⟨⟨1, 1, 0⟩, ⟨1, 19, 18⟩⟩ ∈ preorderAll nodes ∧
    groups.length = 2 ∧ ∃ opener ∈ tokens, opener.span.start = ⟨1, 1, 0⟩ ∧ ownPipes opener [] tokens = 1 := by
  have hs : Token.scan "(f #let x a|(g |))" = .ok
      [⟨.openParen, "(", "(", ⟨⟨1, 1, 0⟩, ⟨1, 2, 1⟩⟩⟩, ⟨.identifier, "f", "f", ⟨⟨1, 2, 1⟩, ⟨1, 3, 2⟩⟩⟩,
        ⟨.keyword .letWord, "let", "#let", ⟨⟨1, 4, 3⟩, ⟨1, 8, 7⟩⟩⟩,
        ⟨.identifier, "x", "x", ⟨⟨1, 9, 8⟩, ⟨1, 10, 9⟩⟩⟩, ⟨.text, "a", "a", ⟨⟨1, 11, 10⟩, ⟨1, 12, 11⟩⟩⟩,
        ⟨.pipe, "|", "|", ⟨⟨1, 12, 11⟩, ⟨1, 13, 12⟩⟩⟩, ⟨.openParen, "(", "(", ⟨⟨1, 13, 12⟩, ⟨1, 14, 13⟩⟩⟩,
        ⟨.identifier, "g", "g", ⟨⟨1, 14, 13⟩, ⟨1, 15, 14⟩⟩⟩, ⟨.pipe, "|", "|", ⟨⟨1, 16, 15⟩, ⟨1, 17, 16⟩⟩⟩,
        ⟨.closeParen, ")", ")", ⟨⟨1, 17, 16⟩, ⟨1, 18, 17⟩⟩⟩, ⟨.closeParen, ")", ")", ⟨⟨1, 18, 17⟩, ⟨1, 19, 18⟩⟩⟩,
        ⟨.endOfInput, "", "", ⟨⟨1, 19, 18⟩, ⟨1, 19, 18⟩⟩⟩] := by cbv
  obtain ⟨before, opener, called, inside, closer, behind, values, htokens, -, -, -, -, hspan, -, -, hnone, hsome⟩ :=
    groups_of_call hs rfl List.mem_cons_self
  refine ⟨_, _, _, hs, rfl, List.mem_cons_self, rfl, opener, ?_, ?_, ?_⟩
  · rw [htokens]
    exact List.mem_append_right _ List.mem_cons_self
  · exact (congrArg Span.start hspan).symm
  · obtain ⟨hlength, -, -⟩ := hsome fun h => absurd (hnone h) (List.cons_ne_nil _ _)
    exact (Nat.succ.inj hlength).symm

end Markup.Node
