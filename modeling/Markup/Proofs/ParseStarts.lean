/-
Reading loses nothing of the text and says nothing twice: the tree has exactly
the nodes that its tokens start, in the order of the tokens.

This is proved along the run: what a state holds and the tokens to come start
make up the whole tree, before every token (`State.starts_step`,
`State.startsAll_of_run`). A state holds the value being read as it will be
cut, so what it has started depends on the tokens to come: whether they end
the value before they add to it, and which name and parameters they give.
-/
import Markup.Proofs.Tiling
import Markup.Proofs.TokenHistory

namespace Markup.Node

/-! ## What a state has started -/

/-- What the constructs being read have started; `ends` if the value being read ends here. -/
def Context.starts (ends : Bool) : Context → List Start
  | .document values => startsAll values.reverse
  | .call start name groups _ values outer =>
    outer.starts false ++ ⟨start, .call name⟩ :: (groupStarts groups.reverse ++ startsAll values.reverse)
  | .define start name params values outer =>
    outer.starts false ++ ⟨start, .define name params⟩ :: startsAll values.reverse
  | .line start name changes pieces outer =>
    outer.starts false ++
      ⟨start, .bind name changes⟩ :: startsAll ((settled ends pieces.reverse).map (·.node))

/-- What a construct is whose name comes next. -/
def Named.head (after : List Token) : Named → Head
  | .call => .call (nameBehind after)
  | .use =>
    let moduleName := Text.strip (nameBehind after)
    .use moduleName (BuiltIn.moduleNames.contains moduleName)
  | .define => .define (nameBehind after) (paramsIn after.tail)
  | .bind changes => .bind (nameBehind after) changes

/-- What a state has started, given the tokens to come. -/
def State.starts (st : State) (after : List Token) : List Start :=
  match st.mode with
  | .ready => st.context.starts (endsValue st.context.frames after)
  | .name construct start => st.context.starts false ++ [⟨start, construct.head after⟩]
  | .blank _ => st.context.starts false
  | .params start name params =>
    st.context.starts false ++ [⟨start, .define name (params.reverse ++ paramsIn after)⟩]
  | .group start name groups =>
    st.context.starts false ++ ⟨start, .call name⟩ :: groupStarts groups.reverse

theorem Context.starts_of_not_isLine {ctx : Context} (h : ctx.isLine = false) (ends other : Bool) :
    ctx.starts ends = ctx.starts other := by
  cases ctx with
  | line => cases h
  | document | call | define => rfl

theorem Context.starts_push (ctx : Context) (node : Node) (ends : Bool) :
    (ctx.push node false).starts ends = ctx.starts false ++ startsAll [node] := by
  cases ctx with
  | line start name changes pieces outer =>
    simp only [push, starts, List.reverse_cons, settled_concat_node, List.map_append, startsAll_append,
      List.append_assoc, List.cons_append]
    rfl
  | document | call | define => simp [push, starts]

theorem Context.starts_closeLine {ctx : Context} (h : ctx.isLine = true) (stop : Position) (ends : Bool) :
    (ctx.closeLine stop).starts ends = ctx.starts true := by
  cases ctx with
  | line start name changes pieces outer => simp [closeLine, starts_push, starts, bound, settled]
  | document | call | define => cases h

theorem Context.starts_closeLinesWith (stop : Position) (ends : Bool) : ∀ (ctx : Context) (node : Node),
    (closeLinesWith stop ctx (some node)).starts ends = ctx.starts false ++ startsAll [node]
  | .line start name changes pieces outer, node => by
    simp only [closeLinesWith, Option.map_some, Option.toList_some, List.singleton_append]
    rw [starts_closeLinesWith stop ends outer, bound, startsAll_bind]
    simp [starts, trimLine_concat_node, settled]
  | .document _, node => starts_push _ node ends
  | .call _ _ _ _ _ _, node => starts_push _ node ends
  | .define _ _ _ _ _, node => starts_push _ node ends

/-- Ending values starts nothing and loses only the blanks at their ends. -/
theorem Context.starts_closeLines (stop : Position) (ctx : Context) (ends : Bool) :
    (ctx.closeLines stop).starts ends = ctx.starts true := by
  cases ctx with
  | line start name changes pieces outer =>
    simp only [closeLines, closeLinesWith, Option.map_none, Option.toList_none, List.nil_append]
    rw [starts_closeLinesWith, bound, startsAll_bind, starts, settled]
    rfl
  | document | call | define => rfl

/-! ## One token -/

theorem endsValue_cons_blank {t : Token} (h : isBlankText t = true) (frames : List Frame) (after : List Token) :
    endsValue frames (t :: after) = endsValue frames after := by
  rw [endsValue, endsValue, List.dropWhile_cons, if_pos h]

theorem endsValue_cons {t : Token} (h : isBlankText t = false) (frames : List Frame) (after : List Token) :
    endsValue frames (t :: after) = endsValueIn frames t := by
  rw [endsValue, List.dropWhile_cons, if_neg (by simp [h])]

theorem head?_of_opens {t : Token} {construct : Named} (h : t.kind.opens? = some construct)
    (before after : List Token) : head? before t after = some (construct.head after) := by
  have hk := opens?_eq_some_iff.1 h
  rcases construct with _ | _ | _ | ⟨_ | _⟩ <;> simp [head?, hk, Named.opener, Named.head]

theorem startsAll_leaf {t : Token} {node : Node} {trimmable : Bool} (h : leaf? t = some (node, trimmable)) :
    startsAll [node] = [⟨t.span.start, node.head⟩] := by
  obtain ⟨kind, value, raw, span⟩ := t
  cases kind with
  | keyword | identifier | comment | openParen | closeParen | endOfInput => cases h
  | _ => cases h; rw [startsAll, preorderAll_singleton]; rfl

theorem head?_of_leaf {t : Token} {node : Node} {before : List Token} (h : leaf? t = some (node, false))
    (hp : t.kind = .pipe → bracketOf (openFrames before) ≠ some .call)
    (ha : t.kind = .argument → inParams before = false) (after : List Token) :
    head? before t after = some node.head := by
  obtain ⟨kind, value, raw, span⟩ := t
  cases kind with
  | keyword | identifier | comment | openParen | closeParen | endOfInput | text => cases h
  | argument => cases h; simp [head?, ha rfl, Node.head]
  | pipe => cases h; simp [head?, hp rfl, Node.head]
  | reference | number | escape | hash | slash => cases h; rfl

theorem endsValueIn_of_leaf {t : Token} {node : Node} {trimmable : Bool} {frames : List Frame}
    (h : leaf? t = some (node, trimmable)) (he : endsLine t = false)
    (hp : t.kind = .pipe → bracketOf frames ≠ some .call) : endsValueIn frames t = false := by
  obtain ⟨kind, value, raw, span⟩ := t
  cases kind with
  | keyword | identifier | comment | openParen | closeParen | endOfInput => cases h
  | pipe => simpa [endsValueIn] using hp rfl
  | text | reference | number | escape | hash | slash | argument => exact he

/-- Plain text in a value starts what the rule says: a node cut as it stays in the value, or none. -/
theorem starts_text {t : Token} {before after : List Token} {start : Position} {name : String}
    {changes : Bool} {pieces : List Piece} {outer : Context} (hk : t.kind = .text) (he : endsLine t = false)
    (hframes : openFrames before = (Context.line start name changes pieces outer).frames)
    (hf : beginsValue before = (trimEdge Text.stripStart pieces.reverse).isEmpty) :
    (Context.line start name changes (⟨.text t.value t.span, true⟩ :: pieces) outer).starts
        (endsValue (openFrames before) after) =
      (Context.line start name changes pieces outer).starts (endsValue (openFrames before) (t :: after)) ++
        ((head? before t after).map (Start.mk t.span.start)).toList := by
  have hhead : head? before t after = if Text.isAllBlank t.value &&
      (beginsValue before || endsValue (openFrames before) after) then none
      else some (.text (cutText (beginsValue before) (endsValue (openFrames before) after) t.value)) := by
    simp [head?, hk, textHead?, hframes, Context.frames, he]
  rw [hhead]
  simp only [Context.starts, List.reverse_cons]
  cases hb : Text.isAllBlank t.value with
  | true =>
    rw [settled_concat_blank _ _ hb, endsValue_cons_blank (by simp [isBlankText, hk, hb, he]), ← hf]
    cases hfe : beginsValue before || endsValue (openFrames before) after with
    | true => simp
    | false =>
      have hcut : cutText (beginsValue before) (endsValue (openFrames before) after) t.value = t.value := by
        simp only [Bool.or_eq_false_iff] at hfe
        simp [cutText, hfe]
      simp [hcut]
  | false =>
    have hends : endsValueIn (openFrames before) t = false := by simp [endsValueIn, hk, he]
    rw [settled_concat_text _ _ hb, endsValue_cons (by simp [isBlankText, hb]), hends, ← hf]
    simp

theorem starts_leaf {ctx : Context} {t : Token} {node : Node} {trimmable : Bool} {before : List Token}
    (hn : leaf? t = some (node, trimmable)) (hl : ctx.isLine = true → endsLine t = false)
    (hp : t.kind = .pipe → ctx.inCall = false) (hframes : openFrames before = ctx.frames)
    (hf : ctx.FrontIs before) (ha : t.kind = .argument → inParams before = false) (after : List Token) :
    (ctx.push node trimmable).starts (endsValue ctx.frames after) =
      ctx.starts (endsValue ctx.frames (t :: after)) ++
        ((head? before t after).map (Start.mk t.span.start)).toList := by
  obtain ⟨-, -, htext, hother⟩ := leaf?_kind hn
  have hbracket : t.kind = .pipe → bracketOf ctx.frames ≠ some .call := by
    intro hk hc
    rw [← Context.inCall_iff_bracketOf, hp hk] at hc
    cases hc
  cases trimmable with
  | false =>
    have hc : t.kind ≠ .comment := by
      intro hk
      simp [leaf?, hk] at hn
    have he := endsLine_of_kind hc (hother rfl)
    rw [Context.starts_push, head?_of_leaf hn (by rwa [hframes]) ha, startsAll_leaf hn,
      endsValue_cons (isBlankText_of_kind (hother rfl)), endsValueIn_of_leaf hn he hbracket]
    rfl
  | true =>
    obtain ⟨hk, rfl⟩ := htext rfl
    cases hx : ctx.isLine with
    | true =>
      cases ctx with
      | document | call | define => cases hx
      | line start name changes pieces outer =>
        rw [← hframes]
        exact starts_text hk (hl hx) hframes hf
    | false =>
      have hhead : head? before t after = some (.text t.value) := by
        have hnot : ctx.frames.head? ≠ some .line := by
          have h := ctx.head?_frames
          rw [hx] at h
          simpa using h
        simp [head?, hk, textHead?, hframes, hnot]
      rw [Context.push_of_not_isLine hx, Context.starts_push, hhead, startsAll_text]
      exact congrArg (· ++ _) (Context.starts_of_not_isLine hx _ _)

theorem head?_of_endsLine {t : Token} {before : List Token} (h : endsLine t = true)
    (hl : (openFrames before).head? = some .line) (after : List Token) : head? before t after = none := by
  rcases kind_of_endsLine h with hk | hk <;> simp [head?, hk, textHead?, hl, h]

theorem endsValue_of_opens {t : Token} {construct : Named} (h : t.kind.opens? = some construct)
    (frames : List Frame) (after : List Token) : endsValue frames (t :: after) = false := by
  have hk := opens?_eq_some_iff.1 h
  rcases construct with _ | _ | _ | ⟨_ | _⟩ <;>
    simp [endsValue_cons, isBlankText, endsValueIn, endsLine, hk, Named.opener]

/-- Where a token ends all values, the state has started what the call, the definition or the
document around them has. -/
theorem Context.starts_at_end {ctx closed : Context} {stop : Position} {t : Token}
    (he : ctx.closeLines stop = closed) (hk : t.kind ≠ .text) (hends : endsValueIn ctx.frames t = true)
    (after : List Token) : ctx.starts (endsValue ctx.frames (t :: after)) = closed.starts true := by
  rw [endsValue_cons (isBlankText_of_kind hk), hends, ← starts_closeLines stop ctx true, he]

theorem groupStarts_closedGroups (groups : List Group) (values : List Node) (span : Span) :
    groupStarts (closedGroups groups values span).reverse =
      groupStarts groups.reverse ++ startsAll values.reverse := by
  unfold closedGroups
  split
  next hnone =>
    simp only [Bool.and_eq_true, List.isEmpty_iff] at hnone
    simp [hnone]
  next => simp [addGroup]

/-- A token that goes on with a construct starts what the rule says. -/
theorem Takes.starts_eq {ctx : Context} {lastStop : Position} {t : Token} {next : State} {before : List Token}
    (h : Takes ctx lastStop t next) (hframes : openFrames before = ctx.frames)
    (hf : ctx.FrontIs before) (ha : t.kind = .argument → inParams before = false) (after : List Token) :
    next.starts after = ctx.starts (endsValue ctx.frames (t :: after)) ++
      ((head? before t after).map (Start.mk t.span.start)).toList := by
  cases h with
  | opens construct ho =>
    rw [head?_of_opens ho, endsValue_of_opens ho]
    rfl
  | leaf node trimmable hn hl hp =>
    simp only [State.starts, Context.frames_push]
    exact starts_leaf hn hl hp hframes hf ha after
  | skips hk hl => simp [State.starts, head?, hk, Context.starts_of_not_isLine hl _ false]
  | endsLine hl he =>
    have hline : (openFrames before).head? = some .line := by
      rw [hframes]
      simpa [hl] using ctx.head?_frames
    have hends : endsValueIn ctx.frames t = true := by
      rcases kind_of_endsLine he with hk | hk <;> simp [endsValueIn, hk, he]
    rw [head?_of_endsLine he hline, endsValue_cons (by simp [isBlankText, he]), hends]
    simp [State.starts, Context.starts_closeLine hl]
  | separates hk he =>
    have hcall : bracketOf ctx.frames = some .call := by
      rw [bracketOf, ← Context.frames_closeLines lastStop ctx, he]
      rfl
    rw [Context.starts_at_end he (by simp [hk]) (by simp [endsValueIn, hk, hcall])]
    simp [State.starts, head?, hk, hframes, hcall, Context.starts, addGroup]
  | closesCall hk he =>
    rw [Context.starts_at_end he (by simp [hk]) (by simp [endsValueIn, hk])]
    simp [State.starts, head?, hk, Context.starts_push, Context.starts, groupStarts_closedGroups]
  | closesDefinition hk he =>
    rw [Context.starts_at_end he (by simp [hk]) (by simp [endsValueIn, hk])]
    simp [State.starts, head?, hk, Context.starts_push, Context.starts]
  | ends hk he =>
    rw [Context.starts_at_end he (by simp [hk]) (by simp [endsValueIn, hk])]
    simp [State.starts, head?, hk, Context.starts]

theorem State.Meets.starts_eq {st : State} {t : Token} {ctx : Context} (h : st.Meets t ctx)
    (after : List Token) : st.starts (t :: after) = ctx.starts (endsValue ctx.frames (t :: after)) := by
  cases h with
  | ready hm => simp [State.starts, hm]
  | group hm => simp [State.starts, hm, Context.starts]
  | body hm hk =>
    have ha : isArgument t = false := by
      rcases hk with hk | hk | hk | hk <;> simp [isArgument, hk]
    simp [State.starts, hm, Context.starts, paramsIn, ha]

/-- A name starts nothing; it is part of what began before it. -/
theorem Begins.starts_eq {ctx : Context} {construct : Named} {start : Position} {t : Token} {next : State}
    (h : Begins ctx start t construct next) (hb : ∀ c, next.mode ≠ .blank c) (after : List Token) :
    next.starts after = ctx.starts false ++ [⟨start, construct.head (t :: after)⟩] := by
  cases h with
  | blank construct => exact absurd rfl (hb construct)
  | call | define => simp [State.starts, Named.head, nameBehind]
  | use => simp [State.starts, Context.starts_push, Named.head, nameBehind]
  | bind changes =>
    have hsettled : ∀ ends, settled ends [] = [] := by
      intro ends
      cases ends <;> rfl
    simp [State.starts, Context.starts, Named.head, nameBehind, hsettled]

/-- A token adds to what a state has started what the rule says it starts. -/
theorem State.starts_step {st next : State} {t : Token} {before : List Token} (h : st.Tracks before)
    (hs : st.step t = .ok next) (hb : ∀ c, next.mode ≠ .blank c) (after : List Token) :
    next.starts after = st.starts (t :: after) ++
      ((head? before t after).map (Start.mk t.span.start)).toList := by
  rcases State.step_cases hs with ⟨ctx, hm, ht⟩ | ⟨construct, start, hm, hk, hn⟩ |
    ⟨start, name, params, hm, hk, _, rfl⟩
  · rw [hm.starts_eq]
    refine ht.starts_eq ?_ (hm.frontIs h) ?_ after
    · rw [← h.frames, hm.frames_eq]
    · intro ha
      have hp := h.params_takes hm ht
      rwa [inParams_cons_argument ha] at hp
  · rw [hn.starts_eq hb]
    simp [State.starts, hm, head?, hk]
  · have hp : inParams before = true := h.params.2 ⟨_, _, _, hm⟩
    simp [State.starts, hm, head?, hk, hp, paramsIn, isArgument]

/-! ## All tokens -/

theorem State.run_blank {st : State} {construct : Named} (h : st.mode = .blank construct)
    (tokens : List Token) (nodes : List Node) : st.run tokens ≠ .ok nodes := by
  cases tokens <;> simp [State.run, State.step, h, Except.map]

/-- The tree is what a state has started, and what the tokens to come start. -/
theorem State.startsAll_of_run {last : Token} (hlast : last.kind = .endOfInput) {nodes : List Node} :
    ∀ {rest before : List Token} {st : State}, (∀ t ∈ rest, t.kind ≠ .endOfInput) → st.Tracks before →
      st.run (rest ++ [last]) = .ok nodes →
      startsAll nodes = st.starts (rest ++ [last]) ++ startsFrom before (rest ++ [last])
  | [], before, st, _, ht, h => by
    obtain ⟨values, hs, rfl⟩ := State.exists_step_of_run_end hlast h
    have hstep := State.starts_step ht hs (by simp) []
    rw [List.nil_append, startsFrom, startsFrom, List.append_nil, ← hstep]
    rfl
  | t :: rest, before, st, hr, ht, h => by
    obtain ⟨hi, hr⟩ := List.forall_mem_cons.1 hr
    obtain ⟨next, hs, h⟩ := (State.run_cons_ok_iff hi).1 h
    have hb : ∀ c, next.mode ≠ .blank c := fun c hm => State.run_blank hm _ _ h
    rw [startsAll_of_run hlast hr (ht.step hs hi hb) h, State.starts_step ht hs hb, List.cons_append, startsFrom,
      List.append_assoc]

/-! ## The order of the nodes -/

theorem kind_of_head? {before after : List Token} {t : Token} {head : Head}
    (h : head? before t after = some head) : t.kind ≠ .identifier ∧ t.kind ≠ .endOfInput := by
  constructor <;> intro hk <;> simp [head?, hk] at h

/-- What is started is started by a token, in front of the tokens behind it. -/
theorem exists_suffix_of_mem_startsFrom {start : Start} : ∀ {tokens before : List Token},
    start ∈ startsFrom before tokens →
    ∃ earlier t after, t :: after <:+ tokens ∧ start.position = t.span.start ∧ head? earlier t after = some start.head
  | t :: after, before, h => by
    rcases List.mem_append.1 h with h | h
    · simp only [Option.mem_toList, Option.map_eq_some_iff] at h
      obtain ⟨head, hh, rfl⟩ := h
      exact ⟨before, t, after, List.suffix_rfl, rfl, hh⟩
    · obtain ⟨earlier, u, more, hu, hs, hh⟩ := exists_suffix_of_mem_startsFrom h
      exact ⟨earlier, u, more, hu.trans (List.suffix_cons t after), hs, hh⟩

theorem mem_startsFrom {start : Start} {tokens before : List Token} (h : start ∈ startsFrom before tokens) :
    ∃ t ∈ tokens, start.position = t.span.start ∧ ∃ earlier after, head? earlier t after = some start.head := by
  obtain ⟨earlier, t, after, hs, hp, hh⟩ := exists_suffix_of_mem_startsFrom h
  exact ⟨t, hs.subset List.mem_cons_self, hp, earlier, after, hh⟩

/-- Tokens in order, each of which holds something if it starts a node, start nodes in order. -/
theorem pairwise_startsFrom : ∀ (before : List Token) {tokens : List Token},
    tokens.Pairwise (fun t u => t.span.stop.offset ≤ u.span.start.offset) →
    (∀ t ∈ tokens, t.kind ≠ .endOfInput → t.kind ≠ .identifier → t.span.start.offset < t.span.stop.offset) →
    (startsFrom before tokens).Pairwise (fun s r => s.position.offset < r.position.offset)
  | _, [], _, _ => .nil
  | before, t :: after, ho, hs => by
    obtain ⟨hfirst, ho⟩ := List.pairwise_cons.1 ho
    obtain ⟨ht, hs⟩ := List.forall_mem_cons.1 hs
    have ih := pairwise_startsFrom (t :: before) ho hs
    rw [startsFrom]
    cases hh : head? before t after with
    | none => exact ih
    | some head =>
      obtain ⟨hn, hi⟩ := kind_of_head? hh
      refine List.pairwise_cons.2 ⟨?_, ih⟩
      intro start hm
      obtain ⟨u, hu, he, -⟩ := mem_startsFrom hm
      have hlt := ht hi hn
      have hle := hfirst u hu
      simp only [he]
      omega

/-! ## A whole text -/

section

variable {text : String} {tokens : List Token} {nodes : List Node} (hs : Token.scan text = .ok tokens)
  (hp : parse tokens = .ok nodes)
include hs hp

/-- The nodes of the tree are those that the tokens start. -/
theorem startsAll_of_parse : startsAll nodes = startsFrom [] tokens := by
  obtain ⟨others, last, rfl, hlast, -, -, hothers⟩ := Token.exists_last_of_scan hs
  have hrun := State.startsAll_of_run hlast hothers State.tracks_start hp
  have hnone : State.start.starts (others ++ [last]) = [] := startsAll_nil
  rwa [hnone, List.nil_append] at hrun

theorem pairwise_offset_of_parse :
    (preorderAll nodes).Pairwise (fun n m => n.span.start.offset < m.span.start.offset) := by
  have hpair := pairwise_startsFrom [] (Token.pairwise_of_scan hs) fun t => Token.start_lt_stop_of_scan hs
  rwa [← startsAll_of_parse hs hp, startsAll, List.pairwise_map] at hpair

/-- Lines count from 1, so no node stands where what is not read from a text stands. -/
theorem one_le_line_of_parse {node : Node} (hn : node ∈ preorderAll nodes) : 1 ≤ node.span.start.line := by
  have hm : node.start ∈ startsFrom [] tokens := startsAll_of_parse hs hp ▸ List.mem_map_of_mem hn
  obtain ⟨t, ht, he, -⟩ := mem_startsFrom hm
  have hstart : node.span.start = t.span.start := he
  obtain ⟨pieces, -, rfl⟩ := Token.scan_ok_iff.1 hs
  obtain ⟨before, part, after, -, -, hspan⟩ := Token.exists_parts_of_mem ht
  rw [hstart, hspan]
  exact Position.line_le_line_advance .first before

end

/-- Reading a text loses nothing and says nothing twice: each token starts the node that the rule
says, or none if the rule says none, the tree has no other nodes, and it lists them in the order of
the text. A pipe that starts a node is text. -/
theorem parse_starts {text : String} {tokens : List Token} {nodes : List Node}
    (hs : Token.scan text = .ok tokens) (hp : parse tokens = .ok nodes) :
    (preorderAll nodes).map start = startsFrom [] tokens ∧
      (preorderAll nodes).Pairwise (fun n m => n.span.start.offset < m.span.start.offset) ∧
      ∀ t ∈ tokens, t.kind = .pipe → t.value = "|" :=
  ⟨startsAll_of_parse hs hp, pairwise_offset_of_parse hs hp, fun _ => Token.pipe_value_of_scan hs⟩

/-- The value of `x` is a call with a pipe, and text whose last blank is cut off before a comment. -/
theorem starts_call_in_value : ∃ tokens nodes, Token.scan "#let x (f |) b #!" = .ok tokens ∧
    parse tokens = .ok nodes ∧ (preorderAll nodes).map start = startsFrom [] tokens ∧
    startsFrom [] tokens =
      [⟨⟨1, 1, 0⟩, .bind "x" false⟩, ⟨⟨1, 8, 7⟩, .call "f"⟩, ⟨⟨1, 13, 12⟩, .text " b"⟩] := by
  have hs : Token.scan "#let x (f |) b #!" = .ok
      [⟨.keyword .letWord, "let", "#let", ⟨⟨1, 1, 0⟩, ⟨1, 5, 4⟩⟩⟩,
        ⟨.identifier, "x", "x", ⟨⟨1, 6, 5⟩, ⟨1, 7, 6⟩⟩⟩, ⟨.openParen, "(", "(", ⟨⟨1, 8, 7⟩, ⟨1, 9, 8⟩⟩⟩,
        ⟨.identifier, "f", "f", ⟨⟨1, 9, 8⟩, ⟨1, 10, 9⟩⟩⟩, ⟨.pipe, "|", "|", ⟨⟨1, 11, 10⟩, ⟨1, 12, 11⟩⟩⟩,
        ⟨.closeParen, ")", ")", ⟨⟨1, 12, 11⟩, ⟨1, 13, 12⟩⟩⟩,
        ⟨.text, " b ", " b ", ⟨⟨1, 13, 12⟩, ⟨1, 16, 15⟩⟩⟩, ⟨.comment, "", "#!", ⟨⟨1, 16, 15⟩, ⟨1, 18, 17⟩⟩⟩,
        ⟨.endOfInput, "", "", ⟨⟨1, 18, 17⟩, ⟨1, 18, 17⟩⟩⟩] := by cbv
  exact ⟨_, _, hs, rfl, (parse_starts hs rfl).1, by decide +kernel⟩

end Markup.Node
