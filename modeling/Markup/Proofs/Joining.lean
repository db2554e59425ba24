/-
A text that goes on behind a call.

What stands behind the closing parenthesis of a text's last call is read as a
text of its own: the parenthesis is a lexeme whatever follows it
(`exists_reads_of_last_call`), the document that is being read holds the nodes
before it and nothing is open (`exists_steps_of_last_call`). So reading can be taken
up there (`exists_resumption`), and that is reading from the start, shifted: the two
texts together have the nodes of the first and, shifted, those of the second, or what
is missing in the second is missing there (`ofText_append`).
-/
import Markup.Document.Import
import Markup.Proofs.Locality
import Markup.Proofs.ScanErrors

namespace Markup

/-! ## Moved failures -/

/-- An error of reading tokens in another place. -/
def ScanError.moved (f : Position → Position) (e : ScanError) : ScanError := { e with position := f e.position }

theorem Position.shift_ofPosition (base p : Position) :
    Span.ofPosition (shift base p) = (Span.ofPosition p).moved (shift base) := by
  simp only [Span.ofPosition, Span.moved, shift, Span.mk.injEq, Position.mk.injEq, true_and]
  refine ⟨⟨rfl, trivial⟩, ?_, by omega⟩
  by_cases h : p.line = 1
  · simp only [h, if_true]
    omega
  · simp [h]

namespace Node

/-- Why a text has no tree, in another place. -/
def TextError.moved (f : Position → Position) : TextError → TextError
  | .tokens e => .tokens (e.moved f)
  | .tree e => .tree (e.moved f)

theorem TextError.message_moved (f : Position → Position) (e : TextError) : (e.moved f).message = e.message := by
  cases e <;> rfl

theorem TextError.span_moved (base : Position) (e : TextError) :
    (e.moved (Position.shift base)).span = e.span.moved (Position.shift base) := by
  cases e with
  | tokens e => exact Position.shift_ofPosition base e.position
  | tree e => rfl

end Node

namespace Token

/-- What reading tokens gives, with all places moved. -/
def scanMoved (f : Position → Position) : Except ScanError (List Token) → Except ScanError (List Token)
  | .error e => .error (e.moved f)
  | .ok tokens => .ok (tokens.map (Token.moved f))

/-- A text that begins in another place has the same tokens there, or fails there. -/
theorem scanFrom_moved {f : Position → Position} {p q : Position} (h : ∀ cs, f (p.advance cs) = q.advance cs)
    (cs : List Char) : scanFrom ⟨cs, q⟩ = scanMoved f (scanFrom ⟨cs, p⟩) := by
  cases hs : scanFrom ⟨cs, p⟩ with
  | ok tokens =>
    obtain ⟨pieces, hr⟩ := reads_of_scanFrom _ hs
    rw [hr.scanFrom_eq rfl] at hs ⊢
    cases hs
    simp [scanMoved, map_moved_place pieces h, endAt, upTo, Token.moved, Span.moved, h]
  | error e =>
    obtain ⟨pieces, rest, cause, before, hr, hj⟩ := reads_of_scanFrom_error _ hs
    rw [hr.scanFrom_error hj] at hs ⊢
    cases hs
    simp only [scanMoved, ScanError.moved, ← Position.advance_append, h]

theorem Lexes.eq_of_closeParen {cs rest : List Char} {own : List Piece} (h : Lexes cs own rest) {p : Position}
    {t : Token} (ht : place p own = [t]) (hk : t.kind = .closeParen) :
    cs = ')' :: rest ∧ own = [.token .closeParen [')'] [')']] := by
  have hkinds : Piece.kinds own = [.closeParen] := by
    rw [← map_kind_place p, ht, List.map_singleton, hk]
  cases h with
  | close => exact ⟨rfl, rfl⟩
  | _ => simp [Piece.kinds] at hkinds

end Token

namespace Node

/-! ## The closing parenthesis -/

theorem ne_call_of_step_endWord {st next : State} {t : Token} (h : st.step t = .ok next)
    (hk : t.kind = .keyword .endWord) {name : String} {groups : List Group} {span : Span} {values : List Node} :
    next.context ≠ .document (.call name groups span :: values) := by
  rcases State.step_cases h with ⟨ctx, -, ht⟩ | ⟨_, _, -, hi, -⟩ | ⟨_, _, _, -, hi, -⟩
  · cases ht with
    | @closesDefinition _ _ _ _ outer => cases outer <;> simp [Context.push]
    | opens construct ho => simp [hk, Token.Kind.opens?] at ho
    | leaf node trimmable hl => simp [leaf?, hk] at hl
    | skips hc => simp [hk] at hc
    | endsLine _ he => rcases kind_of_endsLine he with hc | hc <;> simp [hk] at hc
    | separates hc => simp [hk] at hc
    | closesCall hc => simp [hk] at hc
    | ends hc => simp [hk] at hc
  · simp [hk] at hi
  · simp [hk] at hi

/-- A text whose last node is a call that ends with it: its last lexeme is the call's parenthesis, and
all its lexemes stay what they are with any text behind. -/
theorem exists_reads_of_last_call {text : String} {tokens : List Token} {nodes : List Node} {name : String}
    {groups : List Group} {span : Span} (hs : Token.scan text = .ok tokens) (hp : parse tokens = .ok nodes)
    (hn : .call name groups span ∈ nodes) (he : span.stop.offset = text.length) :
    ∃ pieces closer before, (∀ more, Token.Reads (text.toList ++ more) pieces more) ∧
      Token.place .first pieces = before ++ [closer] ∧
      closer.span.stop = Position.first.advance text.toList := by
  have hmem : Node.call name groups span ∈ preorderAll nodes := mem_preorderAll_iff.2 ⟨_, hn, mem_preorder_self _⟩
  obtain ⟨before, opener, inside, closer, behind, last, rfl, -, -, -, hclose, hsteps, hspan⟩ :=
    exists_tokens_of_node hs hp hmem rfl
  rw [← List.cons_append] at hsteps
  obtain ⟨mid, -, hlast⟩ := hsteps.exists_last
  have hparen : closer.kind = .closeParen := hclose.resolve_right fun hk => ne_call_of_step_endWord hlast hk rfl
  obtain ⟨pieces, hr, hall⟩ := Token.scan_ok_iff.1 hs
  have hplace : Token.place .first pieces = (before ++ opener :: inside) ++ closer :: behind := by
    simpa using (List.append_inj' hall rfl).1.symm
  obtain ⟨front, own, mid, rest, hfront, hown, hbefore, hcloser, hstop⟩ := hr.exists_closer hplace hclose
  -- The parenthesis ends where the text does, so nothing is behind it.
  have htext : text.toList = Token.Piece.textAll (front ++ own) ++ rest := by
    rw [hfront.append_eq, hown.append_eq, Token.Piece.textAll_append, List.append_assoc]
  have hoffset : span.stop = Position.first.advance (Token.Piece.textAll (front ++ own)) := by
    rw [← hstop]
    exact (Span.mk.injEq .. ▸ hspan).2
  obtain rfl : rest = [] := by
    rw [hoffset, Position.offset_advance_first, ← String.length_toList, htext, List.length_append] at he
    exact List.length_eq_zero_iff.1 (by omega)
  rw [List.append_nil] at htext
  obtain ⟨rfl, hone⟩ := hown.eq_of_closeParen hcloser hparen
  refine ⟨front ++ own, closer, before ++ opener :: inside, fun more => ?_, ?_, ?_⟩
  · have hlast : Token.Reads (')' :: more) own more := by
      rw [hone]
      exact .step .close (.refl more)
    exact (hfront.extend (List.cons_ne_nil _ _) more).append hlast
  · rw [Token.place_append, hbefore, hcloser]
  · rw [hstop, htext]

/-! ## The state behind it -/

theorem Context.exists_bind_of_closeLinesWith {stop : Position} {values : List Node} :
    ∀ (ctx : Context) {node : Node}, closeLinesWith stop ctx (some node) = .document values →
      (∃ name changes value span, node = .bind name changes value span) →
      ∃ name changes value span, values.head? = some (.bind name changes value span)
  | .document _, _, h, ⟨name, changes, value, span, hn⟩ => by
    cases h
    exact ⟨name, changes, value, span, congrArg some hn⟩
  | .line start name changes pieces outer, _, h, _ =>
    exists_bind_of_closeLinesWith outer h ⟨name, changes, _, _, rfl⟩

/-- Behind a text whose last node is a call, the document holds the nodes and nothing is open. -/
theorem exists_steps_of_last_call {tokens : List Token} {mark : Token} (hmark : mark.kind = .endOfInput)
    (ho : ∀ t ∈ tokens, t.kind ≠ .endOfInput) {nodes : List Node} (hp : parse (tokens ++ [mark]) = .ok nodes)
    {name : String} {groups : List Group} {span : Span} (hl : nodes.getLast? = some (.call name groups span)) :
    ∃ stop, State.start.Steps tokens ⟨.document nodes.reverse, .ready, stop⟩ := by
  obtain ⟨⟨ctx, mode, stop⟩, hsteps, hrun⟩ := State.exists_steps_of_run ho hp
  obtain ⟨hmode, values, hclose, rfl⟩ := State.of_run_end hmark hrun
  obtain rfl : mode = .ready := hmode
  rw [List.getLast?_reverse] at hl
  cases ctx with
  | document => cases hclose; exact ⟨stop, by rwa [List.reverse_reverse]⟩
  | call | define => cases hclose
  | line start name changes pieces outer =>
    obtain ⟨_, _, _, _, hhead⟩ := Context.exists_bind_of_closeLinesWith outer hclose ⟨_, _, _, _, rfl⟩
    rw [hl] at hhead
    cases hhead

/-! ## Both texts -/

/-- Where a text ends with its last call, reading can be taken up: its lexemes stay what they are with
any text behind, and behind their tokens the document holds the nodes and nothing is open. -/
theorem exists_resumption {first : String} {nodes : List Node} {name : String} {groups : List Group} {span : Span}
    (h : ofText first = .ok nodes) (hl : nodes.getLast? = some (.call name groups span))
    (he : span.stop.offset = first.length) :
    ∃ pieces, (∀ more, Token.Reads (first.toList ++ more) pieces more) ∧
      (∀ t ∈ Token.place .first pieces, t.kind ≠ .endOfInput) ∧
      State.start.Steps (Token.place .first pieces)
        ⟨.document nodes.reverse, .ready, Position.first.advance first.toList⟩ := by
  obtain ⟨tokens, hs, hp⟩ := ofText_ok_iff.1 h
  obtain ⟨pieces, closer, before, hreads, hplace, hstop⟩ :=
    exists_reads_of_last_call hs hp (List.mem_of_getLast? hl) he
  have hfirst : Token.Reads first.toList pieces [] := by simpa using hreads []
  have htokens : ∀ t ∈ Token.place .first pieces, t.kind ≠ .endOfInput := by
    intro t ht hk
    refine hfirst.end_notMem_kinds ?_
    rw [← Token.map_kind_place .first, ← hk]
    exact List.mem_map_of_mem ht
  rw [Token.scan, Cursor.ofText, hfirst.scanFrom_eq rfl] at hs
  obtain rfl := Except.ok.inj hs
  obtain ⟨stop, hsteps⟩ := exists_steps_of_last_call rfl htokens hp hl
  obtain rfl : stop = Position.first.advance first.toList := by
    obtain ⟨mid, -, hlast⟩ := State.Steps.exists_last (hplace ▸ hsteps)
    rw [← hstop]
    exact State.lastStop_of_step hlast
  exact ⟨pieces, hreads, htokens, hsteps⟩

/-- A text that begins behind a call which ends the text before has the nodes that it has alone, shifted,
behind those of that text, or the same is missing in it, in the shifted place. -/
theorem ofText_append {first : String} {nodes : List Node} {name : String} {groups : List Group} {span : Span}
    (h : ofText first = .ok nodes) (hl : nodes.getLast? = some (.call name groups span))
    (he : span.stop.offset = first.length) (second : String) :
    ofText (first ++ second) =
      match ofText second with
      | .error e => .error (e.moved (Position.shift (Position.first.advance first.toList)))
      | .ok more => .ok (nodes ++ more.map (moved (Position.shift (Position.first.advance first.toList)))) := by
  obtain ⟨pieces, hreads, htokens, hsteps⟩ := exists_resumption h hl he
  have hshift := Position.shift_advance (Position.first.advance first.toList)
  rw [← Position.shift_first (Position.first.advance first.toList)] at hsteps
  generalize Position.shift (Position.first.advance first.toList) = f at hshift hsteps
  have htext : first.toList = Token.Piece.textAll pieces := by simpa using (hreads []).append_eq
  have hscan : Token.scan (first ++ second) =
      (Token.scanMoved f (Token.scan second)).map (Token.place .first pieces ++ ·) := by
    rw [Token.scan, Cursor.ofText, String.toList_append, (hreads second.toList).scanFrom_append, ← htext,
      Token.scanFrom_moved hshift]
    rfl
  have hparse : ∀ more, parse (Token.place .first pieces ++ more.map (Token.moved f)) =
      (readMoved f (parse more)).map (nodes ++ ·) := by
    intro more
    have honto := State.run_onto_document nodes.reverse (more.map (Token.moved f)) (State.start.moved f)
    rw [State.run_moved, List.reverse_reverse] at honto
    rw [parse, hsteps.run_append htokens]
    exact honto
  rw [ofText, ofText, hscan]
  cases Token.scan second with
  | error e => rfl
  | ok more =>
    simp only [Token.scanMoved, Except.map, hparse]
    cases parse more <;> rfl

end Node

end Markup
