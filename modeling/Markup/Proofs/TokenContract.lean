/-
What reading a tree may rely on in the tokens of a text.

The tokens of a text come in phrases: a token that takes a name with that name
behind it, or any other token alone (`Phrases`). Plain text is a run that goes on
as far as it can, of blanks if a newline is in it (`TextRun`). So of the nine things
that may be missing where tokens are read, a call's name never is, and neither a
name nor the end of the text is ever met where a value is missing; what can be
reported of a text is listed in `Misplaced` (`scan_contract`).
-/
import Markup.Proofs.FirstRefusal

namespace Markup.Token

open Text

/-! ## Names -/

/-- Tokens in phrases. A name is made of name characters, and that of a call is not empty. -/
inductive Phrases : List Token → Prop where
  | nil : Phrases []
  | single {t : Token} {rest : List Token} : t.kind ≠ .identifier → Node.takesName t = false → Phrases rest →
      Phrases (t :: rest)
  | named {opener name : Token} {rest : List Token} : Node.takesName opener = true → name.kind = .identifier →
      (∀ c ∈ name.value.toList, isNameChar c = true) → (opener.kind = .openParen → name.value ≠ "") →
      Phrases rest → Phrases (opener :: name :: rest)

theorem Lexes.phrases {cs rest : List Char} {own : List Piece} (h : Lexes cs own rest) (p : Position)
    {more : List Token} (hm : Phrases more) : Phrases (place p own ++ more) := by
  cases h with
  | dropped => exact hm
  | call hn hne =>
    refine .named rfl rfl (fun c hc => hn.all c (by simpa using hc)) (fun _ => ?_) hm
    simpa using hne
  | @directive cs name word _ _ _ ident _ _ _ _ _ _ _ hw _ hi =>
    have htakes : ∀ (value raw : String) (span : Span), Node.takesName ⟨.keyword word, value, raw, span⟩ = true := by
      cases word with
      | endWord => exact absurd rfl hw
      | letWord | setWord | useWord | defWord => exact fun _ _ _ => rfl
    exact .named (htakes _ _ _) rfl (fun c hc => hi.all c (by simpa using hc)) nofun hm
  | escape | argument | close | comment | hash | reference | endWord | pipe | slash | number | text | blank =>
    exact .single nofun rfl hm

theorem Reads.phrases {cs rest : List Char} {pieces : List Piece} (h : Reads cs pieces rest) (p : Position)
    {more : List Token} (hm : Phrases more) : Phrases (place p pieces ++ more) := by
  induction h generalizing p with
  | refl => exact hm
  | step hl _ ih =>
    rw [place_append, List.append_assoc]
    exact hl.phrases p (ih _)

theorem phrases_of_scan {text : String} {tokens : List Token} (h : scan text = .ok tokens) : Phrases tokens := by
  obtain ⟨pieces, hr, rfl⟩ := scan_ok_iff.1 h
  exact hr.phrases .first (.single nofun rfl .nil)

theorem takesName_of_identifier {t : Token} (hk : t.kind = .identifier) : Node.takesName t = false := by
  simp [Node.takesName, Node.isDirective, hk]

namespace Phrases

variable {tokens : List Token} (h : Phrases tokens)
include h

theorem head?_kind {t : Token} (ht : tokens.head? = some t) : t.kind ≠ .identifier := by
  cases h with
  | nil => cases ht
  | single hk => cases ht; exact hk
  | named ho =>
    cases ht
    intro hk
    simp [takesName_of_identifier hk] at ho

/-- A name stands behind the tokens that take one, and nowhere else. -/
theorem takesName_iff {t : Token} {rest : List Token} (hs : t :: rest <:+ tokens) :
    Node.takesName t = true ↔ ∃ n, rest.head? = some n ∧ n.kind = .identifier := by
  have hnone : ∀ {rest : List Token}, Phrases rest → ¬ ∃ n, rest.head? = some n ∧ n.kind = .identifier :=
    fun hr ⟨_, hn, hk⟩ => hr.head?_kind hn hk
  induction h with
  | nil => cases List.suffix_nil.1 hs
  | @single u more hk ht hr ih =>
    rcases List.suffix_cons_iff.1 hs with he | hs
    · cases he
      simpa only [ht, Bool.false_eq_true, false_iff] using hnone hr
    · exact ih hs
  | @named opener name more ho hk hchars hcall hr ih =>
    rcases List.suffix_cons_iff.1 hs with he | hs
    · cases he
      simpa only [ho, true_iff] using ⟨name, rfl, hk⟩
    rcases List.suffix_cons_iff.1 hs with he | hs
    · cases he
      simpa only [takesName_of_identifier hk, Bool.false_eq_true, false_iff] using hnone hr
    · exact ih hs

theorem isNameChar_of_mem {t : Token} (ht : t ∈ tokens) (hk : t.kind = .identifier) :
    ∀ c ∈ t.value.toList, isNameChar c = true := by
  induction h with
  | nil => cases ht
  | single hne _ _ ih =>
    rcases List.mem_cons.1 ht with rfl | ht
    · exact absurd hk hne
    · exact ih ht
  | named ho _ hchars _ _ ih =>
    rcases List.mem_cons.1 ht with rfl | ht
    · simp [takesName_of_identifier hk] at ho
    rcases List.mem_cons.1 ht with rfl | ht
    · exact hchars
    · exact ih ht

theorem callName_ne_empty {t n : Token} {rest : List Token} (hs : t :: n :: rest <:+ tokens)
    (hk : t.kind = .openParen) : n.value ≠ "" := by
  induction h with
  | nil => cases List.suffix_nil.1 hs
  | @single u more _ ht hr ih =>
    rcases List.suffix_cons_iff.1 hs with he | hs
    · cases he
      simp [Node.takesName, hk] at ht
    · exact ih hs
  | @named opener name more ho hname hchars hcall hr ih =>
    rcases List.suffix_cons_iff.1 hs with he | hs
    · cases he
      exact hcall hk
    rcases List.suffix_cons_iff.1 hs with he | hs
    · cases he
      rw [hk] at hname
      cases hname
    · exact ih hs

end Phrases

/-! ## Plain text -/

/-- Whether what stands behind a token in a text, if anything does, is no character of a class. -/
def StopsBefore (text : List Char) (t : Token) (p : Char → Bool) : Prop :=
  ∀ c, text[t.span.stop.offset.toNat]? = some c → p c = false

/-- What plain text is: blanks with a newline, a run of text characters that are not all blank, or a
run of blanks that begins with a tab or a return. Runs go on as far as they can. -/
inductive TextRun (text : List Char) (t : Token) : Prop where
  | newline : '\n' ∈ t.value.toList → (∀ c ∈ t.value.toList, isBlank c = true) → TextRun text t
  | plain : (∀ c ∈ t.value.toList, isTextChar c = true) → isAllBlank t.value = false →
      StopsBefore text t isTextChar → TextRun text t
  | blank : (∃ more, t.value.toList = '\t' :: more ∨ t.value.toList = '\r' :: more) → '\n' ∉ t.value.toList →
      (∀ c ∈ t.value.toList, isBlank c = true) → StopsBefore text t isBlank → TextRun text t

theorem Reads.exists_lexes_of_mem_place {cs rest : List Char} {pieces : List Piece} (h : Reads cs pieces rest)
    {p : Position} {t : Token} (ht : t ∈ place p pieces) : ∃ front mid own behind, Reads cs front mid ∧
      Lexes mid own behind ∧ t ∈ place (p.advance (Piece.textAll front)) own := by
  induction h generalizing p with
  | refl => cases ht
  | @step cs own mid more rest hl _ ih =>
    rw [place_append, List.mem_append] at ht
    rcases ht with ht | ht
    · exact ⟨[], cs, own, mid, .refl cs, hl, ht⟩
    · obtain ⟨front, behind, others, last, hr, hlast, hmem⟩ := ih ht
      refine ⟨own ++ front, behind, others, last, .step hl hr, hlast, ?_⟩
      rwa [Piece.textAll_append, Position.advance_append]

theorem stopsBefore_of_append {before run behind : List Char} {t : Token} {p : Char → Bool}
    (hstop : t.span.stop = Position.first.advance (before ++ run))
    (hb : ∀ c, behind.head? = some c → p c = false) : StopsBefore (before ++ (run ++ behind)) t p := by
  intro c hc
  rw [hstop, Position.offset_advance_first, Int.toNat_natCast, ← List.append_assoc,
    List.getElem?_append_right (Nat.le_refl _), Nat.sub_self, ← List.head?_eq_getElem?] at hc
  exact hb c hc

theorem textRun_of_scan {text : String} {tokens : List Token} (h : scan text = .ok tokens) {t : Token}
    (ht : t ∈ tokens) (hk : t.kind = .text) : TextRun text.toList t := by
  obtain ⟨pieces, hr, rfl⟩ := scan_ok_iff.1 h
  rcases List.mem_append.1 ht with ht | ht
  · obtain ⟨front, mid, own, behind, hfront, hl, hmem⟩ := hr.exists_lexes_of_mem_place ht
    rw [hfront.append_eq, hl.append_eq]
    cases hl with
    | @text c cs more behind hc _ _ _ hn hb =>
      obtain rfl := List.mem_singleton.1 hmem
      refine .plain ?_ ?_ ?_
      · simpa using ⟨hc, hn.all⟩
      · simpa [isAllBlank] using hb
      · rw [Piece.textAll_token, Piece.textAll_nil, List.append_nil]
        exact stopsBefore_of_append (Position.advance_append _ _ _).symm hn.stops
    | @blank c cs more behind hc hn =>
      obtain rfl := List.mem_singleton.1 hmem
      have hall : ∀ d ∈ c :: more, isBlank d = true := by
        have hfirst : isBlank c = true := by rcases hc with rfl | rfl | rfl <;> rfl
        exact List.forall_mem_cons.2 ⟨hfirst, hn.all⟩
      by_cases hline : '\n' ∈ c :: more
      · exact .newline (by simpa using hline) (by simpa using hall)
      · refine .blank ⟨more, ?_⟩ (by simpa using hline) (by simpa using hall) ?_
        · rcases hc with rfl | rfl | rfl
          · exact absurd List.mem_cons_self hline
          · exact .inr (by simp)
          · exact .inl (by simp)
        · rw [Piece.textAll_token, Piece.textAll_nil, List.append_nil]
          exact stopsBefore_of_append (Position.advance_append _ _ _).symm hn.stops
    | dropped => cases hmem
    | call | directive =>
      simp only [place, List.mem_cons, List.not_mem_nil, or_false] at hmem
      rcases hmem with rfl | rfl <;> cases hk
    | escape | argument | close | comment | hash | reference | endWord | pipe | slash | number =>
      obtain rfl := List.mem_singleton.1 hmem
      cases hk
  · rw [List.mem_singleton.1 ht] at hk
    cases hk

end Markup.Token

namespace Markup

/-- What reading a tree relies on in the tokens of a text. -/
structure Token.Contract (text : List Char) (tokens : List Token) : Prop where
  /-- A name stands behind the tokens that take one, and nowhere else. -/
  first : ∀ t, tokens.head? = some t → t.kind ≠ .identifier
  names : ∀ t rest, t :: rest <:+ tokens →
    (Node.takesName t = true ↔ ∃ n, rest.head? = some n ∧ n.kind = .identifier)
  nameChars : ∀ t ∈ tokens, t.kind = .identifier → ∀ c ∈ t.value.toList, Text.isNameChar c = true
  callNames : ∀ t n rest, t :: n :: rest <:+ tokens → t.kind = .openParen → n.value ≠ ""
  texts : ∀ t ∈ tokens, t.kind = .text → t.TextRun text

namespace Node

/-! ## What may be missing -/

/-- What may be reported of the tokens of a text: a token that closes what is not open, the end of
the text where a call or a definition is, the token behind a directive's blank name, a `$` without a
name among parameters, and a token with which no body can begin. -/
inductive Misplaced (tokens : List Token) : ParseError → Prop where
  | closes {found : Token} : found.kind = .closeParen ∨ found.kind = .keyword .endWord →
      Misplaced tokens ⟨.value, found⟩
  | callAtEnd {found : Token} : found.kind = .endOfInput → Misplaced tokens ⟨.closeParen, found⟩
  | definitionAtEnd {found : Token} : found.kind = .endOfInput → Misplaced tokens ⟨.endWord, found⟩
  | behindBlankName {found directive : Token} {construct : Named} {before after first : List Token} :
      tokens = before ++ found :: after → EndsWithBlankName construct first directive before →
      Misplaced tokens ⟨construct.expected, found⟩
  | parameterName {found : Token} : found.kind = .argument → found.value = "" →
      Misplaced tokens ⟨.parameterName, found⟩
  | body {found : Token} : found.kind ≠ .argument → beginsBody found = false → found.kind ≠ .endOfInput →
      Misplaced tokens ⟨.parameterOrBody, found⟩

/-- Where a value may begin, a token is refused because it closes what is not open, because something
is open at the end, or because it is a name. -/
theorem Shape.stepReady_error {brackets : List Bracket} {t : Token} {e : ParseError}
    (h : Shape.stepReady brackets t = .error e) (hk : t.kind ≠ .identifier) (tokens : List Token) :
    Misplaced tokens e := by
  obtain ⟨kind, value, raw, span⟩ := t
  cases kind with
  | identifier => exact absurd rfl hk
  | closeParen =>
    rcases brackets with _ | ⟨_ | _, outer⟩ <;> cases h <;> exact .closes (.inl rfl)
  | endOfInput =>
    rcases brackets with _ | ⟨_ | _, outer⟩ <;> cases h
    · exact .callAtEnd rfl
    · exact .definitionAtEnd rfl
  | keyword word =>
    cases word with
    | endWord => rcases brackets with _ | ⟨_ | _, outer⟩ <;> cases h <;> exact .closes (.inr rfl)
    | letWord | setWord | useWord | defWord => cases h
  | openParen => cases h
  | reference | argument | text | number | escape | comment | hash | slash | pipe => cases h

theorem Shape.step_params_of_beginsBody {t : Token} (h : beginsBody t = true) (brackets : List Bracket) :
    Shape.step ⟨brackets, .params⟩ t = Shape.stepReady brackets t := by
  obtain ⟨kind, value, raw, span⟩ := t
  cases kind with
  | text | escape | comment => rfl
  | keyword word =>
    cases word with
    | endWord => rfl
    | letWord | setWord | useWord | defWord => cases h
  | _ => cases h

/-- Among parameters, a token is refused because a `$` has no name, because the definition is open at
the end, or because no body begins with it. -/
theorem Shape.stepParams_error {brackets : List Bracket} {t : Token} {e : ParseError}
    (h : Shape.step ⟨brackets, .params⟩ t = .error e) (tokens : List Token) : Misplaced tokens e := by
  cases hb : beginsBody t with
  | true =>
    rw [Shape.step_params_of_beginsBody hb] at h
    exact Shape.stepReady_error h (fun hk => by simp [beginsBody, hk] at hb) tokens
  | false =>
    simp only [Shape.step] at h
    split at h
    next hk =>
      split at h
      next hv => cases h; exact .parameterName hk (by simpa using hv)
      next => cases h
    next hk => simp [beginsBody, hk] at hb
    next hk => simp [beginsBody, hk] at hb
    next hk => simp [beginsBody, hk] at hb
    next hk => simp [beginsBody, hk] at hb
    next hk => cases h; exact .definitionAtEnd hk
    next ha _ _ _ _ hi => cases h; exact .body ha hb hi

/-- The tokens of a text are refused only for what may be missing there. -/
theorem misplaced_of_parse {text : String} {tokens : List Token} (hs : Token.scan text = .ok tokens)
    {e : ParseError} (h : parse tokens = .error e) : Misplaced tokens e := by
  have hphrases := Token.phrases_of_scan hs
  obtain ⟨others, last, rfl, hl, -, -, ho⟩ := Token.exists_last_of_scan hs
  obtain ⟨before, t, after, mid, hsplit, hb, hsteps, hstep⟩ := State.exists_refusal ho hl h
  rw [hsplit] at hphrases ⊢
  have hshape : mid.shape.step t = .error e := by
    rw [← State.shape_step, hstep]
    rfl
  -- A name is met only where the token before it has asked for one.
  have hname : t.kind = .identifier → ∃ construct start, mid.mode = .name construct start := by
    intro hk
    rcases List.eq_nil_or_concat' before with rfl | ⟨first, opener, rfl⟩
    · exact absurd hk (hphrases.head?_kind rfl)
    · have hsuffix : opener :: t :: after <:+ first ++ [opener] ++ t :: after := by simp [List.suffix_append]
      have htakes := (hphrases.takesName_iff hsuffix).2 ⟨t, rfl, hk⟩
      rw [takesName_eq, Option.isSome_iff_exists] at htakes
      obtain ⟨construct, hopens⟩ := htakes
      obtain ⟨earlier, -, hlast⟩ := hsteps.exists_last
      obtain ⟨ctx, rfl⟩ := State.step_opener hopens hlast
      exact ⟨construct, _, rfl⟩
  obtain ⟨ctx, mode, lastStop⟩ := mid
  cases mode with
  | ready | group =>
    refine Shape.stepReady_error hshape (fun hk => ?_) _
    obtain ⟨construct, start, hmode⟩ := hname hk
    cases hmode
  | params => exact Shape.stepParams_error hshape _
  | blank construct =>
    obtain ⟨first, directive, _, _, hends, -, -⟩ := hsteps.exists_blank rfl
    cases hshape
    exact .behindBlankName rfl hends
  | name construct start =>
    -- The name that is asked for stands there.
    obtain ⟨first, opener, rfl, hopener⟩ := hsteps.exists_opener rfl
    have htakes : takesName opener = true := by
      rw [takesName_eq, opens?_eq_some_iff.2 hopener]
      rfl
    have hsuffix : opener :: t :: after <:+ first ++ [opener] ++ t :: after := by simp [List.suffix_append]
    obtain ⟨n, hn, hk⟩ := (hphrases.takesName_iff hsuffix).1 htakes
    cases hn
    rw [Shape.step, State.shape] at hshape
    simp only [hk, if_true, reduceCtorEq] at hshape

/-- The tokens of a text keep the contract, and where they have no tree, what is reported is what may
be missing in a text. No call is without a name, and no value is missing at a name or at the end. -/
theorem scan_contract {text : String} {tokens : List Token} (hs : Token.scan text = .ok tokens) :
    Token.Contract text.toList tokens ∧
      (∀ e, ofText text = .error (.tree e) → Misplaced tokens e ∧ e.expected ≠ .callName ∧
        (e.expected = .value → e.found.kind ≠ .endOfInput ∧ e.found.kind ≠ .identifier)) := by
  have hphrases := Token.phrases_of_scan hs
  refine ⟨⟨fun _ => hphrases.head?_kind, fun _ _ => hphrases.takesName_iff, fun _ => hphrases.isNameChar_of_mem,
    fun _ _ _ => hphrases.callName_ne_empty, fun _ => Token.textRun_of_scan hs⟩, fun e he => ?_⟩
  have hparse : parse tokens = .error e := by
    rcases ofText_error_iff.1 he with ⟨_, _, ⟨⟩⟩ | ⟨_, _, hscan, hp, ⟨⟩⟩
    cases hs.symm.trans hscan
    exact hp
  have hm := misplaced_of_parse hs hparse
  refine ⟨hm, ?_⟩
  cases hm with
  | closes hk => exact ⟨nofun, fun _ => by rcases hk with hk | hk <;> simp [hk]⟩
  | callAtEnd | definitionAtEnd | parameterName | body => exact ⟨nofun, nofun⟩
  | @behindBlankName found directive construct before after first _ hends =>
    obtain ⟨name, -, -, hc, -⟩ := hends
    cases construct with
    | call => exact absurd rfl hc
    | use | define | bind => exact ⟨nofun, nofun⟩

/-- The tab behind `f` is a run of its own, and `#let` has an empty name, which the pipe stands behind. -/
theorem contract_pipe_behind_empty_name :
    let pipe : Token := ⟨.pipe, "|", "|", ⟨⟨1, 10, 9⟩, ⟨1, 11, 10⟩⟩⟩
    let tokens : List Token := [⟨.openParen, "(", "(", ⟨⟨1, 1, 0⟩, ⟨1, 2, 1⟩⟩⟩,
      ⟨.identifier, "f", "f", ⟨⟨1, 2, 1⟩, ⟨1, 3, 2⟩⟩⟩, ⟨.text, "\t", "\t", ⟨⟨1, 4, 3⟩, ⟨1, 5, 4⟩⟩⟩,
      ⟨.keyword .letWord, "let", "#let", ⟨⟨1, 5, 4⟩, ⟨1, 9, 8⟩⟩⟩,
      ⟨.identifier, "", "", ⟨⟨1, 10, 9⟩, ⟨1, 10, 9⟩⟩⟩, pipe,
      ⟨.endOfInput, "", "", ⟨⟨1, 11, 10⟩, ⟨1, 11, 10⟩⟩⟩]
    Token.scan "(f \t#let |" = .ok tokens ∧ Token.Contract "(f \t#let |".toList tokens ∧
      Misplaced tokens ⟨.variableName, pipe⟩ := by
  intro pipe tokens
  have hs : Token.scan "(f \t#let |" = .ok tokens := by cbv
  have he : ofText "(f \t#let |" = .error (.tree ⟨.variableName, pipe⟩) := by
    rw [ofText, hs]
    rfl
  exact ⟨hs, (scan_contract hs).1, ((scan_contract hs).2 _ he).1⟩

end Node

end Markup
