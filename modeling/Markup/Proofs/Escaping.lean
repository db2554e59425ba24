/-
Escaping: a text with a backslash before what has a meaning is expanded to
itself (`expand_escape`).

Only white space, pipes, slashes and digits are left as they are and are no
plain text. Without digits every token of an escaped text stands for the
characters it was written for (`Spells`), so the values of the tokens, joined,
are the text, in a document and in an argument of a call alike. The argument
is read with the blank before it, which is either dropped or stripped.
-/
import Markup.Compile
import Markup.Proofs.BlankFacts
import Markup.Proofs.ExpandSteps
import Markup.Proofs.Lexemes
import Markup.Proofs.Nesting

namespace Markup

namespace Text

/-- The character that stands behind a backslash for one that has a meaning. -/
def escapeMark? : Char → Option Char
  | '(' => some '('
  | ')' => some ')'
  | '#' => some '#'
  | '$' => some '$'
  | '\\' => some '\\'
  | '\n' => some 'n'
  | ' ' => some 's'
  | '\t' => some 't'
  | _ => none

/-- Characters with a backslash before those that have a meaning. -/
def escapeChars : List Char → List Char
  | [] => []
  | c :: cs =>
    match escapeMark? c with
    | some mark => '\\' :: mark :: escapeChars cs
    | none => c :: escapeChars cs

/-- A text with a backslash before what has a meaning. -/
def escape (s : String) : String := .ofList (escapeChars s.toList)

theorem unescape?_of_escapeMark? {c mark : Char} (h : escapeMark? c = some mark) : unescape? mark = some c := by
  unfold escapeMark? at h
  split at h <;> cases h <;> rfl

theorem escapeChars_cons_of_none {c : Char} (h : escapeMark? c = none) (cs : List Char) :
    escapeChars (c :: cs) = c :: escapeChars cs := by
  rw [escapeChars, h]

theorem escapeChars_cons_of_some {c mark : Char} (h : escapeMark? c = some mark) (cs : List Char) :
    escapeChars (c :: cs) = '\\' :: mark :: escapeChars cs := by
  rw [escapeChars, h]

theorem trimWhile_append_of_all {p : Char → Bool} {cs : List Char} (h : cs.all p = true) (ds : List Char) :
    trimWhile p (cs ++ ds) = trimWhile p ds := by
  rw [trimWhile, List.dropWhile_append_of_pos (List.all_eq_true.1 h), trimWhile]

end Text

namespace Token

open Text

/-- Whether a token may be one of an escaped text: if it can be joined with others to plain text. -/
def Kind.isPlain : Kind → Bool
  | .text | .escape | .slash | .pipe => true
  | _ => false

/-- Pieces whose values, joined, are some characters, and that are plain, with a pipe only for a pipe. -/
inductive Spells : List Char → List Piece → Prop where
  | nil : Spells [] []
  | gap {cs chars pieces} : Spells cs pieces → Spells cs (.gap chars :: pieces)
  | token {kind value raw cs pieces} : kind.isPlain = true → (kind = .pipe → '|' ∈ value) →
      Spells cs pieces → Spells (value ++ cs) (.token kind value raw :: pieces)

namespace Spells

variable {cs : List Char} {pieces : List Piece}

theorem isPlain (h : Spells cs pieces) (p : Position) : ∀ t ∈ place p pieces, t.kind.isPlain = true := by
  induction h generalizing p with
  | nil => simp [place]
  | gap _ ih => exact ih _
  | token hk _ _ ih => exact List.forall_mem_cons.2 ⟨hk, ih _⟩

theorem ne_pipe (h : Spells cs pieces) (hp : '|' ∉ cs) (p : Position) : ∀ t ∈ place p pieces, t.kind ≠ .pipe := by
  induction h generalizing p with
  | nil => simp [place]
  | gap _ ih => exact ih hp _
  | token _ hv _ ih =>
    rw [List.mem_append, not_or] at hp
    exact List.forall_mem_cons.2 ⟨fun hk => hp.1 (hv hk), ih hp.2 _⟩

theorem values (h : Spells cs pieces) (p : Position) :
    (place p pieces).flatMap (·.value.toList) = cs := by
  induction h generalizing p with
  | nil => rfl
  | gap _ ih => exact ih _
  | token _ _ _ ih => simp [place, ih]

end Spells

/-! ## The tokens of an escaped text -/

/-- A run of characters that stand for themselves is one of an escaped text, where it ends at an
escape too. -/
theorem run_escapeChars {p : Char → Bool} (hp : p '\\' = false) {tail : List Char}
    (ht : ∀ c, tail.head? = some c → p c = false) (cs : List Char) :
    ∃ run rest, cs = run ++ rest ∧ (∀ c ∈ run, escapeMark? c = none) ∧
      Run p (escapeChars cs ++ tail) run (escapeChars rest ++ tail) := by
  induction cs with
  | nil => exact ⟨[], [], rfl, nofun, rfl, nofun, ht⟩
  | cons c cs ih =>
    cases hm : escapeMark? c with
    | some mark =>
      refine ⟨[], c :: cs, rfl, nofun, rfl, nofun, ?_⟩
      rw [escapeChars_cons_of_some hm]
      rintro _ ⟨⟩
      exact hp
    | none =>
    cases hc : p c with
    | false =>
      refine ⟨[], c :: cs, rfl, nofun, rfl, nofun, ?_⟩
      rw [escapeChars_cons_of_none hm]
      rintro _ ⟨⟩
      exact hc
    | true =>
      obtain ⟨run, rest, rfl, hrun, happend, hall, hstops⟩ := ih
      refine ⟨c :: run, rest, rfl, List.forall_mem_cons.2 ⟨hm, hrun⟩, ?_, List.forall_mem_cons.2 ⟨hc, hall⟩, hstops⟩
      rw [escapeChars_cons_of_none hm, List.cons_append, happend, List.cons_append]

/-- Where an escaped text ends: nothing follows, or a closing parenthesis. -/
def EndsEscaped (tail : List Char) : Prop := ∀ c, tail.head? = some c → c = ')'

/-- A lexeme of an escaped text is one plain token that stands for its characters. -/
theorem exists_lexes_escapeChars {c : Char} (cs : List Char) {tail : List Char} (hd : c.isDigit = false)
    (ht : EndsEscaped tail) : ∃ kind value raw rest, c :: cs = value ++ rest ∧ value ≠ [] ∧
      kind.isPlain = true ∧ (kind = .pipe → '|' ∈ value) ∧
      Lexes (escapeChars (c :: cs) ++ tail) [.token kind value raw] (escapeChars rest ++ tail) := by
  have hstop : ∀ p : Char → Bool, p ')' = false → ∀ d, tail.head? = some d → p d = false := by
    intro p hp d hh
    rw [ht d hh, hp]
  cases hm : escapeMark? c with
  | some mark =>
    rw [escapeChars_cons_of_some hm]
    exact ⟨.escape, [c], ['\\', mark], cs, rfl, List.cons_ne_nil _ _, rfl, by simp, .escape (unescape?_of_escapeMark? hm)⟩
  | none =>
  rw [escapeChars_cons_of_none hm, List.cons_append]
  have hne : ∀ d : Char, (escapeMark? d).isSome = true → c ≠ d := by
    rintro d h rfl
    rw [hm] at h
    cases h
  by_cases hpipe : c = '|'
  · subst hpipe
    exact ⟨.pipe, ['|'], ['|'], cs, rfl, List.cons_ne_nil _ _, rfl, fun _ => List.mem_singleton_self _, .pipe⟩
  by_cases hslash : c = '/'
  · subst hslash
    exact ⟨.slash, ['/'], ['/'], cs, rfl, List.cons_ne_nil _ _, rfl, by simp, .slash⟩
  by_cases hreturn : c = '\r'
  · subst hreturn
    obtain ⟨run, rest, rfl, -, hrun⟩ := run_escapeChars (p := isBlank) rfl (hstop _ rfl) cs
    exact ⟨.text, '\r' :: run, _, rest, rfl, List.cons_ne_nil _ _, rfl, by simp, .blank (.inr (.inl rfl)) hrun⟩
  · have htext : isTextChar c = true := by
      simp [isTextChar, hne '(' rfl, hne ')' rfl, hne '#' rfl, hne '\\' rfl, hne '\n' rfl,
        hne '\t' rfl, hpipe, hreturn]
    have hblank : isAsciiBlank c = false := by
      simp [isAsciiBlank, hne ' ' rfl, hne '\n' rfl, hne '\t' rfl, hreturn]
    obtain ⟨run, rest, rfl, -, hrun⟩ := run_escapeChars (p := isTextChar) rfl (hstop _ rfl) cs
    refine ⟨.text, c :: run, _, rest, rfl, List.cons_ne_nil _ _, rfl, by simp, .text htext (hne '$' rfl) hslash hd hrun ?_⟩
    rw [List.all_cons, hblank, Bool.false_and]

/-- An escaped text is made of plain tokens that spell it. -/
theorem exists_reads_escapeChars {tail : List Char} (ht : EndsEscaped tail) : ∀ (n : Nat) (cs : List Char),
    cs.length ≤ n → (∀ c ∈ cs, c.isDigit = false) →
      ∃ pieces, Reads (escapeChars cs ++ tail) pieces tail ∧ Spells cs pieces
  | _, [], _, _ => ⟨[], .refl _, .nil⟩
  | n + 1, c :: cs, hn, hd => by
    obtain ⟨kind, value, raw, rest, he, hne, hk, hv, hl⟩ :=
      exists_lexes_escapeChars cs (hd c List.mem_cons_self) ht
    have hlength : value.length + rest.length = cs.length + 1 := by
      rw [← List.length_append, ← he, List.length_cons]
    have hpos := List.length_pos_iff.2 hne
    obtain ⟨pieces, hr, hs⟩ := exists_reads_escapeChars ht n rest (by simp only [List.length_cons] at hn; omega)
      (fun d hm => hd d (he ▸ List.mem_append_right _ hm))
    rw [he]
    exact ⟨_, .step (he ▸ hl) hr, .token hk hv hs⟩

/-- Behind a blank an escaped text is spelled with or without it. -/
theorem exists_reads_argument {cs tail : List Char} (hne : cs ≠ []) (hp : '|' ∉ cs) (ht : EndsEscaped tail)
    (hd : ∀ c ∈ cs, c.isDigit = false) : ∃ pieces value, Reads (' ' :: (escapeChars cs ++ tail)) pieces tail ∧
      Spells value pieces ∧ value ≠ [] ∧ '|' ∉ value ∧ trimWhile isAsciiBlank value = trimWhile isAsciiBlank cs := by
  have hstop : ∀ d, tail.head? = some d → isTextChar d = false := by
    intro d hh
    rw [ht d hh]
    rfl
  obtain ⟨run, rest, rfl, hrun, hr⟩ := run_escapeChars (p := isTextChar) rfl hstop cs
  obtain ⟨pieces, hreads, hspells⟩ := exists_reads_escapeChars ht rest.length rest (Nat.le_refl _)
    (fun d hm => hd d (List.mem_append_right _ hm))
  rw [List.mem_append, not_or] at hp
  cases hall : (' ' :: run).all isAsciiBlank with
  | true =>
    -- A blank that stands for itself is no plain text, so the run is empty.
    obtain rfl : run = [] := by
      refine List.eq_nil_iff_forall_not_mem.2 fun c hc => ?_
      have hblank := List.all_eq_true.1 hall c (List.mem_cons_of_mem _ hc)
      have htext := hr.all c hc
      have hmark := hrun c hc
      simp only [isAsciiBlank, Bool.or_eq_true, beq_iff_eq] at hblank
      rcases hblank with ((rfl | rfl) | rfl) | rfl
      · cases hmark
      · cases hmark
      · cases hmark
      · cases htext
    exact ⟨_, rest, .step (.dropped rfl (by decide) (by decide) rfl hr hall) hreads, .gap hspells, hne, hp.2, rfl⟩
  | false =>
    refine ⟨_, _, .step (.text rfl (by decide) (by decide) rfl hr hall) hreads, .token rfl (by simp) hspells,
      List.cons_ne_nil _ _, ?_, ?_⟩
    · simp [hp.1, hp.2]
    · have hspace : [' '].all isAsciiBlank = true := rfl
      exact trimWhile_append_of_all hspace (run ++ rest)

end Token

/-! ## The nodes -/

/-- The node that a plain token is. -/
def Token.plainNode (t : Token) : Node := .text t.value t.span

namespace Node

theorem exists_stepReady_of_isPlain {ctx : Context} {t : Token} (hc : ctx.isLine = false)
    (hk : t.kind.isPlain = true) (hp : t.kind = .pipe → ctx.inCall = false) (lastStop : Position) :
    ∃ trimmable, stepReady ctx lastStop t = .ok ⟨ctx.push t.plainNode trimmable, .ready, t.span.stop⟩ := by
  obtain ⟨kind, value, raw, span⟩ := t
  cases ctx with
  | line => cases hc
  | document | define =>
    cases kind with
    | text => exact ⟨true, rfl⟩
    | escape | slash | pipe => exact ⟨false, rfl⟩
    | _ => cases hk
  | call =>
    cases kind with
    | text => exact ⟨true, rfl⟩
    | escape | slash => exact ⟨false, rfl⟩
    | pipe => cases hp rfl
    | _ => cases hk

theorem exists_steps_of_isPlain (holding : List Node → Context) (hline : ∀ values, (holding values).isLine = false)
    (hpush : ∀ values node trimmable, (holding values).push node trimmable = holding (node :: values))
    {tokens : List Token} (hk : ∀ t ∈ tokens, t.kind.isPlain = true)
    (hp : ∀ t ∈ tokens, t.kind = .pipe → ∀ values, (holding values).inCall = false) (values : List Node)
    (lastStop : Position) : ∃ stop, State.Steps ⟨holding values, .ready, lastStop⟩ tokens
      ⟨holding ((tokens.map Token.plainNode).reverse ++ values), .ready, stop⟩ := by
  induction tokens generalizing values lastStop with
  | nil => exact ⟨lastStop, .refl _⟩
  | cons t rest ih =>
    obtain ⟨ht, hk⟩ := List.forall_mem_cons.1 hk
    obtain ⟨htp, hp⟩ := List.forall_mem_cons.1 hp
    obtain ⟨trimmable, hs⟩ := exists_stepReady_of_isPlain (hline values) ht (fun he => htp he values) lastStop
    rw [hpush] at hs
    obtain ⟨stop, hsteps⟩ := ih hk hp (t.plainNode :: values) t.span.stop
    refine ⟨stop, .step hs ?_⟩
    rwa [List.map_cons, List.reverse_cons, List.append_assoc, List.singleton_append]

theorem ne_endOfInput_of_isPlain {tokens : List Token} (h : ∀ t ∈ tokens, t.kind.isPlain = true) :
    ∀ t ∈ tokens, t.kind ≠ .endOfInput := by
  intro t ht hk
  have hplain := h t ht
  rw [hk] at hplain
  cases hplain

theorem parse_of_isPlain {tokens : List Token} (h : ∀ t ∈ tokens, t.kind.isPlain = true) (last : Token)
    (hlast : last.kind = .endOfInput) : parse (tokens ++ [last]) = .ok (tokens.map Token.plainNode) := by
  obtain ⟨stop, hsteps⟩ := exists_steps_of_isPlain .document (fun _ => rfl) (fun _ _ _ => rfl) h
    (fun _ _ _ _ => rfl) [] .first
  rw [parse, State.start, hsteps.run_append (ne_endOfInput_of_isPlain h), State.run]
  simp [State.step, stepReady, stepInner, hlast, Context.finished]

theorem parse_call_of_isPlain {tokens : List Token} (hne : tokens ≠ [])
    (h : ∀ t ∈ tokens, t.kind.isPlain = true) (hp : ∀ t ∈ tokens, t.kind ≠ .pipe) {opener name closer last : Token}
    (ho : opener.kind = .openParen) (hn : name.kind = .identifier) (hc : closer.kind = .closeParen)
    (hlast : last.kind = .endOfInput) : ∃ span around,
      parse (opener :: name :: (tokens ++ [closer, last])) =
        .ok [.call name.value [⟨0, tokens.map Token.plainNode, span⟩] around] := by
  obtain ⟨first, rest, rfl⟩ := List.exists_cons_of_ne_nil hne
  let holding (values : List Node) : Context :=
    .call opener.span.start name.value [] first.span.start values (.document [])
  obtain ⟨stop, hsteps⟩ := exists_steps_of_isPlain holding (fun _ => rfl) (fun _ _ _ => rfl) h
    (fun t ht hk => absurd hk (hp t ht)) [] name.span.stop
  -- The first token of the argument is taken behind the name as in the call.
  have hgroup : State.Steps ⟨.document [], .group opener.span.start name.value [], name.span.stop⟩ (first :: rest)
      ⟨holding (((first :: rest).map Token.plainNode).reverse ++ []), .ready, stop⟩ := by
    cases hsteps with
    | step hs hmore => exact .step hs hmore
  refine ⟨⟨first.span.start, closer.span.start⟩, ⟨opener.span.start, closer.span.stop⟩, ?_⟩
  have hrun := hgroup.run_append (ne_endOfInput_of_isPlain h) [closer, last]
  simp only [parse, State.start, State.run, State.step, stepReady, stepInner, stepValue, ho, hn, stepName,
    if_true, reduceCtorEq, if_false]
  rw [hrun]
  simp [holding, State.run, State.step, stepReady, stepInner, hc, hlast, addGroup, Context.push, Context.finished]

end Node

namespace Document

theorem expandAll_plainNode {one : Expander} (hone : ∀ value span doc, one (.text value span) doc = (.ok value, doc))
    (tokens : List Token) (doc : Document) :
    expandAll one (tokens.map Token.plainNode) doc = (.ok (.ofList (tokens.flatMap (·.value.toList))), doc) := by
  induction tokens with
  | nil => rfl
  | cons t rest ih =>
    rw [List.map_cons, expandAll_cons, Token.plainNode, hone, Outcome.andThen_ok, ih, Outcome.andThen_ok,
      List.flatMap_cons, String.ofList_append, String.ofList_toList]

theorem expand_plainNode (disk : Disk) (limit : Nat) (tokens : List Token) (doc : Document) :
    expand disk (limit + 1) (tokens.map Token.plainNode) doc =
      (.ok (.ofList (tokens.flatMap (·.value.toList))), doc) := by
  induction tokens with
  | nil => rfl
  | cons t rest ih =>
    have ht : expandNode disk (limit + 1) t.plainNode doc = (.ok t.value, doc) := rfl
    rw [List.map_cons, expand_cons_of_ok ht, ih, List.flatMap_cons, String.ofList_append, String.ofList_toList]
    rfl

theorem get?_dot_new (fileName source : String) (presets : List (String × String)) (modulePaths : List Path)
    (now : BuiltIn.Moment) :
    (Document.new fileName source presets modulePaths now).definitions.get? "." = some (textDefinition "." "$value") := by
  have hpresets : ∀ (entries : List (String × String)) (doc : Document),
      (entries.foldl (fun doc entry => doc.letText entry.1 entry.2) doc).definitions = doc.definitions := by
    intro entries
    induction entries with
    | nil => exact fun _ => rfl
    | cons entry rest ih => exact fun doc => ih _
  rw [new, hpresets]
  rfl

theorem substitute_value (value : String) : Text.substitute "$value" "value" value = value := by
  have h : Text.substituteChars "value".toList value.toList 0 "$value".toList = value.toList := by
    simp [Text.substituteChars]
  rw [Text.substitute, h, String.ofList_toList]

theorem expandNode_dot {doc : Document} (hd : doc.definitions.get? "." = some (textDefinition "." "$value"))
    (disk : Disk) (limit : Nat) (tokens : List Token) (span around : Span) :
    expandNode disk (limit + 2) (.call "." [⟨0, tokens.map Token.plainNode, span⟩] around) doc =
      (.ok (Text.strip (.ofList (tokens.flatMap (·.value.toList)))), doc) := by
  have hparams : (textDefinition "." "$value").params = ["value"] := by decide +kernel
  have hone : ∀ value span doc, expandNode disk (limit + 1) (.text value span) doc = (.ok value, doc) :=
    fun _ _ _ => rfl
  have hlength : [(⟨0, tokens.map Token.plainNode, span⟩ : Group)].length =
      (textDefinition "." "$value").params.length := by rw [hparams]; rfl
  rw [expandNode, expandWith, expandCall, hd]
  simp only
  rw [expandMacro_of_length _ hlength, expandBody_eq, hparams]
  simp only [textDefinition, expandAll_cons, expandAll_nil, hone, Outcome.andThen_ok, fill_cons,
    expandAll_plainNode hone, String.append_empty, substitute_value]
  rw [fill_of_nil _ (.inl rfl), Outcome.thenIn_mk, leave_enter]

/-- A text whose pieces spell something is a document of texts that spell it. -/
theorem exists_ofText_of_spells {s : String} {cs : List Char} {pieces : List Token.Piece}
    (hr : Token.Reads s.toList pieces []) (hs : Token.Spells cs pieces) :
    ∃ tokens : List Token, Node.ofText s = .ok (tokens.map Token.plainNode) ∧ tokens.flatMap (·.value.toList) = cs := by
  have hscan := Token.scan_ok_iff.2 ⟨pieces, hr, rfl⟩
  have hparse := Node.parse_of_isPlain (hs.isPlain .first)
    (Token.endAt (Position.first.advance (Token.Piece.textAll pieces))) rfl
  refine ⟨Token.place .first pieces, ?_, hs.values .first⟩
  simp only [Node.ofText, hscan]
  rw [hparse]

theorem exists_ofText_escape {s : String} (hd : ∀ c ∈ s.toList, c.isDigit = false) :
    ∃ tokens : List Token, Node.ofText (Text.escape s) = .ok (tokens.map Token.plainNode) ∧
      tokens.flatMap (·.value.toList) = s.toList := by
  have hends : Token.EndsEscaped [] := nofun
  obtain ⟨pieces, hr, hs⟩ := Token.exists_reads_escapeChars hends s.length s.toList (Nat.le_refl _) hd
  rw [List.append_nil] at hr
  refine exists_ofText_of_spells ?_ hs
  rwa [Text.escape, String.toList_ofList]

/-- An escaped text in a call of the macro `.` is an argument of texts that spell it, or it with a
blank before it. -/
theorem exists_ofText_call {s : String} (hd : ∀ c ∈ s.toList, c.isDigit = false) (hne : s ≠ "")
    (hp : '|' ∉ s.toList) : ∃ (tokens : List Token) (span around : Span),
      Node.ofText ("(. " ++ Text.escape s ++ ")") =
        .ok [.call "." [⟨0, tokens.map Token.plainNode, span⟩] around] ∧
      Text.strip (.ofList (tokens.flatMap (·.value.toList))) = Text.strip s := by
  have hcs : s.toList ≠ [] := by simpa using hne
  have hends : Token.EndsEscaped [')'] := fun c hc => by simpa using hc.symm
  obtain ⟨pieces, value, hr, hs, hvalue, hpipe, htrim⟩ := Token.exists_reads_argument hcs hp hends hd
  have hcall : Token.Lexes ('(' :: '.' :: ' ' :: (Text.escapeChars s.toList ++ [')']))
      [.token .openParen ['('] ['('], .token .identifier ['.'] ['.']] (' ' :: (Text.escapeChars s.toList ++ [')'])) :=
    .call ⟨rfl, List.forall_mem_singleton.2 rfl, by rintro _ ⟨⟩; rfl⟩ nofun
  have htext : ("(. " ++ Text.escape s ++ ")").toList =
      '(' :: '.' :: ' ' :: (Text.escapeChars s.toList ++ [')']) := by
    simp [Text.escape]
  have hreads := Token.Reads.step hcall (hr.append (.step .close (.refl [])))
  rw [← htext] at hreads
  have hscan := Token.scan_ok_iff.2 ⟨_, hreads, rfl⟩
  simp only [List.cons_append, List.nil_append, Token.place, Token.place_append, List.append_assoc] at hscan
  generalize (Position.first.advance ['(']).advance ['.'] = start at hscan
  obtain ⟨opener, name, closer, last, ho, hn, hdot, hc, hl, hscan⟩ : ∃ opener name closer last : Token,
      opener.kind = .openParen ∧ name.kind = .identifier ∧ name.value = "." ∧ closer.kind = .closeParen ∧
      last.kind = .endOfInput ∧ Token.scan ("(. " ++ Text.escape s ++ ")") =
        .ok (opener :: name :: (Token.place start pieces ++ [closer, last])) :=
    ⟨_, _, _, _, rfl, rfl, rfl, rfl, rfl, hscan⟩
  -- Something is spelled, so there is a token that spells it.
  have htokens : Token.place start pieces ≠ [] := by
    intro he
    have hv := hs.values start
    rw [he] at hv
    exact hvalue hv.symm
  obtain ⟨span, around, hparse⟩ :=
    Node.parse_call_of_isPlain htokens (hs.isPlain start) (hs.ne_pipe hpipe start) ho hn hc hl
  refine ⟨Token.place start pieces, span, around, ?_, ?_⟩
  · simp only [Node.ofText, hscan, hparse, hdot]
  · rw [hs.values, Text.strip, String.toList_ofList, htrim, Text.strip]

/-- A text that is written with escapes and has no digits is expanded to itself, in every document, and
changes nothing in it; put into a call of the macro `.`, it is compiled to itself, stripped, where there is
room for a call. -/
theorem expand_escape {s : String} (hd : ∀ c ∈ s.toList, c.isDigit = false) :
    (∃ nodes, Node.ofText (Text.escape s) = .ok nodes ∧
      ∀ (disk : Disk) (limit : Nat) (doc : Document), expand disk (limit + 1) nodes doc = (.ok s, doc)) ∧
    (s ≠ "" → '|' ∉ s.toList → ∀ (setting : Setting) (disk : Disk), 1 < setting.limit →
      compile setting disk ("(. " ++ Text.escape s ++ ")") = .ok (Text.strip s)) := by
  constructor
  · obtain ⟨tokens, hnodes, hvalues⟩ := exists_ofText_escape hd
    refine ⟨_, hnodes, fun disk limit doc => ?_⟩
    rw [expand_plainNode, hvalues, String.ofList_toList]
  · intro hne hp setting disk hl
    obtain ⟨tokens, span, around, hnodes, hstrip⟩ := exists_ofText_call hd hne hp
    have hnode := expandNode_dot (get?_dot_new setting.fileName ("(. " ++ Text.escape s ++ ")") setting.presets
      setting.modulePaths setting.now) disk (setting.limit - 2) tokens span around
    rw [Nat.sub_add_cancel hl] at hnode
    simp only [compile, hnodes, Setting.output, Setting.document, expand_cons_of_ok hnode]
    simp only [expand, Except.map, String.append_empty, hstrip, Text.strip_strip]

/-- What would be a call, a directive, an argument and an indented line stays as it is written. -/
theorem expand_escape_markup :
    let s := "(a b)\t#let x $y\r\n  \\ /z\r"
    (∀ c ∈ s.toList, c.isDigit = false) ∧ s ≠ "" ∧ '|' ∉ s.toList ∧
      Text.escape s = "\\(a\\sb\\)\\t\\#let\\sx\\s\\$y\r\\n\\s\\s\\\\\\s/z\r" ∧
      (∃ nodes, Node.ofText (Text.escape s) = .ok nodes ∧
        ∀ (disk : Disk) (limit : Nat) (doc : Document), expand disk (limit + 1) nodes doc = (.ok s, doc)) ∧
      ∀ disk : Disk, compile ⟨"", [], [], default, 2⟩ disk ("(. " ++ Text.escape s ++ ")") =
        .ok "(a b)\t#let x $y\r\n  \\ /z" := by
  intro s
  have hall : s.toList.all (fun c => !c.isDigit) = true := by decide +kernel
  have hd : ∀ c ∈ s.toList, c.isDigit = false := fun c hc => by simpa using List.all_eq_true.1 hall c hc
  have hne : s ≠ "" := by decide
  have hp : '|' ∉ s.toList := by decide
  have hescape : Text.escape s = "\\(a\\sb\\)\\t\\#let\\sx\\s\\$y\r\\n\\s\\s\\\\\\s/z\r" := by decide
  have hstrip : Text.strip s = "(a b)\t#let x $y\r\n  \\ /z" := by decide
  obtain ⟨hnodes, hcompile⟩ := expand_escape hd
  refine ⟨hd, hne, hp, hescape, hnodes, fun disk => ?_⟩
  rw [hcompile hne hp _ disk Nat.one_lt_two, hstrip]

end Document

end Markup
