/-
The token lists that are documents, said without saying how they are read
(`WellFormed`).

Reading refuses a token by its shape alone (`State.shape_step`). A shape has
two parts that do not mix: the phase asks for names and parameters, and looks
at neighbours only (`Follows`); the brackets ask for every closing token to
meet its opening one (`Closes`), which is what nesting means
(`closes_iff_balanced`). Both are taken along the tokens at once in
`run_ok_iff`.
-/
import Markup.Proofs.BlankFacts
import Markup.Proofs.ParseShape

namespace Markup.Node

/-! ## Nesting -/

/-- A token of a bracket. -/
inductive Edge where
  | opening (b : Bracket)
  | closing (b : Bracket)
  deriving DecidableEq, Repr

/-- The edge that a token is: parentheses bound calls, `#def` and `#end` definitions. -/
def edge? (t : Token) : Option Edge :=
  match t.kind with
  | .openParen => some (.opening .call)
  | .closeParen => some (.closing .call)
  | .keyword .defWord => some (.opening .define)
  | .keyword .endWord => some (.closing .define)
  | _ => none

/-- The edges among tokens. -/
def edges (tokens : List Token) : List Edge := tokens.filterMap edge?

/-- Words of two kinds of brackets, each closed by its own kind. -/
inductive Balanced : List Edge → Prop where
  | nil : Balanced []
  | bracket (b : Bracket) {inner rest : List Edge} : Balanced inner → Balanced rest →
      Balanced (.opening b :: inner ++ .closing b :: rest)

theorem Balanced.append {u w : List Edge} (hu : Balanced u) (hw : Balanced w) : Balanced (u ++ w) := by
  induction hu with
  | nil => exact hw
  | @bracket b inner rest hi _ _ ih =>
    have h := Balanced.bracket b hi ih
    simpa using h

/-- Whether a word closes the open brackets, innermost first, and all that it opens itself. -/
def Closes : List Bracket → List Edge → Prop
  | brackets, [] => brackets = []
  | brackets, .opening b :: w => Closes (b :: brackets) w
  | [], .closing _ :: _ => False
  | b :: brackets, .closing c :: w => b = c ∧ Closes brackets w

/-- A word that first closes the given brackets one by one, and is balanced between. -/
def Unwinds : List Bracket → List Edge → Prop
  | [], w => Balanced w
  | b :: brackets, w => ∃ inner rest, w = inner ++ .closing b :: rest ∧ Balanced inner ∧
      Unwinds brackets rest

theorem Unwinds.prepend {u : List Edge} (hu : Balanced u) : ∀ {brackets : List Bracket} {w : List Edge},
    Unwinds brackets w → Unwinds brackets (u ++ w)
  | [], _, hw => Balanced.append hu hw
  | _ :: _, _, ⟨inner, rest, hw, hi, hr⟩ => by
    subst hw
    exact ⟨u ++ inner, rest, by simp, hu.append hi, hr⟩

theorem Closes.unwinds : ∀ {w : List Edge} {brackets : List Bracket}, Closes brackets w → Unwinds brackets w
  | [], brackets, h => by
    have hb : brackets = [] := by simpa only [Closes] using h
    subst hb
    exact .nil
  | .opening b :: w, brackets, h => by
    simp only [Closes] at h
    obtain ⟨inner, rest, rfl, hi, hr⟩ := Closes.unwinds h
    have h := hr.prepend (Balanced.bracket b hi .nil)
    simpa using h
  | .closing c :: w, [], h => by simp only [Closes] at h
  | .closing c :: w, b :: brackets, h => by
    simp only [Closes] at h
    obtain ⟨rfl, h⟩ := h
    exact ⟨[], w, rfl, .nil, Closes.unwinds h⟩

theorem Balanced.closes_append {u : List Edge} (hu : Balanced u) :
    ∀ (brackets : List Bracket) (w : List Edge), Closes brackets w → Closes brackets (u ++ w) := by
  induction hu with
  | nil => exact fun _ _ h => h
  | @bracket b inner rest _ _ ihi ihr =>
    intro brackets w h
    have hc : Closes (b :: brackets) (.closing b :: (rest ++ w)) := by
      simp only [Closes, true_and]
      exact ihr brackets w h
    have ho := ihi (b :: brackets) _ hc
    simpa [Closes] using ho

theorem closes_iff_balanced {w : List Edge} : Closes [] w ↔ Balanced w := by
  constructor
  · intro h
    exact h.unwinds
  · intro h
    have hc := h.closes_append [] [] (by simp only [Closes])
    simpa using hc

/-! ## Neighbours -/

/-- Whether the body of a definition may begin with a token. -/
def beginsBody (t : Token) : Bool :=
  t.kind == .text || t.kind == .escape || t.kind == .comment || t.kind == .keyword .endWord

/-- Whether a token may stand where a phase has been reached. A name that is asked for is none
if it is blank, except that of a call. -/
def Phase.Admits (t : Token) : Phase → Prop
  | .ready => t.kind ≠ .identifier
  | .name construct => t.kind = .identifier ∧ (construct = .call ∨ Text.isAllBlank t.value = false)
  | .blank _ => False
  | .params => (t.kind = .argument ∧ t.value ≠ "") ∨ beginsBody t = true

/-- The phase behind a token. -/
def Phase.after (t : Token) : Phase → Phase
  | .ready =>
    match t.kind.opens? with
    | some construct => .name construct
    | none => .ready
  | .name construct => if construct = .define then .params else .ready
  | .blank construct => .blank construct
  | .params => if t.kind = .argument then .params else .ready

/-- Whether every token may stand where it does, from a phase on. -/
def Follows : Phase → List Token → Prop
  | p, [] => p = .ready
  | p, t :: rest => p.Admits t ∧ Follows (p.after t) rest

/-! ## Shapes go on exactly where both parts do -/

theorem stepReady_ok_iff (brackets : List Bracket) (t : Token) (hi : t.kind ≠ .endOfInput)
    (P : Phase → Prop) (w : List Edge) :
    (∃ s, Shape.stepReady brackets t = .ok s ∧ P s.phase ∧ Closes s.brackets w) ↔
      Phase.ready.Admits t ∧ P (Phase.ready.after t) ∧ Closes brackets ((edge? t).toList ++ w) := by
  obtain ⟨kind, value, raw, span⟩ := t
  cases kind with
  | closeParen =>
    rcases brackets with _ | ⟨_ | _, outer⟩ <;>
      simp [Shape.stepReady, Phase.Admits, Phase.after, Token.Kind.opens?, edge?, Closes]
  | keyword word =>
    cases word with
    | endWord =>
      rcases brackets with _ | ⟨_ | _, outer⟩ <;>
        simp [Shape.stepReady, Phase.Admits, Phase.after, Token.Kind.opens?, edge?, Closes]
    | _ =>
      simp [Shape.stepReady, Phase.Admits, Phase.after, Token.Kind.opens?, Named.bracket?, edge?, Closes]
  | endOfInput => exact absurd rfl hi
  | _ => simp [Shape.stepReady, Phase.Admits, Phase.after, Token.Kind.opens?, Named.bracket?, edge?, Closes]

theorem not_follows_blank (construct : Named) : ∀ tokens : List Token, ¬ Follows (.blank construct) tokens
  | [], h => by cases h
  | _ :: _, h => h.1

theorem stepName_ok_iff (brackets : List Bracket) (construct : Named) (t : Token) (rest : List Token)
    (w : List Edge) :
    (Follows (Shape.stepName brackets construct t).phase rest ∧
        Closes (Shape.stepName brackets construct t).brackets w) ↔
      (construct = .call ∨ Text.isAllBlank t.value = false) ∧
        Follows (if construct = .define then .params else .ready) rest ∧ Closes brackets w := by
  cases construct with
  | call => simp [Shape.stepName]
  | use | define | bind =>
    cases hb : Text.isAllBlank t.value <;> simp [Shape.stepName, hb, not_follows_blank]

theorem step_ok_iff (s : Shape) (t : Token) (hi : t.kind ≠ .endOfInput) (rest : List Token)
    (w : List Edge) :
    (∃ next, s.step t = .ok next ∧ Follows next.phase rest ∧ Closes next.brackets w) ↔
      Follows s.phase (t :: rest) ∧ Closes s.brackets ((edge? t).toList ++ w) := by
  obtain ⟨brackets, phase⟩ := s
  have hr := stepReady_ok_iff brackets t hi (Follows · rest) w
  cases phase with
  | ready => simpa only [Shape.step, Follows, and_assoc] using hr
  | name construct =>
    by_cases hk : t.kind = .identifier
    · have he : edge? t = none := by simp [edge?, hk]
      have hn := stepName_ok_iff brackets construct t rest w
      simpa [Shape.step, Follows, Phase.Admits, Phase.after, hk, he, and_assoc] using hn
    · simp [Shape.step, Follows, Phase.Admits, hk]
  | blank construct => simp [Shape.step, Follows, Phase.Admits]
  | params =>
    obtain ⟨kind, value, raw, span⟩ := t
    cases kind with
    | argument =>
      by_cases hv : value = "" <;>
        simp [Shape.step, Follows, Phase.Admits, Phase.after, beginsBody, edge?, hv]
    | text | escape | comment =>
      simpa [Shape.step, Follows, Phase.Admits, Phase.after, Token.Kind.opens?, beginsBody] using hr
    | keyword word =>
      cases word with
      | endWord => simpa [Shape.step, Follows, Phase.Admits, Phase.after, Token.Kind.opens?, beginsBody] using hr
      | _ => simp [Shape.step, Follows, Phase.Admits, beginsBody]
    | _ => simp [Shape.step, Follows, Phase.Admits, beginsBody]

/-- The end of the text, behind tokens without an end. -/
theorem step_end_ok_iff (s : Shape) {t : Token} (hi : t.kind = .endOfInput) :
    (∃ next, s.step t = .ok next) ↔ Follows s.phase [t] ∧ Closes s.brackets [] := by
  obtain ⟨brackets, phase⟩ := s
  cases phase with
  | ready =>
    cases brackets <;>
      simp [Shape.step, Shape.stepReady, hi, Follows, Phase.Admits, Phase.after, Token.Kind.opens?, Closes]
  | name | blank | params => simp [Shape.step, hi, Follows, Phase.Admits, beginsBody]

theorem State.exists_step_iff (st : State) (t : Token) (Q : Shape → Prop) :
    (∃ next, st.step t = .ok next ∧ Q next.shape) ↔ ∃ s, st.shape.step t = .ok s ∧ Q s := by
  rw [← State.shape_step]
  cases st.step t <;> simp [Except.map]

theorem run_ok_iff {last : Token} (hl : last.kind = .endOfInput) :
    ∀ (tokens : List Token) (st : State), (∀ t ∈ tokens, t.kind ≠ .endOfInput) →
      ((∃ nodes, st.run (tokens ++ [last]) = .ok nodes) ↔
        Follows st.shape.phase (tokens ++ [last]) ∧ Closes st.shape.brackets (edges tokens))
  | [], st, _ => by
    have hs := State.exists_step_iff st last fun _ => True
    rw [show edges [] = [] from rfl, List.nil_append, ← step_end_ok_iff st.shape hl]
    simp only [and_true] at hs
    rw [← hs]
    simp only [State.run, hl, if_true]
    cases st.step last <;> simp
  | t :: rest, st, h => by
    have ht := h t (by simp)
    have hrest := fun u hu => h u (List.mem_cons_of_mem t hu)
    rw [show edges (t :: rest) = (edge? t).toList ++ edges rest by
        cases he : edge? t <;> simp [edges, he], List.cons_append,
      ← step_ok_iff st.shape t ht (rest ++ [last]) (edges rest),
      ← State.exists_step_iff st t fun s => Follows s.phase (rest ++ [last]) ∧ Closes s.brackets (edges rest)]
    simp only [State.run, ht, if_false]
    cases st.step t with
    | error e => simp
    | ok next => simpa using run_ok_iff hl rest next hrest

/-! ## What the neighbours of a token have to be -/

/-- Whether a token is `#let`, `#set`, `#use` or `#def`. -/
def isDirective (t : Token) : Bool :=
  t.kind == .keyword .letWord || t.kind == .keyword .setWord || t.kind == .keyword .useWord ||
    t.kind == .keyword .defWord

/-- Whether a name has to stand behind a token. -/
def takesName (t : Token) : Bool := t.kind == .openParen || isDirective t

/-- Whether tokens begin with parameters that have names, and then with a body. -/
def BeginsWithParams (tokens : List Token) : Prop :=
  (∀ a ∈ tokens.takeWhile isArgument, a.value ≠ "") ∧
    ∃ t, (tokens.dropWhile isArgument).head? = some t ∧ beginsBody t = true

/-- What makes tokens a document. -/
structure WellFormed (tokens : List Token) : Prop where
  first : ∀ t, tokens.head? = some t → t.kind ≠ .identifier
  /-- A name stands behind the tokens that take one, and nowhere else. -/
  names : ∀ o rest, o :: rest <:+ tokens →
    (takesName o = true ↔ ∃ n, rest.head? = some n ∧ n.kind = .identifier)
  notBlank : ∀ o n rest, o :: n :: rest <:+ tokens → isDirective o = true → Text.strip n.value ≠ ""
  nested : Balanced (edges tokens)
  params : ∀ d n rest, d :: n :: rest <:+ tokens → d.kind = .keyword .defWord → BeginsWithParams rest

theorem takesName_eq (t : Token) : takesName t = t.kind.opens?.isSome := by
  obtain ⟨kind, value, raw, span⟩ := t
  cases kind with
  | keyword word => cases word <;> rfl
  | _ => rfl

theorem isDirective_iff {t : Token} {construct : Named} (h : t.kind.opens? = some construct) :
    isDirective t = true ↔ construct ≠ .call := by
  have hk := opens?_eq_some_iff.1 h
  rcases construct with _ | _ | _ | ⟨_ | _⟩ <;> simp [isDirective, hk, Named.opener]

/-! ### From phases to neighbours -/

theorem Follows.suffix {tokens part : List Token} (hp : part <:+ tokens) :
    ∀ {p : Phase}, Follows p tokens → ∃ q, Follows q part := by
  induction tokens with
  | nil =>
    intro p h
    rw [List.suffix_nil] at hp
    exact ⟨p, hp ▸ h⟩
  | cons t rest ih =>
    intro p h
    rcases List.suffix_cons_iff.1 hp with rfl | hp
    · exact ⟨p, h⟩
    · exact ih hp h.2

theorem Phase.after_eq_name_iff {p : Phase} {t : Token} (h : p.Admits t) (construct : Named) :
    p.after t = .name construct ↔ t.kind.opens? = some construct := by
  cases p with
  | ready => simp only [Phase.after]; split <;> simp_all
  | name c =>
    have hk := h.1
    simp only [Phase.after, hk, Token.Kind.opens?]
    split <;> simp
  | blank => exact h.elim
  | params =>
    have ho : t.kind.opens? = none := by
      obtain ⟨kind, value, raw, span⟩ := t
      cases kind with
      | keyword word => cases word <;> simp_all [Phase.Admits, beginsBody, Token.Kind.opens?]
      | _ => simp_all [Phase.Admits, beginsBody, Token.Kind.opens?]
    simp only [Phase.after, ho]
    split <;> simp

theorem Follows.identifier_iff {p : Phase} {t : Token} {rest : List Token} (h : Follows p (t :: rest)) :
    t.kind = .identifier ↔ ∃ construct, p = .name construct := by
  have ha := h.1
  cases p with
  | ready => simp_all [Phase.Admits]
  | name c => simp [ha.1]
  | blank => exact ha.elim
  | params =>
    rcases ha with ⟨hk, -⟩ | hb
    · simp [hk]
    · simp only [reduceCtorEq, exists_false, iff_false]
      intro hk
      simp [beginsBody, hk] at hb

theorem Follows.names {p : Phase} {o : Token} {rest : List Token} (h : Follows p (o :: rest)) :
    takesName o = true ↔ ∃ n, rest.head? = some n ∧ n.kind = .identifier := by
  rw [takesName_eq, Option.isSome_iff_exists]
  simp only [← Phase.after_eq_name_iff h.1]
  cases rest with
  | nil =>
    have hr : p.after o = .ready := h.2
    simp [hr]
  | cons n rest => simp [← Follows.identifier_iff h.2]

theorem Follows.beginsWithParams : ∀ {tokens : List Token}, Follows .params tokens → BeginsWithParams tokens
  | [], h => by cases h
  | t :: rest, h => by
    rcases h.1 with ⟨hk, hv⟩ | hb
    · have ha : isArgument t = true := by simp [isArgument, hk]
      have hr : Follows .params rest := by simpa [Phase.after, hk] using h.2
      obtain ⟨h1, h2⟩ := Follows.beginsWithParams hr
      refine ⟨?_, ?_⟩
      · simpa [List.takeWhile_cons, ha] using ⟨hv, h1⟩
      · simpa [List.dropWhile_cons, ha] using h2
    · have ha : isArgument t = false := by
        cases hk : isArgument t with
        | false => rfl
        | true => simp only [isArgument, beq_iff_eq] at hk; simp [beginsBody, hk] at hb
      exact ⟨by simp [ha], t, by simp [ha], hb⟩

theorem Follows.notBlank {p : Phase} {o n : Token} {rest : List Token} (h : Follows p (o :: n :: rest))
    (hd : isDirective o = true) : Text.strip n.value ≠ "" := by
  have ho : o.kind.opens?.isSome = true := by
    rw [← takesName_eq, takesName, hd, Bool.or_true]
  obtain ⟨construct, hc⟩ := Option.isSome_iff_exists.1 ho
  have hn : Phase.Admits n (.name construct) := by
    rw [← (Phase.after_eq_name_iff h.1 construct).2 hc]
    exact h.2.1
  rcases hn.2 with rfl | hb
  · exact absurd rfl ((isDirective_iff hc).1 hd)
  · rw [Ne, Text.strip_eq_empty_iff, hb]
    simp

theorem Follows.params {p : Phase} {d n : Token} {rest : List Token} (h : Follows p (d :: n :: rest))
    (hd : d.kind = .keyword .defWord) : BeginsWithParams rest := by
  have hn : p.after d = .name .define :=
    (Phase.after_eq_name_iff h.1 .define).2 (opens?_eq_some_iff.2 hd)
  have hr := h.2.2
  rw [hn] at hr
  exact Follows.beginsWithParams hr

/-! ### From neighbours to phases -/

/-- What the tokens behind a place have to be, as far as the phase there decides it. -/
def Phase.Expects (tokens : List Token) : Phase → Prop
  | .ready => ∀ t, tokens.head? = some t → t.kind ≠ .identifier
  | .name construct => ∃ n rest, tokens = n :: rest ∧ Phase.Admits n (.name construct) ∧
      (construct = .define → BeginsWithParams rest)
  | .blank _ => False
  | .params => BeginsWithParams tokens

theorem Phase.eq_ready_of_expects_nil {p : Phase} (h : p.Expects []) : p = .ready := by
  cases p with
  | ready => rfl
  | name => obtain ⟨n, rest, hn, -⟩ := h; cases hn
  | blank => exact h.elim
  | params => obtain ⟨-, t, ht, -⟩ := h; cases ht

theorem BeginsWithParams.cons {t : Token} {rest : List Token} (h : BeginsWithParams (t :: rest)) :
    (t.kind = .argument ∧ t.value ≠ "" ∧ BeginsWithParams rest) ∨
      (t.kind ≠ .argument ∧ beginsBody t = true) := by
  obtain ⟨h1, u, hu, hb⟩ := h
  cases ha : isArgument t with
  | true =>
    simp only [List.takeWhile_cons, List.dropWhile_cons, ha, if_true, List.mem_cons, forall_eq_or_imp] at h1 hu
    exact .inl ⟨by simpa [isArgument] using ha, h1.1, h1.2, u, hu, hb⟩
  | false =>
    simp only [List.dropWhile_cons, ha, Bool.false_eq_true, if_false, List.head?_cons, Option.some.injEq] at hu
    subst hu
    exact .inr ⟨by simpa [isArgument] using ha, hb⟩

theorem not_takesName_of_beginsBody {t : Token} (h : beginsBody t = true) : takesName t = false := by
  obtain ⟨kind, value, raw, span⟩ := t
  cases kind with
  | keyword word => cases word <;> simp_all [beginsBody, takesName, isDirective]
  | _ => simp_all [beginsBody, takesName, isDirective]

/-- The neighbours of the first token put it in place, and what they ask of the rest is what the
phase behind it asks. -/
theorem Phase.Expects.cons {p : Phase} {t : Token} {rest : List Token} (h : p.Expects (t :: rest))
    (hn : takesName t = true ↔ ∃ n, rest.head? = some n ∧ n.kind = .identifier)
    (hb : ∀ n rest', rest = n :: rest' → isDirective t = true → Text.strip n.value ≠ "")
    (hp : ∀ n rest', rest = n :: rest' → t.kind = .keyword .defWord → BeginsWithParams rest') :
    p.Admits t ∧ (p.after t).Expects rest := by
  have hready : takesName t = false → Phase.ready.Expects rest := by
    intro hf n hh hk
    exact absurd (hn.2 ⟨n, hh, hk⟩) (by simp [hf])
  cases p with
  | ready =>
    refine ⟨h t rfl, ?_⟩
    simp only [Phase.after]
    split
    next construct hc =>
      have ht : takesName t = true := by rw [takesName_eq, hc]; rfl
      obtain ⟨n, hh, hk⟩ := hn.1 ht
      obtain ⟨rest', rfl⟩ := List.head?_eq_some_iff.1 hh
      refine ⟨n, rest', rfl, ⟨hk, ?_⟩, ?_⟩
      · by_cases hcall : construct = .call
        · exact .inl hcall
        · have hs := hb n rest' rfl ((isDirective_iff hc).2 hcall)
          rw [Ne, Text.strip_eq_empty_iff, Bool.not_eq_true] at hs
          exact .inr hs
      · rintro rfl
        exact hp n rest' rfl (opens?_eq_some_iff.1 hc)
    next hc => exact hready (by rw [takesName_eq, hc]; rfl)
  | name construct =>
    obtain ⟨n, rest', heq, ha, hd⟩ := h
    cases heq
    refine ⟨ha, ?_⟩
    simp only [Phase.after]
    split
    next hdef => exact hd hdef
    next => exact hready (by simp [takesName, isDirective, ha.1])
  | blank => exact h.elim
  | params =>
    rcases BeginsWithParams.cons h with ⟨hk, hv, hr⟩ | ⟨hk, hbody⟩
    · refine ⟨.inl ⟨hk, hv⟩, ?_⟩
      simpa [Phase.after, Phase.Expects, hk] using hr
    · refine ⟨.inr hbody, ?_⟩
      simpa [Phase.after, hk] using hready (not_takesName_of_beginsBody hbody)

theorem follows_of_expects : ∀ {tokens : List Token} {p : Phase}, p.Expects tokens →
    (∀ o rest, o :: rest <:+ tokens →
      (takesName o = true ↔ ∃ n, rest.head? = some n ∧ n.kind = .identifier)) →
    (∀ o n rest, o :: n :: rest <:+ tokens → isDirective o = true → Text.strip n.value ≠ "") →
    (∀ d n rest, d :: n :: rest <:+ tokens → d.kind = .keyword .defWord → BeginsWithParams rest) →
    Follows p tokens
  | [], p, h, _, _, _ => Phase.eq_ready_of_expects_nil h
  | t :: rest, p, h, hn, hb, hp => by
    have hself := List.suffix_refl (t :: rest)
    obtain ⟨ha, hr⟩ := h.cons (hn t rest hself) (fun n rest' he => hb t n rest' (he ▸ hself))
      (fun n rest' he => hp t n rest' (he ▸ hself))
    have htail : ∀ {part : List Token}, part <:+ rest → part <:+ t :: rest :=
      fun hs => hs.trans (List.suffix_cons t rest)
    exact ⟨ha, follows_of_expects hr (fun o r hs => hn o r (htail hs)) (fun o n r hs => hb o n r (htail hs))
      (fun d n r hs => hp d n r (htail hs))⟩

theorem follows_ready_iff {tokens : List Token} :
    (Follows .ready tokens ∧ Balanced (edges tokens)) ↔ WellFormed tokens := by
  constructor
  · rintro ⟨h, hnest⟩
    refine ⟨?_, ?_, ?_, hnest, ?_⟩
    · intro t ht
      obtain ⟨rest, rfl⟩ := List.head?_eq_some_iff.1 ht
      exact h.1
    · intro o rest hs
      obtain ⟨q, hq⟩ := h.suffix hs
      exact hq.names
    · intro o n rest hs
      obtain ⟨q, hq⟩ := h.suffix hs
      exact hq.notBlank
    · intro d n rest hs
      obtain ⟨q, hq⟩ := h.suffix hs
      exact hq.params
  · intro h
    exact ⟨follows_of_expects h.first h.names h.notBlank h.params, h.nested⟩

/-! ## Documents -/

/-- Tokens that end with their only mark of the end can be read exactly if they are well formed. -/
theorem parse_ok_iff_wellFormed (tokens : List Token) (last : Token) (hl : last.kind = .endOfInput)
    (ho : ∀ t ∈ tokens, t.kind ≠ .endOfInput) :
    (∃ nodes, parse (tokens ++ [last]) = .ok nodes) ↔ WellFormed (tokens ++ [last]) := by
  have he : edges (tokens ++ [last]) = edges tokens := by simp [edges, edge?, hl]
  rw [parse, run_ok_iff hl tokens State.start ho, ← follows_ready_iff, he, ← closes_iff_balanced]
  rfl

/-- A definition in a value in a call: its parameter, its comment and its pipe are in place. -/
theorem wellFormed_definition_in_value : WellFormed ([⟨.openParen, "(", "(", .builtIn⟩,
    ⟨.identifier, "f", "f", .builtIn⟩, ⟨.keyword .letWord, "let", "#let", .builtIn⟩,
    ⟨.identifier, "a", "a", .builtIn⟩, ⟨.keyword .defWord, "def", "#def", .builtIn⟩,
    ⟨.identifier, "m", "m", .builtIn⟩, ⟨.argument, "p", "$p", .builtIn⟩,
    ⟨.comment, "c", "#! c", .builtIn⟩, ⟨.pipe, "|", "|", .builtIn⟩,
    ⟨.keyword .endWord, "end", "#end", .builtIn⟩, ⟨.pipe, "|", "|", .builtIn⟩,
    ⟨.closeParen, ")", ")", .builtIn⟩] ++ [⟨.endOfInput, "", "", .builtIn⟩]) :=
  (parse_ok_iff_wellFormed _ _ rfl (by decide)).1 ⟨_, rfl⟩

end Markup.Node
