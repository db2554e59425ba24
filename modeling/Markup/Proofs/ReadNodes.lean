/-
What every node that is read from a text is like.

Names are tokens of their own, made of name characters, so a node's names are, too; that
of a definition is not empty. A reference changes nothing, and no group stands outside of
a call (`asRead_of_ofText`). All this is kept along the run over the tokens: the constructs
being read have their names already (`Context.Named`), and what they hold is as it is read
(`State.Sound`).
-/
import Markup.Document.Import
import Markup.Proofs.HeldNodes
import Markup.Proofs.TokenTexts

namespace Markup

/-- Whether a text is made of name characters. -/
def IsName (name : String) : Prop := ∀ c ∈ name.toList, Text.isNameChar c = true

theorem IsName.strip {name : String} (h : IsName name) : IsName (Text.strip name) :=
  fun c hc => h c (Text.mem_of_mem_strip hc)

/-! ## Tokens -/

/-- Whether a token names by a name, if it names at all. -/
def Token.Names (t : Token) : Prop := t.kind ∈ [.identifier, .reference, .argument] → IsName t.value

theorem Token.Lexes.names {cs rest : List Char} {pieces : List Piece} (h : Lexes cs pieces rest) {kind : Kind}
    {value raw : List Char} (ht : .token kind value raw ∈ pieces) (span : Span) :
    Names ⟨kind, .ofList value, .ofList raw, span⟩ := by
  intro hk
  cases h with
  | call hn =>
    simp only [List.mem_cons, Piece.token.injEq, List.not_mem_nil, or_false] at ht
    rcases ht with ⟨rfl, rfl, rfl⟩ | ⟨rfl, rfl, rfl⟩
    · simp at hk
    · simpa [IsName] using hn.all
  | directive _ _ _ _ _ _ hi =>
    simp only [List.mem_cons, Piece.token.injEq, reduceCtorEq, List.not_mem_nil, false_or, or_false] at ht
    rcases ht with ⟨rfl, rfl, rfl⟩ | ⟨rfl, rfl, rfl⟩
    · simp at hk
    · simpa [IsName] using hi.all
  | argument hn | reference _ hn =>
    simp only [List.mem_cons, Piece.token.injEq, reduceCtorEq, List.not_mem_nil, or_false] at ht
    obtain ⟨rfl, rfl, rfl⟩ := ht
    simpa [IsName] using hn.all
  | dropped => simp at ht
  | escape | close | comment | hash | endWord | pipe | slash | number | text | blank =>
    simp only [List.mem_cons, Piece.token.injEq, reduceCtorEq, List.not_mem_nil, or_false] at ht
    obtain ⟨rfl, rfl, rfl⟩ := ht
    simp at hk

theorem Token.names_of_scan {text : String} {tokens : List Token} (h : scan text = .ok tokens) {t : Token}
    (ht : t ∈ tokens) : t.Names := by
  by_cases hk : t.kind = .endOfInput
  · simp [Names, hk]
  · obtain ⟨cs, pieces, rest, value, raw, start, hl, hm, he⟩ := mem_scan h ht hk
    rw [he]
    exact hl.names hm _

namespace Node

/-! ## Nodes -/

/-- Whether a definition may have a name and parameters. -/
structure IsSignature (name : String) (params : List String) : Prop where
  ne_empty : name ≠ ""
  isName : IsName name
  params : ∀ param ∈ params, IsName param

/-- Whether a node is as one that is read. -/
def AsRead : Node → Prop
  | .text .. | .number .. => True
  | .call name _ _ | .use name _ _ | .bind name _ _ _ => IsName name
  | .define name params _ _ => IsSignature name params
  | .reference name changes _ => IsName name ∧ changes = false
  | .stray _ => False

/-- Whether the names of the constructs being read are names. -/
def Context.Named : Context → Prop
  | .document _ => True
  | .call _ name _ _ _ outer => IsName name ∧ outer.Named
  | .define _ name params _ outer => IsSignature name params ∧ outer.Named
  | .line _ name _ _ outer => IsName name ∧ outer.Named

/-- The same of the construct of which the next token is a part. -/
def Mode.Named : Mode → Prop
  | .ready | .name _ _ | .blank _ => True
  | .params _ called given => IsSignature called given
  | .group _ called _ => IsName called

/-- Whether constructs have names and hold only what is as it is read. -/
structure Context.Sound (ctx : Context) : Prop where
  named : ctx.Named
  held : ∀ node, ctx.Holds node → node.AsRead

/-- The same of a state. -/
structure State.Sound (st : State) : Prop where
  named : st.context.Named
  mode : st.mode.Named
  held : ∀ node, st.Holds node → node.AsRead

variable {ctx : Context} {t : Token} {next : State}

theorem State.sound_ready (h : ctx.Sound) (lastStop : Position) : State.Sound ⟨ctx, .ready, lastStop⟩ :=
  ⟨h.named, trivial, fun node hn => h.held node (hn.resolve_right id)⟩

theorem Context.named_push (node : Node) (trimmable : Bool) : (ctx.push node trimmable).Named ↔ ctx.Named := by
  cases ctx <;> rfl

theorem Context.Sound.push (h : ctx.Sound) {node : Node} (hn : ∀ part ∈ node.preorder, part.AsRead) (trimmable : Bool) :
    (ctx.push node trimmable).Sound :=
  ⟨(named_push node trimmable).2 h.named, fun part hp => (holds_push.1 hp).elim (hn part) (h.held part)⟩

theorem asRead_bound {name : String} (hname : IsName name) {pieces : List Piece}
    (h : ∀ part ∈ preorderAll (pieces.map (·.node)), part.AsRead) (start stop : Position) (changes : Bool) :
    ∀ part ∈ (Context.bound start stop name changes pieces).preorder, part.AsRead := by
  intro part hp
  rw [Context.bound, preorder] at hp
  rcases List.mem_cons.1 hp with rfl | hp
  · exact hname
  · obtain ⟨top, htop, hp⟩ := mem_preorderAll_iff.1 hp
    obtain ⟨piece, hm, rfl⟩ := List.mem_map.1 htop
    cases cutFrom_of_mem_trimLine hm with
    | same hm =>
      exact h part (mem_preorderAll_iff.2 ⟨piece.node, List.mem_map_of_mem (List.mem_reverse.1 hm), hp⟩)
    | text _ he =>
      rw [he, preorder, List.mem_singleton] at hp
      rw [hp]
      trivial

theorem Context.Sound.closeLine (h : ctx.Sound) (stop : Position) : (ctx.closeLine stop).Sound := by
  cases ctx with
  | document | call | define => exact h
  | line start name changes pieces outer =>
    have houter : outer.Sound := ⟨h.named.2, fun node hn => h.held node (.inr hn)⟩
    exact houter.push (asRead_bound h.named.1 (fun part hp => h.held part (.inl hp)) start stop changes) false

theorem Context.sound_closeLinesWith (stop : Position) : ∀ {ctx : Context} {added : Option Node}, ctx.Sound →
    (∀ top ∈ added, ∀ part ∈ top.preorder, part.AsRead) → (closeLinesWith stop ctx added).Sound
  | .line start name changes pieces outer, added, h, hadded => by
    simp only [closeLinesWith]
    refine sound_closeLinesWith stop ⟨h.named.2, fun node hn => h.held node (.inr hn)⟩ ?_
    rintro _ ⟨⟩
    refine asRead_bound h.named.1 (fun part hp => ?_) start stop changes
    rw [List.map_append, preorderAll_append, List.mem_append] at hp
    rcases hp with hp | hp
    · cases added with
      | none => simp [preorderAll] at hp
      | some top => exact hadded top rfl part (by simpa [preorderAll] using hp)
    · exact h.held part (.inl hp)
  | .document _, none, h, _ | .call _ _ _ _ _ _, none, h, _ | .define _ _ _ _ _, none, h, _ => h
  | .document _, some top, h, hadded | .call _ _ _ _ _ _, some top, h, hadded
  | .define _ _ _ _ _, some top, h, hadded => h.push (hadded top rfl) false

theorem Context.Sound.closeLines (h : ctx.Sound) (stop : Position) : (ctx.closeLines stop).Sound :=
  sound_closeLinesWith stop h nofun

/-! ## One token -/

theorem asRead_leaf (ht : t.Names) {node : Node} {trimmable : Bool} (h : leaf? t = some (node, trimmable)) :
    ∀ part ∈ node.preorder, part.AsRead := by
  rw [preorder_of_leaf? h, List.forall_mem_singleton]
  obtain ⟨kind, value, raw, span⟩ := t
  cases kind with
  | keyword | identifier | comment | openParen | closeParen | endOfInput => cases h
  | reference => cases h; exact ⟨ht (by simp), rfl⟩
  | number | text | escape | hash | slash | pipe | argument => cases h; trivial

theorem Takes.sound {lastStop : Position} (h : Takes ctx lastStop t next) (ht : t.Names) (hc : ctx.Sound) :
    next.Sound := by
  have hclose := hc.closeLines lastStop
  cases h with
  | opens construct =>
    exact ⟨hc.named, trivial, fun node hn => hc.held node (hn.resolve_right id)⟩
  | skips => exact State.sound_ready hc _
  | leaf node trimmable hn => exact State.sound_ready (hc.push (asRead_leaf ht hn) trimmable) _
  | endsLine => exact State.sound_ready (hc.closeLine _) _
  | separates hk he =>
    rw [he] at hclose
    refine ⟨hclose.named.2, hclose.named.1, fun node hn => ?_⟩
    rcases hn with hn | hn
    · exact hclose.held node (.inr (.inr hn))
    · rcases mem_addGroup.1 hn with hn | hn
      · exact hclose.held node (.inl hn)
      · exact hclose.held node (.inr (.inl hn))
  | closesCall hk he =>
    rw [he] at hclose
    refine State.sound_ready (Context.Sound.push ⟨hclose.named.2, fun node hn => ?_⟩ (fun part hp => ?_) false) _
    · exact hclose.held node (.inr (.inr hn))
    · rw [preorder] at hp
      rcases List.mem_cons.1 hp with rfl | hp
      · exact hclose.named.1
      · rcases mem_closedGroups.1 hp with hp | hp
        · exact hclose.held part (.inl hp)
        · exact hclose.held part (.inr (.inl hp))
  | closesDefinition hk he =>
    rw [he] at hclose
    refine State.sound_ready (Context.Sound.push ⟨hclose.named.2, fun node hn => ?_⟩ (fun part hp => ?_) false) _
    · exact hclose.held node (.inr hn)
    · rw [preorder] at hp
      rcases List.mem_cons.1 hp with rfl | hp
      · exact hclose.named.1
      · exact hclose.held part (.inl (mem_preorderAll_reverse.1 hp))
  | ends hk he =>
    rw [he] at hclose
    exact State.sound_ready hclose _

theorem Begins.sound {construct : Named} {start : Position} (h : Begins ctx start t construct next)
    (ht : IsName t.value) (hc : ctx.Sound) : next.Sound := by
  have hready := State.sound_ready hc t.span.stop
  cases h with
  | blank => exact ⟨hc.named, trivial, hready.held⟩
  | call => exact ⟨hc.named, ht, fun node hn => hn.elim (hc.held node) (by simp [Group.preorderAll])⟩
  | use =>
    refine State.sound_ready (hc.push (fun part hp => ?_) false) _
    rw [preorder, List.mem_singleton] at hp
    rw [hp]
    exact ht.strip
  | define hb =>
    have hne : t.value ≠ "" := by
      intro he
      rw [he] at hb
      cases hb
    exact ⟨hc.named, ⟨hne, ht, List.forall_mem_nil _⟩, hready.held⟩
  | bind changes =>
    have hline : (Context.line start t.value changes [] ctx).Sound :=
      ⟨⟨ht, hc.named⟩, fun node hn => hc.held node (hn.resolve_left (by simp [preorderAll]))⟩
    exact State.sound_ready hline _

theorem State.Meets.sound {st : State} (hm : st.Meets t ctx) (h : st.Sound) : ctx.Sound := by
  have hmode := h.mode
  cases hm with
  | ready hm => exact ⟨h.named, fun node hn => h.held node (.inl hn)⟩
  | group hm =>
    rw [hm] at hmode
    refine ⟨⟨hmode, h.named⟩, fun node hn => h.held node ?_⟩
    rw [State.Holds, hm]
    simpa [Context.Holds, preorderAll, or_comm] using hn
  | body hm =>
    rw [hm] at hmode
    have hparams := hmode.params
    refine ⟨⟨⟨hmode.ne_empty, hmode.isName, by simpa using hparams⟩, h.named⟩, fun node hn => ?_⟩
    exact h.held node (.inl (hn.resolve_left (by simp [preorderAll])))

/-- A token keeps a state sound. -/
theorem State.Sound.step {st : State} (h : st.Sound) (hs : st.step t = .ok next) (ht : t.Names) : next.Sound := by
  have hmode := h.mode
  have hcontext : st.context.Sound := ⟨h.named, fun node hn => h.held node (.inl hn)⟩
  rcases State.step_cases hs with ⟨ctx, hm, htakes⟩ | ⟨construct, start, -, hk, hn⟩ |
    ⟨start, name, params, hm, hk, -, rfl⟩
  · exact htakes.sound ht (hm.sound h)
  · exact hn.sound (ht (by simp [hk])) hcontext
  · rw [hm] at hmode
    have hparams := List.forall_mem_cons.2 ⟨ht (by simp [hk]), hmode.params⟩
    refine ⟨h.named, ⟨hmode.ne_empty, hmode.isName, hparams⟩, fun node hn => ?_⟩
    exact hcontext.held node (hn.resolve_right id)

/-! ## A whole text -/

theorem State.Sound.of_run {nodes : List Node} : ∀ {tokens : List Token} {st : State}, st.Sound →
    (∀ t ∈ tokens, t.Names) → st.run tokens = .ok nodes → ∀ node ∈ preorderAll nodes, node.AsRead
  | [], st, h, _, hr => by
    obtain ⟨values, hs, rfl⟩ := State.exists_step_of_run_end rfl (st.run_nil ▸ hr)
    exact fun node hn => (h.step hs (by simp [Token.Names])).held node (.inl (mem_preorderAll_reverse.1 hn))
  | t :: rest, st, h, hnames, hr => by
    obtain ⟨ht, hrest⟩ := List.forall_mem_cons.1 hnames
    by_cases hk : t.kind = .endOfInput
    · obtain ⟨values, hs, rfl⟩ := State.exists_step_of_run_end hk hr
      exact fun node hn => (h.step hs ht).held node (.inl (mem_preorderAll_reverse.1 hn))
    · obtain ⟨next, hs, hr⟩ := (State.run_cons_ok_iff hk).1 hr
      exact of_run (h.step hs ht) hrest hr

theorem asRead_of_parse {text : String} {tokens : List Token} {nodes : List Node} (hs : Token.scan text = .ok tokens)
    (hp : parse tokens = .ok nodes) : ∀ node ∈ preorderAll nodes, node.AsRead := by
  have hstart : State.start.Sound := by
    refine ⟨trivial, trivial, fun node hn => ?_⟩
    simp [State.Holds, State.start, Context.Holds, preorderAll] at hn
  exact hstart.of_run (fun t ht => Token.names_of_scan hs ht) hp

theorem asRead_of_ofText {text : String} {nodes : List Node} (h : ofText text = .ok nodes) :
    ∀ node ∈ preorderAll nodes, node.AsRead := by
  obtain ⟨tokens, hs, hp⟩ := ofText_ok_iff.1 h
  exact asRead_of_parse hs hp

end Node

end Markup
