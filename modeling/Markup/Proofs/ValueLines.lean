/-
The value of a variable and the line it begins on.

A value ends at the first newline that stands in it as plain text or behind a comment.
What keeps a newline from being met there is said by `Swallows`: it lies in a call or a
definition, or in a variable that is given inside of the value, which has its line end
for itself, or only blanks lead to it from an argument, which passes over them. So every
newline between the start of a variable and a node of its value is swallowed by another
node of the value (`newlines_in_value_swallowed`).

An invariant of reading carries this: of every value being read, the newlines up to the
next token are swallowed by what it holds, or lie behind where the construct in it begins
(`Context.OnLines`).
-/
import Mathlib.Data.List.Chain
import Markup.Proofs.HeldNodes
import Markup.Proofs.SpanOrder
import Markup.Proofs.TokenEdges

namespace Markup.Node

/-- Whether all characters from one place up to another and at it are blank. -/
def BlankThrough (text : List Char) (start : Int) (last : Nat) : Prop :=
  ∀ (i : Nat) c, text[i]? = some c → start ≤ i → i ≤ last → Text.isBlank c = true

/-- Whether a node of a value keeps a newline from ending the value. -/
inductive Swallows (text : List Char) (i : Nat) : Node → Prop where
  | call {name groups} {span : Span} : span.start.offset ≤ i → i < span.stop.offset →
      Swallows text i (.call name groups span)
  | define {name params body} {span : Span} : span.start.offset ≤ i → i < span.stop.offset →
      Swallows text i (.define name params body span)
  /-- The newline lies in the other variable or ends it. -/
  | bind {name changes value} {span : Span} : span.start.offset ≤ i → BlankThrough text span.stop.offset i →
      Swallows text i (.bind name changes value span)
  /-- The newline is passed over behind a `$` and a name. -/
  | argument {value} {span : Span} : text[span.start.offset.toNat]? = some '$' → span.start.offset ≤ i →
      BlankThrough text span.stop.offset i → Swallows text i (.text value span)

/-- Whether every newline between the start of a variable and a node of its value is swallowed. -/
def OnLine (text : List Char) : Node → Prop
  | .bind _ _ value span => ∀ node ∈ value, ∀ i : Nat, text[i]? = some '\n' → span.start.offset ≤ i →
      i < node.span.start.offset → ∃ other ∈ value, Swallows text i other
  | _ => True

/-- Whether all newlines from one place up to another are swallowed by pieces that stay. -/
def Covers (text : List Char) (start stop : Int) (pieces : List Piece) : Prop :=
  ∀ i : Nat, text[i]? = some '\n' → start ≤ i → i < stop →
    ∃ piece ∈ pieces, piece.trimmable = false ∧ Swallows text i piece.node

/-- Whether the constructs being read, come to a place, keep to their lines, and so does all that they hold.
What stands around a construct has come to where that begins. -/
def Context.OnLines (text : List Char) : Context → Int → Prop
  | .document values, _ => ∀ node ∈ preorderAll values, node.OnLine text
  | .call start _ groups _ values outer, place => (∀ node ∈ Group.preorderAll groups, node.OnLine text) ∧
      (∀ node ∈ preorderAll values, node.OnLine text) ∧ start.offset ≤ place ∧ outer.OnLines text start.offset
  | .define start _ _ values outer, place => (∀ node ∈ preorderAll values, node.OnLine text) ∧
      start.offset ≤ place ∧ outer.OnLines text start.offset
  | .line start _ _ pieces outer, place => (∀ piece ∈ pieces, (∀ node ∈ piece.node.preorder, node.OnLine text) ∧
        piece.node.span.start.offset ≤ place) ∧
      Covers text start.offset place pieces ∧ start.offset ≤ place ∧ outer.OnLines text start.offset

/-- Whether a state, come to a place, keeps to its lines. -/
def State.OnLines (text : List Char) (st : State) (place : Int) : Prop :=
  match st.mode with
  | .ready => st.context.OnLines text place
  | .name _ start => Covers text start.offset place [] ∧ start.offset ≤ place ∧ st.context.OnLines text start.offset
  | .blank _ => True
  | .params start _ _ => start.offset ≤ place ∧ st.context.OnLines text start.offset
  | .group start _ groups => (∀ node ∈ Group.preorderAll groups, node.OnLine text) ∧
      start.offset ≤ place ∧ st.context.OnLines text start.offset

section

variable {text : List Char} {start stop place : Position} {pieces : List Piece} {ctx : Context}

theorem Covers.mono {more : List Piece} {a b : Int} (h : Covers text a b pieces) (hs : pieces ⊆ more) :
    Covers text a b more := by
  intro i hi ha hb
  obtain ⟨piece, hp, hstays⟩ := h i hi ha hb
  exact ⟨piece, hs hp, hstays⟩

theorem Covers.append {a b c : Int} (h : Covers text a b pieces) (k : Covers text b c pieces) :
    Covers text a c pieces := by
  intro i hi ha hc
  by_cases hb : i < b
  · exact h i hi ha hb
  · exact k i hi (by omega) hc

/-! ## A value that ends -/

theorem span_of_cutFrom {piece : Piece} (h : CutFrom pieces piece) :
    ∃ other ∈ pieces, other.node.span = piece.node.span := by
  cases h with
  | same hm => exact ⟨piece, hm, rfl⟩
  | text hm he => exact ⟨_, hm, by rw [he]; rfl⟩

/-- A value keeps to its line if the newlines up to where it ends are covered. -/
theorem onLine_bound {q : Int} (hp : ∀ piece ∈ pieces, piece.node.span.start.offset ≤ q)
    (hc : Covers text start.offset q pieces) (name : String) (changes : Bool) :
    (Context.bound start stop name changes pieces).OnLine text := by
  intro node hn i hi hs hlt
  obtain ⟨piece, hm, rfl⟩ := List.mem_map.1 hn
  obtain ⟨other, ho, hspan⟩ := span_of_cutFrom (cutFrom_of_mem_trimLine hm)
  have hle := hp other (List.mem_reverse.1 ho)
  rw [hspan] at hle
  obtain ⟨swallower, hw, hstays, hswallows⟩ := hc i hi hs (by omega)
  -- Cutting the edges may drop plain text, but it keeps the piece that swallows.
  have hstays : ∀ value span, swallower ≠ ⟨.text value span, true⟩ := by
    rintro value span rfl
    cases hstays
  exact ⟨swallower.node, List.mem_map_of_mem (mem_trimLine_of_ne hstays (List.mem_reverse.2 hw)), hswallows⟩

/-- What is in a value was in its pieces, or is text. -/
theorem onLine_of_mem_bound {name : String} {changes : Bool}
    (hb : (Context.bound start stop name changes pieces).OnLine text)
    (hp : ∀ piece ∈ pieces, ∀ node ∈ piece.node.preorder, node.OnLine text) :
    ∀ node ∈ (Context.bound start stop name changes pieces).preorder, node.OnLine text := by
  intro node hn
  rw [Context.bound, preorder] at hn
  rcases List.mem_cons.1 hn with rfl | hn
  · exact hb
  · obtain ⟨top, htop, hn⟩ := mem_preorderAll_iff.1 hn
    obtain ⟨piece, hm, rfl⟩ := List.mem_map.1 htop
    cases cutFrom_of_mem_trimLine hm with
    | same hm => exact hp piece (List.mem_reverse.1 hm) node hn
    | text hm he =>
      rw [he, preorder, List.mem_singleton] at hn
      rw [hn]
      trivial

theorem Context.OnLines.mono {q r : Int} (h : ctx.OnLines text q) (hl : ctx.isLine = false) (hq : q ≤ r) :
    ctx.OnLines text r := by
  cases ctx with
  | document => exact h
  | call => exact ⟨h.1, h.2.1, Int.le_trans h.2.2.1 hq, h.2.2.2⟩
  | define => exact ⟨h.1, Int.le_trans h.2.1 hq, h.2.2⟩
  | line => cases hl

/-- A node goes on with a construct, where the newlines up to the next token are in it or behind it. -/
theorem Context.OnLines.push {q r : Int} (h : ctx.OnLines text q) {node : Node} {trimmable : Bool}
    (hn : ∀ part ∈ node.preorder, part.OnLine text) (hq : q ≤ r) (hs : node.span.start.offset ≤ r)
    (hc : ctx.isLine = true → Covers text q r [⟨node, trimmable⟩]) : (ctx.push node trimmable).OnLines text r := by
  cases ctx with
  | document values =>
    intro part hp
    rw [preorderAll, List.mem_append] at hp
    exact hp.elim (hn part) (h part)
  | call start name groups groupStart values outer =>
    refine ⟨h.1, ?_, Int.le_trans h.2.2.1 hq, h.2.2.2⟩
    intro part hp
    rw [preorderAll, List.mem_append] at hp
    exact hp.elim (hn part) (h.2.1 part)
  | define start name params values outer =>
    refine ⟨?_, Int.le_trans h.2.1 hq, h.2.2⟩
    intro part hp
    rw [preorderAll, List.mem_append] at hp
    exact hp.elim (hn part) (h.1 part)
  | line start name changes pieces outer =>
    refine ⟨List.forall_mem_cons.2 ⟨⟨hn, hs⟩, ?_⟩, ?_, Int.le_trans h.2.2.1 hq, h.2.2.2⟩
    · intro piece hp
      obtain ⟨hparts, hle⟩ := h.1 piece hp
      exact ⟨hparts, by omega⟩
    · exact (h.2.1.mono (List.subset_cons_self _ _)).append
        ((hc rfl).mono (List.cons_subset.2 ⟨List.mem_cons_self, List.nil_subset _⟩))

/-- The variable that a value being read gives, when it ends, keeps to its line. -/
theorem onLine_of_line {name : String} {changes : Bool} {outer : Context} {q : Int}
    (h : (Context.line start name changes pieces outer).OnLines text q) (stop : Position) :
    ∀ node ∈ (Context.bound start stop name changes pieces).preorder, node.OnLine text :=
  onLine_of_mem_bound (onLine_bound (fun piece hp => (h.1 piece hp).2) h.2.1 name changes)
    fun piece hp => (h.1 piece hp).1

/-- Ending all values leaves a construct that keeps to its lines, as its values do. -/
theorem Context.onLines_closeLinesWith (stop : Position) : ∀ {ctx : Context} {added : Option Node} {q : Int},
    ctx.OnLines text q → (∀ top ∈ added, (∀ node ∈ top.preorder, node.OnLine text) ∧ top.span.start.offset ≤ q) →
    (closeLinesWith stop ctx added).OnLines text q
  | .line start name changes pieces outer, added, q, h, ha => by
    have hmore : (Context.line start name changes ((added.map (⟨·, false⟩)).toList ++ pieces) outer).OnLines
        text q := by
      refine ⟨?_, h.2.1.mono (List.subset_append_right _ _), h.2.2⟩
      intro piece hp
      rcases List.mem_append.1 hp with hp | hp
      · rw [Option.mem_toList, Option.map_eq_some_iff] at hp
        obtain ⟨top, ht, rfl⟩ := hp
        exact ha top ht
      · exact h.1 piece hp
    have hbound := onLine_of_line hmore stop
    simp only [closeLinesWith]
    refine OnLines.mono (onLines_closeLinesWith stop h.2.2.2 ?_) (isLine_closeLinesWith stop _ _) h.2.2.1
    rintro _ ⟨⟩
    exact ⟨hbound, Int.le_refl _⟩
  | .document _, none, q, h, _ | .call _ _ _ _ _ _, none, q, h, _ | .define _ _ _ _ _, none, q, h, _ => h
  | .document _, some top, q, h, ha | .call _ _ _ _ _ _, some top, q, h, ha | .define _ _ _ _ _, some top, q, h, ha =>
    OnLines.push h (ha top rfl).1 (Int.le_refl q) (ha top rfl).2 nofun

theorem Context.OnLines.closeLines {q : Int} (h : ctx.OnLines text q) (stop : Position) :
    (ctx.closeLines stop).OnLines text q :=
  onLines_closeLinesWith stop h nofun

/-! ## One token -/

variable {t : Token} {next : State} {q : Int}

/-- Where a token holds no newline and passes over none, there is none up to the next one. -/
theorem covers_nil_of_runsUpTo (ht : t.RunsUpTo text q) (hl : endsLine t = false) (ha : t.kind ≠ .argument)
    (hc : t.kind ≠ .comment) : Covers text t.span.start.offset q [] := by
  intro i hi hs hq
  by_cases hin : i < t.span.stop.offset
  · obtain ⟨hk, hv⟩ := ht.inside i hi hs hin
    simp [endsLine, hk, hv] at hl
  · rcases (ht.behind i '\n' hi (by omega) hq).2 rfl with hk | hk
    · exact absurd hk ha
    · exact absurd hk hc

/-- A token that is a node by itself covers what it passes over. -/
theorem covers_of_leaf (ht : t.RunsUpTo text q) {node : Node} {trimmable : Bool}
    (hn : leaf? t = some (node, trimmable)) (hl : endsLine t = false) :
    Covers text t.span.start.offset q [⟨node, trimmable⟩] := by
  by_cases ha : t.kind = .argument
  · obtain ⟨rfl, rfl⟩ : .text ("$" ++ t.value) t.span = node ∧ false = trimmable := by
      simpa [leaf?, ha] using hn
    intro i hi hs hq
    have hbehind : t.span.stop.offset ≤ i := by
      by_contra hin
      have hk := (ht.inside i hi hs (by omega)).1
      rw [ha] at hk
      cases hk
    refine ⟨_, List.mem_singleton_self _, rfl, .argument (ht.dollar ha) hs ?_⟩
    intro j c hc hj hji
    exact (ht.behind j c hc hj (by omega)).1
  · have hk : t.kind ≠ .comment := by
      intro hk
      simp [leaf?, hk] at hn
    exact (covers_nil_of_runsUpTo ht hl ha hk).mono (List.nil_subset _)

theorem onLine_of_leaf {node : Node} {trimmable : Bool} (hn : leaf? t = some (node, trimmable)) :
    ∀ part ∈ node.preorder, part.OnLine text := by
  rw [preorder_of_leaf? hn, List.forall_mem_singleton]
  obtain ⟨kind, value, raw, span⟩ := t
  cases kind with
  | keyword | identifier | comment | openParen | closeParen | endOfInput => cases hn
  | _ => cases hn; trivial

theorem State.Meets.onLines {st : State} (hm : st.Meets t ctx) (h : st.OnLines text t.span.start.offset) :
    ctx.OnLines text t.span.start.offset := by
  cases hm with
  | ready hm => simpa only [State.OnLines, hm] using h
  | group hm =>
    simp only [State.OnLines, hm] at h
    exact ⟨h.1, by simp [preorderAll], h.2⟩
  | body hm =>
    simp only [State.OnLines, hm] at h
    exact ⟨by simp [preorderAll], h⟩

/-- Where a call or a definition ends, the newlines up to the next token are in it. -/
theorem covers_of_closing (ht : t.RunsUpTo text q) (hk : t.kind = .closeParen ∨ t.kind = .keyword .endWord)
    {node : Node} (hn : ∀ i : Nat, start.offset ≤ i → i < t.span.stop.offset → Swallows text i node) :
    Covers text start.offset q [⟨node, false⟩] := by
  intro i hi hs hq
  refine ⟨_, List.mem_singleton_self _, rfl, hn i hs ?_⟩
  by_contra hout
  have hbehind := (ht.behind i '\n' hi (by omega) hq).2 rfl
  rcases hk with hk | hk <;> simp [hk] at hbehind

theorem onLine_call {name : String} {groups : List Group} {groupStart : Position} {values : List Node} {outer : Context}
    {p : Int} (h : (Context.call start name groups groupStart values outer).OnLines text p) (inner span : Span) :
    ∀ part ∈ (Node.call name (closedGroups groups values inner).reverse span).preorder, part.OnLine text := by
  intro part hp
  rw [preorder] at hp
  rcases List.mem_cons.1 hp with rfl | hp
  · trivial
  · exact (mem_closedGroups.1 hp).elim (h.1 part) (h.2.1 part)

theorem onLine_define {name : String} {params : List String} {values : List Node} {outer : Context} {p : Int}
    (h : (Context.define start name params values outer).OnLines text p) (span : Span) :
    ∀ part ∈ (Node.define name params values.reverse span).preorder, part.OnLine text := by
  intro part hp
  rw [preorder] at hp
  rcases List.mem_cons.1 hp with rfl | hp
  · trivial
  · exact h.1 part (mem_preorderAll_reverse.1 hp)

theorem Takes.onLines {lastStop : Position} (h : Takes ctx lastStop t next) (ht : t.RunsUpTo text q)
    (hc : ctx.OnLines text t.span.start.offset) : next.OnLines text q := by
  have hq : t.span.start.offset ≤ q := Int.le_trans ht.start_le ht.stop_le
  have hclosed := hc.closeLines lastStop
  cases h with
  | opens construct ho =>
    have hk : t.kind ≠ .comment ∧ t.kind ≠ .text ∧ t.kind ≠ .argument := by
      refine ⟨?_, ?_, ?_⟩ <;> intro hk <;> rw [hk] at ho <;> cases ho
    exact ⟨covers_nil_of_runsUpTo ht (endsLine_of_kind hk.1 hk.2.1) hk.2.2 hk.1, hq, hc⟩
  | leaf node trimmable hn hl =>
    have hspan := span_of_leaf? hn
    exact hc.push (onLine_of_leaf hn) hq (by rwa [hspan]) fun hline => covers_of_leaf ht hn (hl hline)
  | skips hk hl => exact hc.mono hl hq
  | endsLine hl =>
    cases ctx with
    | document | call | define => cases hl
    | line start name changes pieces outer =>
      have hstart : start.offset ≤ t.span.start.offset := hc.2.2.1
      refine Context.OnLines.push hc.2.2.2 (onLine_of_line hc t.span.stop) (by omega) ?_ fun _ => ?_
      · show start.offset ≤ q
        omega
      · -- What stands around the value never meets the newline that ends it.
        intro i hi hs hlt
        refine ⟨_, List.mem_singleton_self _, rfl, .bind hs ?_⟩
        intro j c hj hstop hle
        exact (ht.behind j c hj hstop (by omega)).1
  | separates hk he =>
    rw [he] at hclosed
    refine ⟨fun node hn => ?_, Int.le_trans hclosed.2.2.1 hq, hclosed.2.2.2⟩
    exact (mem_addGroup.1 hn).elim (hclosed.1 node) (hclosed.2.1 node)
  | closesCall hk he =>
    rw [he] at hclosed
    have hle := Int.le_trans hclosed.2.2.1 hq
    exact Context.OnLines.push hclosed.2.2.2 (onLine_call hclosed _ _) hle hle fun _ =>
      covers_of_closing ht (.inl hk) fun i hs hlt => .call hs hlt
  | closesDefinition hk he =>
    rw [he] at hclosed
    have hle := Int.le_trans hclosed.2.1 hq
    exact Context.OnLines.push hclosed.2.2 (onLine_define hclosed _) hle hle fun _ =>
      covers_of_closing ht (.inr hk) fun i hs hlt => .define hs hlt
  | ends hk he =>
    rw [he] at hclosed
    exact hclosed

/-- The name of a construct holds no newline and passes over none. -/
theorem Begins.onLines {construct : Named} (h : Begins ctx start t construct next) (ht : t.RunsUpTo text q)
    (hk : t.kind = .identifier) (hc : ctx.OnLines text start.offset) (hs : start.offset ≤ t.span.start.offset)
    (hcover : Covers text start.offset t.span.start.offset []) : next.OnLines text q := by
  have hq : start.offset ≤ q := Int.le_trans hs (Int.le_trans ht.start_le ht.stop_le)
  have hl : endsLine t = false := endsLine_of_kind (by simp [hk]) (by simp [hk])
  have hname := hcover.append (covers_nil_of_runsUpTo ht hl (by simp [hk]) (by simp [hk]))
  cases h with
  | blank => trivial
  | call => exact ⟨by simp [Group.preorderAll], hq, hc⟩
  | use => exact hc.push (by simp [preorder, OnLine]) hq hq fun _ => hname.mono (List.nil_subset _)
  | define => exact ⟨hq, hc⟩
  | bind => exact ⟨List.forall_mem_nil _, hname, hq, hc⟩

/-! ## The whole machine -/

/-- A token and what is passed over behind it keep a state to its lines. -/
theorem State.OnLines.step {st : State} (h : st.OnLines text t.span.start.offset) (hs : st.step t = .ok next)
    (ht : t.RunsUpTo text q) : next.OnLines text q := by
  rcases State.step_cases hs with ⟨ctx, hm, htakes⟩ | ⟨construct, start, hm, hk, hn⟩ |
    ⟨start, name, params, hm, -, -, rfl⟩
  · exact htakes.onLines ht (hm.onLines h)
  · simp only [State.OnLines, hm] at h
    exact hn.onLines ht hk h.2.2 h.2.1 h.1
  · simp only [State.OnLines, hm] at h
    exact ⟨Int.le_trans h.1 (Int.le_trans ht.start_le ht.stop_le), h.2⟩

theorem State.OnLines.of_run {nodes : List Node} : ∀ {tokens : List Token} {t : Token} {st : State},
    st.OnLines text t.span.start.offset →
    (t :: tokens).IsChain (fun t u => t.RunsUpTo text u.span.start.offset) →
    (∀ last ∈ (t :: tokens).getLast?, last.kind = .endOfInput) → st.run (t :: tokens) = .ok nodes →
    ∀ node ∈ preorderAll nodes, node.OnLine text
  | tokens, t, st, h, hchain, hlast, hr => by
    by_cases hk : t.kind = .endOfInput
    · obtain ⟨hm, values, hclose, rfl⟩ := State.of_run_end hk hr
      simp only [State.OnLines, hm] at h
      have hdone := h.closeLines st.lastStop
      rw [hclose] at hdone
      intro node hn
      exact hdone node (mem_preorderAll_reverse.1 hn)
    · obtain ⟨next, hs, hr⟩ := (State.run_cons_ok_iff hk).1 hr
      cases tokens with
      | nil => exact absurd (hlast t rfl) hk
      | cons u rest =>
        obtain ⟨ht, hrest⟩ := List.isChain_cons_cons.1 hchain
        exact of_run (h.step hs ht) hrest hlast hr

end

/-! ## A whole text -/

/-- All variables of a text, wherever they stand, keep to their lines. -/
theorem onLine_of_parse {text : String} {tokens : List Token} {nodes : List Node} (hs : Token.scan text = .ok tokens)
    (hp : parse tokens = .ok nodes) : ∀ node ∈ preorderAll nodes, node.OnLine text.toList := by
  have hchain : tokens.IsChain (fun t u => t.RunsUpTo text.toList u.span.start.offset) := by
    rw [List.isChain_iff_forall_rel_of_append_cons_cons]
    rintro t u before after rfl
    exact Token.runsUpTo_of_scan hs
  obtain ⟨t, rest, rfl, hlast⟩ := Token.exists_cons_of_scan hs
  have hstart : State.start.OnLines text.toList t.span.start.offset := by
    simp [State.start, State.OnLines, Context.OnLines, preorderAll]
  exact hstart.of_run hchain hlast hp

/-- A newline behind the start of a variable that a node of its value stands behind is in a call or a definition
of the value, in a variable of the value or at its end, or behind an argument of the value, where only blanks
lead to it. -/
theorem newlines_in_value_swallowed {text : String} {tokens : List Token} {nodes value : List Node} {name : String}
    {changes : Bool} {span : Span} (hs : Token.scan text = .ok tokens) (hp : parse tokens = .ok nodes)
    (hb : .bind name changes value span ∈ preorderAll nodes) :
    ∀ node ∈ value, ∀ i : Nat, text.toList[i]? = some '\n' → span.start.offset ≤ i → i < node.span.start.offset →
      ∃ other ∈ value, Swallows text.toList i other :=
  onLine_of_parse hs hp _ hb

/-- The value of `x` is a call that goes over to the next line, and what stands behind its parenthesis. -/
theorem newlines_in_value_swallowed_call : ∃ tokens nodes value span,
    Token.scan "#let x (f\n)b" = .ok tokens ∧ parse tokens = .ok nodes ∧
    .bind "x" false value span ∈ preorderAll nodes ∧ .text "b" ⟨⟨2, 2, 11⟩, ⟨2, 3, 12⟩⟩ ∈ value ∧
    ∃ other ∈ value, Swallows "#let x (f\n)b".toList 9 other := by
  have hs : Token.scan "#let x (f\n)b" = .ok
      [⟨.keyword .letWord, "let", "#let", ⟨⟨1, 1, 0⟩, ⟨1, 5, 4⟩⟩⟩,
        ⟨.identifier, "x", "x", ⟨⟨1, 6, 5⟩, ⟨1, 7, 6⟩⟩⟩, ⟨.openParen, "(", "(", ⟨⟨1, 8, 7⟩, ⟨1, 9, 8⟩⟩⟩,
        ⟨.identifier, "f", "f", ⟨⟨1, 9, 8⟩, ⟨1, 10, 9⟩⟩⟩, ⟨.text, "\n", "\n", ⟨⟨1, 10, 9⟩, ⟨2, 1, 10⟩⟩⟩,
        ⟨.closeParen, ")", ")", ⟨⟨2, 1, 10⟩, ⟨2, 2, 11⟩⟩⟩, ⟨.text, "b", "b", ⟨⟨2, 2, 11⟩, ⟨2, 3, 12⟩⟩⟩,
        ⟨.endOfInput, "", "", ⟨⟨2, 3, 12⟩, ⟨2, 3, 12⟩⟩⟩] := by cbv
  have hb : ∀ {node : Node}, node ∈ preorderAll [node] := by
    intro node
    rw [preorderAll_singleton]
    exact mem_preorder_self node
  refine ⟨_, _, _, _, hs, rfl, hb, List.mem_cons_of_mem _ List.mem_cons_self, ?_⟩
  exact newlines_in_value_swallowed hs rfl hb _ (List.mem_cons_of_mem _ List.mem_cons_self) 9 (by decide)
    (by decide) (by decide)

/-- The newline behind the argument `$a` ends no value: the next line belongs to `x`, and no call and no
definition is there. -/
theorem value_passes_newline_argument : ∃ tokens nodes value span,
    Token.scan "#let x $a\nb" = .ok tokens ∧ parse tokens = .ok nodes ∧ .bind "x" false value span ∈ nodes ∧
    .text "b" ⟨⟨2, 1, 10⟩, ⟨2, 2, 11⟩⟩ ∈ value ∧ "#let x $a\nb".toList[9]? = some '\n' ∧
    ∀ node ∈ value, isBracket node = false := by
  have hs : Token.scan "#let x $a\nb" = .ok
      [⟨.keyword .letWord, "let", "#let", ⟨⟨1, 1, 0⟩, ⟨1, 5, 4⟩⟩⟩,
        ⟨.identifier, "x", "x", ⟨⟨1, 6, 5⟩, ⟨1, 7, 6⟩⟩⟩, ⟨.argument, "a", "$a", ⟨⟨1, 8, 7⟩, ⟨1, 10, 9⟩⟩⟩,
        ⟨.text, "b", "b", ⟨⟨2, 1, 10⟩, ⟨2, 2, 11⟩⟩⟩, ⟨.endOfInput, "", "", ⟨⟨2, 2, 11⟩, ⟨2, 2, 11⟩⟩⟩] := by cbv
  refine ⟨_, _, _, _, hs, rfl, List.mem_singleton_self _, List.mem_cons_of_mem _ List.mem_cons_self, by decide, ?_⟩
  exact List.forall_mem_cons.2 ⟨rfl, List.forall_mem_singleton.2 rfl⟩

end Markup.Node
