/-
How the tokens that begin and end constructs are written.

A parenthesis, a keyword, a reference and a name have one way to be written each
(`Written`), and the name of a call stands right behind its parenthesis (`Touches`).
So whatever is put together of tokens begins and ends with characters that are known.
-/
import Mathlib.Data.List.Chain
import Markup.Proofs.Tiling

namespace Markup

/-! ## Parts of a text -/

/-- A part of a text: it starts and stops at places of the text, and does not stop before it starts. -/
structure Span.IsIn (text : List Char) (s : Span) : Prop where
  start : s.start.IsIn text
  stop : s.stop.IsIn text
  le : s.start.offset ≤ s.stop.offset

theorem Span.prefix_slice {text cs : List Char} {s : Span} (h : cs <+: text.drop s.start.offset.toNat)
    (hl : s.start.offset + cs.length ≤ s.stop.offset) : cs <+: s.slice text := by
  rw [Span.slice, List.prefix_take_iff]
  exact ⟨h, by omega⟩

theorem Span.suffix_slice {text : List Char} {s inner : Span} (h0 : 0 ≤ s.start.offset)
    (hs : s.start.offset ≤ inner.start.offset) (he : inner.stop.offset = s.stop.offset) :
    inner.slice text <:+ s.slice text := by
  have hdrop : (s.slice text).drop (inner.start.offset - s.start.offset).toNat = inner.slice text := by
    rw [Span.slice, Span.slice, List.drop_take, List.drop_drop, he]
    congr 1
    · omega
    · congr 1
      omega
  rw [← hdrop]
  exact List.drop_suffix _ _

/-- What a part begins with stands where it starts. -/
theorem Span.prefix_drop_of_slice {text cs : List Char} {s : Span} (h : cs <+: s.slice text) :
    cs <+: text.drop s.start.offset.toNat :=
  h.trans (List.take_prefix _ _)

namespace Token

/-! ## Single tokens -/

/-- How a token is written where only one way is possible. -/
structure Written (t : Token) : Prop where
  openParen : t.kind = .openParen → t.raw.toList = ['(']
  closeParen : t.kind = .closeParen → t.raw.toList = [')']
  keyword : ∀ word, t.kind = .keyword word → t.raw.toList = '#' :: word.name.toList
  reference : t.kind = .reference → t.raw.toList = '#' :: t.value.toList
  identifier : t.kind = .identifier → t.raw = t.value

theorem name_of_ofName? {name : String} {word : Keyword} (h : Keyword.ofName? name = some word) :
    name = word.name := by
  have hf := List.find?_some h
  exact (of_decide_eq_true hf).symm

theorem Lexes.written {cs rest : List Char} {pieces : List Piece} (h : Lexes cs pieces rest) {kind : Kind}
    {value raw : List Char} (ht : .token kind value raw ∈ pieces) (span : Span) :
    Written ⟨kind, .ofList value, .ofList raw, span⟩ := by
  cases h with
  | call =>
    simp only [List.mem_cons, Piece.token.injEq, List.not_mem_nil, or_false] at ht
    rcases ht with ⟨rfl, rfl, rfl⟩ | ⟨rfl, rfl, rfl⟩ <;> constructor <;> simp
  | endWord _ _ _ hk =>
    have hname := congrArg String.toList (name_of_ofName? hk)
    simp only [List.mem_singleton, Piece.token.injEq] at ht
    obtain ⟨rfl, rfl, rfl⟩ := ht
    constructor <;> simp_all
  | directive _ _ _ hk =>
    have hname := congrArg String.toList (name_of_ofName? hk)
    simp only [List.mem_cons, Piece.token.injEq, reduceCtorEq, List.not_mem_nil, false_or, or_false] at ht
    rcases ht with ⟨rfl, rfl, rfl⟩ | ⟨rfl, rfl, rfl⟩ <;> constructor <;> simp_all
  | dropped => simp at ht
  | escape | argument | close | comment | hash | reference | pipe | slash | number | text | blank =>
    simp only [List.mem_cons, Piece.token.injEq, reduceCtorEq, List.not_mem_nil, or_false] at ht
    obtain ⟨rfl, rfl, rfl⟩ := ht
    constructor <;> simp

theorem written_of_scan {text : String} {tokens : List Token} (h : scan text = .ok tokens) {t : Token}
    (ht : t ∈ tokens) : t.Written := by
  by_cases hk : t.kind = .endOfInput
  · constructor <;> simp [hk]
  · obtain ⟨cs, pieces, rest, value, raw, start, hl, hm, he⟩ := mem_scan h ht hk
    rw [he]
    exact hl.written hm _

/-! ## Neighbours -/

/-- Whether a token stands right behind the one before, if that opens a call. -/
def Touches (t next : Token) : Prop := t.kind = .openParen → next.span.start = t.span.stop

theorem isChain_cons_of_kind {t : Token} (hk : t.kind ≠ .openParen) {more : List Token}
    (h : more.IsChain Touches) : (t :: more).IsChain Touches :=
  h.cons fun _ _ ho => absurd ho hk

theorem Lexes.touches {cs rest : List Char} {own : List Piece} (h : Lexes cs own rest) (p : Position)
    {more : List Token} (hm : more.IsChain Touches) : (place p own ++ more).IsChain Touches := by
  cases h with
  | dropped => exact hm
  | call => exact .cons_cons (fun _ => rfl) (isChain_cons_of_kind (by simp) hm)
  | directive => exact isChain_cons_of_kind (by simp) (isChain_cons_of_kind (by simp) hm)
  | escape | argument | close | comment | hash | reference | endWord | pipe | slash | number | text | blank =>
    exact isChain_cons_of_kind (by simp) hm

theorem Reads.touches {cs rest : List Char} {pieces : List Piece} (h : Reads cs pieces rest) (p : Position)
    {more : List Token} (hm : more.IsChain Touches) : (place p pieces ++ more).IsChain Touches := by
  induction h generalizing p with
  | refl => exact hm
  | step hl _ ih =>
    rw [place_append, List.append_assoc]
    exact hl.touches p (ih _)

/-- The name of every call of a text stands right behind its parenthesis. -/
theorem touches_of_scan {text : String} {tokens : List Token} (h : scan text = .ok tokens) :
    tokens.IsChain Touches := by
  obtain ⟨pieces, hr, rfl⟩ := scan_ok_iff.1 h
  exact hr.touches .first (.singleton _)

theorem isIn_of_mem_scan {text : String} {tokens : List Token} (h : scan text = .ok tokens) {t : Token}
    (ht : t ∈ tokens) : t.span.IsIn text.toList where
  start := ((tiles_of_scan h).places t ht).1
  stop := ((tiles_of_scan h).places t ht).2
  le := ((tiles_of_scan h).raw t ht).1

end Token

end Markup
