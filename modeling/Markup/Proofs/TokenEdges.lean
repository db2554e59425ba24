/-
What stands in a token, and between it and the next one.

A newline stands in plain text or outside of all tokens, and there only behind an
argument or a comment; whatever else is passed over is blank, too (`RunsUpTo`).
-/
import Markup.Proofs.ParseStep
import Markup.Proofs.Tiling

namespace Markup.Token

open Text

/-- What holds of a token and what is passed over behind it, up to where the next one starts. -/
structure RunsUpTo (text : List Char) (t : Token) (next : Int) : Prop where
  start_le : t.span.start.offset ≤ t.span.stop.offset
  stop_le : t.span.stop.offset ≤ next
  /-- A newline inside is one of plain text. -/
  inside : ∀ i : Nat, text[i]? = some '\n' → t.span.start.offset ≤ i → i < t.span.stop.offset →
    t.kind = .text ∧ '\n' ∈ t.value.toList
  /-- What is passed over is blank, and it is no newline unless an argument or a comment stands before. -/
  behind : ∀ (i : Nat) c, text[i]? = some c → t.span.stop.offset ≤ i → i < next →
    isBlank c = true ∧ (c = '\n' → t.kind = .argument ∨ t.kind = .comment)
  dollar : t.kind = .argument → text[t.span.start.offset.toNat]? = some '$'

/-! ## Inside -/

theorem Run.newline_notMem {p : Char → Bool} {cs run rest : List Char} (h : Run p cs run rest)
    (hp : p '\n' = false) : '\n' ∉ run := by
  intro hm
  rw [h.all _ hm] at hp
  cases hp

theorem Lexes.text_of_newline {cs rest : List Char} {pieces : List Piece} (h : Lexes cs pieces rest) {kind : Kind}
    {value raw : List Char} (ht : .token kind value raw ∈ pieces) (hn : '\n' ∈ raw) : kind = .text ∧ value = raw := by
  cases h with
  | text | blank =>
    simp only [List.mem_singleton, Piece.token.injEq] at ht
    exact ⟨ht.1, ht.2.1.trans ht.2.2.symm⟩
  | @escape c value rest hv =>
    have hc : '\n' ≠ c := by
      rintro rfl
      cases hv
    simp_all
  | argument hr | reference _ hr | endWord _ hr =>
    have hname := hr.newline_notMem (by decide)
    simp_all
  | call hr =>
    have hname := hr.newline_notMem (by decide)
    simp only [List.mem_cons, Piece.token.injEq, List.not_mem_nil, or_false] at ht
    rcases ht with ⟨-, -, rfl⟩ | ⟨-, -, rfl⟩
    · simp at hn
    · exact absurd hn hname
  | directive _ hr _ _ _ _ hi =>
    have hname := hr.newline_notMem (by decide)
    have hident := hi.newline_notMem (by decide)
    simp only [List.mem_cons, Piece.token.injEq, reduceCtorEq, List.not_mem_nil, false_or, or_false] at ht
    rcases ht with ⟨-, -, rfl⟩ | ⟨-, -, rfl⟩
    · simp [hname] at hn
    · exact absurd hn hident
  | comment hr =>
    have htext := hr.newline_notMem (by decide)
    simp_all
  | number hd hr =>
    have hmore := hr.newline_notMem (by decide)
    simp only [List.mem_singleton, Piece.token.injEq] at ht
    obtain ⟨-, -, rfl⟩ := ht
    rcases List.mem_cons.1 hn with rfl | hn
    · cases hd
    · exact absurd hn hmore
  | dropped => simp at ht
  | close | hash | pipe | slash => simp_all

theorem Lexes.dollar_of_argument {cs rest : List Char} {pieces : List Piece} (h : Lexes cs pieces rest)
    {value raw : List Char} (ht : .token .argument value raw ∈ pieces) : raw.head? = some '$' := by
  cases h with
  | argument =>
    simp only [List.mem_cons, Piece.token.injEq, reduceCtorEq, List.not_mem_nil, or_false] at ht
    rw [ht.2.2]
    rfl
  | _ => simp at ht

/-- The characters of a span, found in the text. -/
theorem getElem?_of_mem_tiles {text : List Char} {tokens : List Token} (h : Tiles text tokens) {t : Token}
    (ht : t ∈ tokens) {i : Nat} (hs : t.span.start.offset ≤ i) (hi : i < t.span.stop.offset) :
    t.raw.toList[i - t.span.start.offset.toNat]? = text[i]? := by
  have hstart := (h.places t ht).1.offset_nonneg
  rw [(h.raw t ht).2, Span.slice, List.getElem?_take_of_lt (by omega), List.getElem?_drop]
  congr 1
  omega

/-! ## Behind -/

theorem isBlank_of_mayStandBehind {before : List Kind} {c : Char} (h : mayStandBehind before c = true) :
    isBlank c = true := by
  have hspace : ∀ d : Char, isHorizontal d = true → isBlank d = true := by
    intro d hd
    simp only [isHorizontal, Bool.or_eq_true, beq_iff_eq] at hd
    rcases hd with rfl | rfl <;> decide
  unfold mayStandBehind at h
  split at h
  all_goals first
    | exact h
    | exact hspace c h
    | (rw [beq_iff_eq] at h; subst h; decide)

/-- A newline may only stand outside of tokens behind an argument or a comment. -/
theorem kind_of_mayStandBehind_newline {before : List Kind} (h : mayStandBehind before '\n' = true) :
    before.head? = some .argument ∨ before.head? = some .comment := by
  unfold mayStandBehind at h
  split at h
  next => exact .inl rfl
  next => exact .inr rfl
  all_goals cases h

/-- Between two neighbours the gap is told by the tokens before. -/
theorem mayStandBehind_of_between {text : List Char} {before after : List Token} {t u : Token}
    (h : Tiles text (before ++ t :: u :: after)) {i : Nat} {c : Char} (hc : text[i]? = some c)
    (hs : t.span.stop.offset ≤ i) (hi : i < u.span.start.offset) :
    mayStandBehind ((before ++ [t]).map (·.kind)).reverse c = true := by
  have ht := (h.raw t (by simp)).1
  have hu := (h.raw u (by simp)).1
  rcases h.gaps i c hc with ⟨x, hx, hxs, hxi⟩ | ⟨front, back, he, hfront, hback, hm⟩
  · obtain ⟨-, hrest, hbefore⟩ := List.pairwise_append.1 h.ordered
    obtain ⟨-, hrest⟩ := List.pairwise_cons.1 hrest
    obtain ⟨hafter, -⟩ := List.pairwise_cons.1 hrest
    simp only [List.mem_append, List.mem_cons] at hx
    rcases hx with hx | rfl | rfl | hx
    · have := hbefore x hx t (by simp)
      omega
    · omega
    · omega
    · have := hafter x hx
      omega
  · rcases List.append_eq_append_iff.1 he with ⟨mid, rfl, hmid⟩ | ⟨mid, rfl, rfl⟩
    · match mid, hmid with
      | [], hmid =>
        have := hback t (by rw [← List.nil_append back, ← hmid]; simp)
        omega
      | [_], hmid =>
        rw [List.singleton_append, List.cons.injEq] at hmid
        rw [hmid.1]
        exact hm
      | _ :: _ :: _, hmid =>
        simp only [List.cons_append, List.cons.injEq] at hmid
        have := hfront u (by simp [hmid.2.1])
        omega
    · have := hback t (by simp)
      omega

/-- Every token of a text but the last runs up to the next one. -/
theorem runsUpTo_of_scan {text : String} {before after : List Token} {t u : Token}
    (h : scan text = .ok (before ++ t :: u :: after)) : t.RunsUpTo text.toList u.span.start.offset := by
  have htiles := tiles_of_scan h
  have ht : t ∈ before ++ t :: u :: after := by simp
  have hk : t.kind ≠ .endOfInput := by
    obtain ⟨others, mark, he, -, -, -, ho⟩ := htiles.last
    have hlast : u :: after = (u :: after).dropLast ++ [(u :: after).getLast (by simp)] :=
      (List.dropLast_append_getLast _).symm
    rw [hlast, ← List.cons_append, ← List.append_assoc] at he
    refine ho t ?_
    rw [← (List.append_inj' he rfl).1]
    simp
  obtain ⟨cs, pieces, rest, value, raw, start, hl, hm, he⟩ := mem_scan h ht hk
  have hraw : t.raw.toList = raw := by rw [he, String.toList_ofList]
  refine ⟨(htiles.raw t ht).1, ?_, ?_, ?_, ?_⟩
  · have hpair := (List.pairwise_append.1 htiles.ordered).2.1
    exact (List.pairwise_cons.1 hpair).1 u (by simp)
  · intro i hi hs hlt
    have hn : '\n' ∈ raw := by
      rw [← hraw]
      exact List.mem_of_getElem? (getElem?_of_mem_tiles htiles ht hs hlt ▸ hi)
    obtain ⟨htext, rfl⟩ := hl.text_of_newline hm hn
    refine ⟨htext, ?_⟩
    rw [he, String.toList_ofList]
    exact hn
  · intro i c hc hs hlt
    have hmay := mayStandBehind_of_between htiles hc hs hlt
    refine ⟨isBlank_of_mayStandBehind hmay, ?_⟩
    rintro rfl
    simpa using kind_of_mayStandBehind_newline hmay
  · intro ha
    rw [ha] at hm
    have hstart := (htiles.places t ht).1.offset_nonneg
    have hlt := start_lt_stop_of_scan h ht hk (by simp [ha])
    have hat := getElem?_of_mem_tiles htiles ht (i := t.span.start.offset.toNat) (by omega) (by omega)
    rw [← hat, Nat.sub_self, ← List.head?_eq_getElem?, hraw]
    exact hl.dollar_of_argument hm

end Markup.Token
