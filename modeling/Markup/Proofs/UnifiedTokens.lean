/-
The tokens of a paired text are those of the text without its returns.

A return stands in a run of blanks, at the end of a comment or nowhere in a
lexeme, so a lexeme of a paired text is one without its returns too, and what is
behind it is paired (`Lexes.unified`). The tokens are alike in the likeness
`Likeness.unified`: their starts are in the same line and column, though a comment
may stop one column earlier. Where no lexeme stands none stands without returns.
-/
import Markup.Proofs.Likeness
import Markup.Proofs.Returns
import Markup.Proofs.ScanErrors

namespace Markup

/-- What is read from a paired text counts as the same as what is read from it without its returns. -/
def Likeness.unified : Likeness where
  start := Position.Alike
  stop _ _ := True
  text := Text.Unifies
  word s := '\r' ∉ s.toList ∧ '\n' ∉ s.toList
  stop_of_start _ := trivial
  isAllBlank_eq := Text.Unifies.isAllBlank_eq
  contains_newline_eq := Text.Unifies.contains_newline_eq
  stripStart := Text.Unifies.stripStart
  stripEnd := Text.Unifies.stripEnd
  dollar h := (Text.Unifies.of_notMem (by decide)).append h

namespace Token

open Text

/-- A piece without its returns. -/
def Piece.unified : Piece → Piece
  | .token kind value raw => .token kind (withoutReturns value) (withoutReturns raw)
  | .gap chars => .gap (withoutReturns chars)

theorem Piece.textAll_unified (pieces : List Piece) :
    Piece.textAll (pieces.map Piece.unified) = withoutReturns (Piece.textAll pieces) := by
  induction pieces with
  | nil => rfl
  | cons piece pieces ih => cases piece <;> simp [unified, ih]

/-! ## Runs -/

section

variable {p : Char → Bool} {cs run rest : List Char} (h : Run p cs run rest) (hc : Paired cs)
include h hc

theorem Run.paired_rest : Paired rest := by
  rw [h.append] at hc
  exact hc.of_append_right

/-- A run of a class that has newlines, if not returns, is one without returns too. -/
theorem Run.unified (hp : p '\r' = false → p '\n' = false) :
    Run p (withoutReturns cs) (withoutReturns run) (withoutReturns rest) where
  append := by rw [h.append, withoutReturns_append]
  all c hm := h.all c (mem_withoutReturns.1 hm).1
  stops c hh := by
    have hrest := h.paired_rest hc
    cases rest with
    | nil => cases hh
    | cons d rest =>
      by_cases hd : d = '\r'
      · obtain ⟨more, rfl⟩ := List.head?_eq_some_iff.1 (hrest.1 hd)
        subst hd
        cases hh
        exact hp (h.stops _ rfl)
      · rw [withoutReturns_cons hd] at hh
        cases hh
        exact h.stops _ rfl

omit hc in
theorem Run.notMem {c : Char} (hp : p c = false) : c ∉ run := by
  intro hm
  rw [h.all c hm] at hp
  cases hp

omit hc in
theorem Run.withoutReturns_eq (hp : p '\r' = false) : withoutReturns run = run :=
  withoutReturns_of_notMem (h.notMem hp)

/-- Where a class has neither of the two characters, the run is the same. -/
theorem Run.unified_of_not (hr : p '\r' = false) (hn : p '\n' = false) :
    Run p (withoutReturns cs) run (withoutReturns rest) := by
  have hu := h.unified hc fun _ => hn
  rwa [h.withoutReturns_eq hr] at hu

end

theorem Run.exists_of_cons {p : Char → Bool} {c : Char} {cs run rest : List Char} (h : Run p (c :: cs) run rest)
    (hc : p c = true) : ∃ more, run = c :: more ∧ Run p cs more rest := by
  have happend := h.append
  cases run with
  | nil =>
    subst happend
    rw [h.stops c rfl] at hc
    cases hc
  | cons d more =>
    obtain ⟨rfl, rfl⟩ := List.cons.inj happend
    exact ⟨more, rfl, rfl, fun e he => h.all e (List.mem_cons_of_mem _ he), h.stops⟩

/-! ## Lexemes -/

theorem ne_return_of_unescape? {c value : Char} (h : unescape? c = some value) : c ≠ '\r' ∧ value ≠ '\r' := by
  unfold unescape? at h
  split at h <;> cases h <;> decide

theorem ne_return_of_isTextChar {c : Char} (h : isTextChar c = true) : c ≠ '\r' := by
  rintro rfl
  cases h

theorem ne_return_of_isDigit {c : Char} (h : c.isDigit = true) : c ≠ '\r' := by
  rintro rfl
  cases h

variable {cs rest : List Char} {pieces : List Piece}

/-- A lexeme of a paired text is one without its returns too. -/
theorem Lexes.unified (h : Lexes cs pieces rest) (hc : Paired cs) :
    Lexes (withoutReturns cs) (pieces.map Piece.unified) (withoutReturns rest) := by
  cases h with
  | escape hv =>
    obtain ⟨hd, hvalue⟩ := ne_return_of_unescape? hv
    simpa [Piece.unified, hd, hvalue] using Lexes.escape hv
  | argument hn hb =>
    have hname := hn.withoutReturns_eq rfl
    have hlex := Lexes.argument (hn.unified_of_not hc.2 rfl rfl) (hb.unified (hn.paired_rest hc.2) nofun)
    simpa [Piece.unified, hname] using hlex
  | call hn hne =>
    have hname := hn.withoutReturns_eq rfl
    simpa [Piece.unified, hname] using Lexes.call (hn.unified_of_not hc.2 rfl rfl) hne
  | close => simpa [Piece.unified] using Lexes.close
  | comment ht hb =>
    have hlex := Lexes.comment (ht.unified hc.2.2 nofun) (hb.unified (ht.paired_rest hc.2.2) nofun)
    rw [trimWhile_withoutReturns rfl] at hlex
    simpa [Piece.unified] using hlex
  | hash hn => simpa [Piece.unified] using Lexes.hash (hn.unified_of_not hc.2 rfl rfl)
  | reference hx hn hne hk =>
    have hname := hn.withoutReturns_eq rfl
    have hrun := hn.unified_of_not hc.2 rfl rfl
    have hlex := Lexes.reference (hrun.append ▸ hn.head_cut hne hx _) hrun hne hk
    simpa [Piece.unified, hname] using hlex
  | endWord hx hn hne hk =>
    have hname := hn.withoutReturns_eq rfl
    have hrun := hn.unified_of_not hc.2 rfl rfl
    have hlex := Lexes.endWord (hrun.append ▸ hn.head_cut hne hx _) hrun hne hk
    simpa [Piece.unified, hname] using hlex
  | directive hx hn hne hk hw hb hi ha =>
    have hmore := hn.paired_rest hc.2
    have hcs := hb.paired_rest hmore
    have hmore' := hi.paired_rest hcs
    have hname := hn.withoutReturns_eq rfl
    have hbefore := hb.withoutReturns_eq rfl
    have hident := hi.withoutReturns_eq rfl
    have hafter := ha.withoutReturns_eq rfl
    have hrun := hn.unified_of_not hc.2 rfl rfl
    have hlex := Lexes.directive (hrun.append ▸ hn.head_cut hne hx _) hrun hne hk hw
      (hb.unified_of_not hmore rfl rfl) (hi.unified_of_not hcs rfl rfl) (ha.unified_of_not hmore' rfl rfl)
    simpa [Piece.unified, hname, hbefore, hident, hafter] using hlex
  | pipe => simpa [Piece.unified] using Lexes.pipe
  | slash => simpa [Piece.unified] using Lexes.slash
  | number hd hn hv =>
    have hmore := hn.withoutReturns_eq rfl
    have hlex := Lexes.number hd (hn.unified_of_not hc.2 rfl rfl) hv
    simpa [Piece.unified, hmore, ne_return_of_isDigit hd] using hlex
  | text ht h1 h2 hd hn hb =>
    have hmore := hn.withoutReturns_eq rfl
    have hlex := Lexes.text ht h1 h2 hd (hn.unified_of_not hc.2 rfl rfl) hb
    simpa [Piece.unified, hmore, ne_return_of_isTextChar ht] using hlex
  | dropped ht h1 h2 hd hn hb =>
    have hmore := hn.withoutReturns_eq rfl
    have hlex := Lexes.dropped ht h1 h2 hd (hn.unified_of_not hc.2 rfl rfl) hb
    simpa [Piece.unified, hmore, ne_return_of_isTextChar ht] using hlex
  | blank hb hn =>
    rcases hb with rfl | rfl | rfl
    · simpa [Piece.unified] using Lexes.blank (.inl rfl) (hn.unified hc.2 nofun)
    · -- The newline behind a return begins the lexeme without it.
      obtain ⟨after, rfl⟩ := List.head?_eq_some_iff.1 (hc.1 rfl)
      obtain ⟨more, rfl, hmore⟩ := hn.exists_of_cons rfl
      simpa [Piece.unified] using Lexes.blank (.inl rfl) (hmore.unified hc.2.2 nofun)
    · simpa [Piece.unified] using Lexes.blank (.inr (.inr rfl)) (hn.unified hc.2 nofun)

/-- No lexeme ends between a return and its newline. -/
theorem Lexes.paired (h : Lexes cs pieces rest) (hc : Paired cs) : Paired (Piece.textAll pieces) := by
  have hall := hc
  rw [h.append_eq] at hall
  refine hall.of_append_left fun hl hh => ?_
  have hblank : ∀ {more blanks : List Char}, Run isBlank more blanks rest → False :=
    fun hb => absurd (hb.stops _ hh) nofun
  have hmem := List.mem_of_getLast? hl
  cases h with
  | argument hn hb => exact hblank hb
  | comment ht hb => exact hblank hb
  | blank _ hn => exact hblank hn
  | escape hv =>
    simp [ne_return_of_unescape? hv |>.1.symm] at hmem
  | call hn => simp [hn.notMem (c := '\r') rfl] at hmem
  | close | hash | pipe | slash => simp at hmem
  | reference _ hn | endWord _ hn => simp [hn.notMem (c := '\r') rfl] at hmem
  | directive _ hn _ _ _ hb hi ha =>
    simp [hn.notMem (c := '\r') rfl, hb.notMem (c := '\r') rfl, hi.notMem (c := '\r') rfl, ha.notMem (c := '\r') rfl] at hmem
  | number hd hn => simp [hn.notMem (c := '\r') rfl, (ne_return_of_isDigit hd).symm] at hmem
  | text ht _ _ _ hn | dropped ht _ _ _ hn =>
    simp [hn.notMem (c := '\r') rfl, (ne_return_of_isTextChar ht).symm] at hmem

theorem like_of_notMem {kind : Kind} {value raw raw' : List Char} {p q p' q' : Position} (hpq : p.Alike q)
    (hv : '\r' ∉ value) (hw : kind = .argument → '\n' ∉ value) :
    Token.Like .unified ⟨kind, .ofList value, .ofList raw, ⟨p, p'⟩⟩
      ⟨kind, .ofList (withoutReturns value), .ofList raw', ⟨q, q'⟩⟩ where
  kind := rfl
  value _ := .ofList (.of_notMem hv)
  same _ _ := by rw [withoutReturns_of_notMem hv]
  word hk := ⟨by rwa [String.toList_ofList], by rw [String.toList_ofList]; exact hw hk⟩
  span := .of_ends hpq trivial

/-- The tokens of a lexeme are alike without its returns, wherever they stand. -/
theorem Lexes.forall₂_place (h : Lexes cs pieces rest) (hc : Paired cs) {p q : Position} (hpq : p.Alike q) :
    List.Forall₂ (Token.Like .unified) (place p pieces) (place q (pieces.map Piece.unified)) := by
  have hp := h.paired hc
  cases h with
  | escape hv =>
    exact .cons (like_of_notMem hpq (by simp [(ne_return_of_unescape? hv).2.symm]) nofun) .nil
  | argument hn => exact .cons (like_of_notMem hpq (hn.notMem rfl) fun _ => hn.notMem rfl) .nil
  | call hn =>
    have hnext : (p.advance ['(']).Alike (q.advance ['(']) := hpq.step '('
    exact .cons (like_of_notMem hpq (by simp) nofun) (.cons (like_of_notMem hnext (hn.notMem rfl) nofun) .nil)
  | close | hash | pipe | slash => exact .cons (like_of_notMem hpq (by simp) nofun) .nil
  | comment => exact .cons ⟨rfl, fun hk => absurd rfl hk, fun _ hk => absurd rfl hk, nofun, .of_ends hpq trivial⟩ .nil
  | reference _ hn | endWord _ hn => exact .cons (like_of_notMem hpq (hn.notMem rfl) nofun) .nil
  | @directive _ name _ _ before _ _ _ _ _ _ hn _ _ _ hb hi =>
    have hhead : Paired ('#' :: name) := .of_notMem (by simp [hn.notMem (c := '\r') rfl])
    have hgap : Paired before := .of_notMem (hb.notMem rfl)
    exact .cons (like_of_notMem hpq (hn.notMem rfl) nofun)
      (.cons (like_of_notMem ((hpq.advance hhead).advance hgap) (hi.notMem rfl) nofun) .nil)
  | number hd hn =>
    exact .cons (like_of_notMem hpq (by simp [hn.notMem (c := '\r') rfl, (ne_return_of_isDigit hd).symm]) nofun) .nil
  | text ht _ _ _ hn =>
    exact .cons (like_of_notMem hpq (by simp [hn.notMem (c := '\r') rfl, (ne_return_of_isTextChar ht).symm]) nofun) .nil
  | dropped => exact .nil
  | blank _ hn =>
    refine .cons ⟨rfl, fun _ => .ofList ?_, fun hk => absurd rfl hk, nofun, .of_ends hpq trivial⟩ .nil
    simpa using hp

/-! ## The whole text -/

theorem Reads.paired_rest (h : Reads cs pieces rest) (hc : Paired cs) : Paired rest := by
  rw [h.append_eq] at hc
  exact hc.of_append_right

theorem Reads.paired (h : Reads cs pieces rest) (hc : Paired cs) : Paired (Piece.textAll pieces) := by
  induction h with
  | refl => trivial
  | step hl _ ih =>
    have hmid := hl.append_eq ▸ hc
    rw [Piece.textAll_append]
    exact (hl.paired hc).append (ih hmid.of_append_right)

theorem Reads.unified (h : Reads cs pieces rest) (hc : Paired cs) :
    Reads (withoutReturns cs) (pieces.map Piece.unified) (withoutReturns rest) := by
  induction h with
  | refl cs => exact .refl _
  | step hl _ ih =>
    have hmid := hl.append_eq ▸ hc
    rw [List.map_append]
    exact .step (hl.unified hc) (ih hmid.of_append_right)

theorem Reads.forall₂_place (h : Reads cs pieces rest) (hc : Paired cs) {p q : Position} (hpq : p.Alike q) :
    List.Forall₂ (Token.Like .unified) (place p pieces) (place q (pieces.map Piece.unified)) := by
  induction h generalizing p q with
  | refl => exact .nil
  | step hl _ ih =>
    have hmid := hl.append_eq ▸ hc
    rw [List.map_append, place_append, place_append, Piece.textAll_unified]
    exact List.rel_append (hl.forall₂_place hc hpq) (ih hmid.of_append_right (hpq.advance (hl.paired hc)))

/-- Where no lexeme stands in a paired text none stands without its returns. -/
theorem Jams.unified {cause : ScanError.Cause} {before : List Char} (h : Jams cs cause before) (hc : Paired cs) :
    ∃ cause, Jams (withoutReturns cs) cause before := by
  cases h with
  | dangling => exact ⟨_, .dangling⟩
  | @unknown c rest hv =>
    by_cases hr : c = '\r'
    · -- A return is as unknown as its newline.
      obtain ⟨more, rfl⟩ := List.head?_eq_some_iff.1 (hc.2.1 hr)
      subst hr
      exact ⟨_, .unknown (c := '\n') rfl⟩
    · rw [withoutReturns_cons (by decide), withoutReturns_cons hr]
      exact ⟨_, .unknown hv⟩
  | @nameless cs hs =>
    have hrun : Run isNameChar cs [] cs := ⟨rfl, nofun, hs⟩
    rw [withoutReturns_cons (by decide)]
    exact ⟨_, .nameless (hrun.unified_of_not hc.2 rfl rfl).stops⟩
  | number hd hn hv =>
    rw [withoutReturns_cons (ne_return_of_isDigit hd)]
    exact ⟨_, .number hd (hn.unified_of_not hc.2 rfl rfl) hv⟩

/-- The tokens of a paired text are alike without its returns, or it has none in the same place. -/
theorem scan_unify {text : String} (h : Paired text.toList) :
    Agree (fun e f : ScanError => e.position.Alike f.position) (List.Forall₂ (Token.Like .unified))
      (scan text) (scan (unify text)) := by
  have htext : (unify text).toList = withoutReturns text.toList := (Unifies.unify h).toList
  have hfirst := Position.Alike.refl .first
  cases hs : scan text with
  | error e =>
    obtain ⟨pieces, rest, cause, before, hr, hj, rfl⟩ := scan_error_iff.1 hs
    obtain ⟨cause', hj'⟩ := hj.unified (hr.paired_rest h)
    have hs' : scan (unify text) = .error _ :=
      scan_error_iff.2 ⟨_, _, _, _, by rw [htext]; exact hr.unified h, hj', rfl⟩
    rw [hs', Piece.textAll_unified]
    have hbefore : '\r' ∉ before := by cases hj <;> simp
    have hplace := (hfirst.advance (hr.paired h)).advance (.of_notMem hbefore)
    rw [withoutReturns_of_notMem hbefore] at hplace
    exact .error hplace
  | ok tokens =>
    obtain ⟨pieces, hr, rfl⟩ := scan_ok_iff.1 hs
    have hs' : scan (unify text) = .ok _ := scan_ok_iff.2 ⟨_, by rw [htext]; exact hr.unified h, rfl⟩
    rw [hs', Piece.textAll_unified]
    have hend : Token.Like .unified (endAt (Position.first.advance (Piece.textAll pieces)))
        (endAt (Position.first.advance (withoutReturns (Piece.textAll pieces)))) :=
      like_of_notMem (hfirst.advance (hr.paired h)) List.not_mem_nil nofun
    exact .ok (List.rel_append (hr.forall₂_place h hfirst) (.cons hend .nil))

end Token

end Markup
