/-
Where a scan stops.

A scan moves from cursor to cursor, and each stands further on than the one before
(`Moves`). From some places it cannot go on: a backslash that escapes nothing known, a
parenthesis without a name, digits that write no number (`Fault`). It ends with tokens if
it comes to the end of the text, and else at the one fault that it comes to, which is
then reported; there is no third way (`scan_stops`).
-/
import Markup.Proofs.NumberLiterals
import Markup.Proofs.ScanErrors
import Mathlib.Logic.Relation

namespace Markup.Token

open Text Relation

/-! ## From cursor to cursor -/

/-- A step of a scan leads from a cursor to the one behind what it reads. -/
inductive Moves : Cursor → Cursor → Prop where
  | step {c rest p ts next} : scanStep c p ⟨rest, p.step c⟩ = .ok (ts, next) → Moves ⟨c :: rest, p⟩ next

/-- The cursors that the scan of a text comes to, the one at its start first. -/
def Visits (text : String) : Cursor → Prop := ReflTransGen Moves (.ofText text)

theorem rightUnique_moves : Relator.RightUnique Moves := by
  rintro _ next other ⟨h⟩ ⟨k⟩
  rw [h] at k
  cases k
  rfl

theorem Moves.exists_part {cur next : Cursor} (h : Moves cur next) :
    ∃ part, part ≠ [] ∧ cur.rest = part ++ next.rest ∧ next.position = cur.position.advance part := by
  cases h with
  | @step c rest p ts next h =>
    obtain ⟨pieces, hl, -, hp⟩ := scanStep_ok_iff.1 h
    refine ⟨Piece.textAll pieces, ?_, hl.append_eq, hp⟩
    intro hnil
    have hle := length_scanStep_le h
    have hrest := hl.append_eq
    rw [hnil, List.nil_append] at hrest
    rw [← hrest] at hle
    exact Nat.not_succ_le_self _ hle

theorem Moves.offset_lt {cur next : Cursor} (h : Moves cur next) : cur.position.offset < next.position.offset := by
  obtain ⟨part, hne, -, hp⟩ := h.exists_part
  have hpos := List.length_pos_iff.2 hne
  rw [hp, Position.offset_advance]
  omega

theorem offset_le_of_moves {cur last : Cursor} (h : ReflTransGen Moves cur last) :
    cur.position.offset ≤ last.position.offset := by
  induction h with
  | refl => exact Int.le_refl _
  | tail _ hm ih => exact Int.le_trans ih (Int.le_of_lt hm.offset_lt)

theorem Visits.exists_before {text : String} {cur : Cursor} (h : Visits text cur) :
    ∃ before, text.toList = before ++ cur.rest ∧ cur.position = Position.first.advance before := by
  induction h with
  | refl => exact ⟨[], rfl, rfl⟩
  | tail _ hm ih =>
    obtain ⟨before, htext, hp⟩ := ih
    obtain ⟨part, -, hrest, hnext⟩ := hm.exists_part
    refine ⟨before ++ part, ?_, ?_⟩
    · rw [htext, hrest, List.append_assoc]
    · rw [hnext, hp, Position.advance_append]

/-! ## Faults -/

/-- Why no step leads on from the front of a text, and how many characters behind it that shows. -/
inductive Fault : List Char → ScanError.Cause → Nat → Prop where
  | dangling : Fault ['\\'] .danglingEscape 0
  | unknown {c rest} : c ∉ ['(', ')', '#', '$', '\\', 'n', 's', 't'] → Fault ('\\' :: c :: rest) (.unknownEscape c) 0
  | nameless {rest} : (∀ c, rest.head? = some c → isNameChar c = false) → Fault ('(' :: rest) .missingName 1
  | number {c rest} : c.isDigit = true → ¬ Numeral.IsLiteral ((c :: rest).takeWhile isNumberChar) →
      Fault (c :: rest) (.badNumber (.ofList ((c :: rest).takeWhile isNumberChar))) 0

theorem unescape?_eq_none_iff (c : Char) :
    unescape? c = none ↔ c ∉ ['(', ')', '#', '$', '\\', 'n', 's', 't'] := by
  constructor
  · rintro h hm
    simp only [List.mem_cons, List.not_mem_nil, or_false] at hm
    rcases hm with rfl | rfl | rfl | rfl | rfl | rfl | rfl | rfl <;> cases h
  · intro h
    simp only [List.mem_cons, List.not_mem_nil, or_false, not_or] at h
    unfold unescape?
    split <;> simp_all

theorem takeWhile_number {c : Char} (hc : c.isDigit = true) {rest more behind : List Char}
    (h : Run isNumberChar rest more behind) : (c :: rest).takeWhile isNumberChar = c :: more := by
  rw [List.takeWhile_cons_of_pos (by simp [isNumberChar, hc]), h.takeWhile]

theorem ofText?_run_eq_none_iff {c : Char} (hc : c.isDigit = true) {rest more behind : List Char}
    (h : Run isNumberChar rest more behind) :
    Binary64.ofText? (.ofList (c :: more)) = none ↔ ¬ Numeral.IsLiteral (c :: more) := by
  refine Numeral.ofText?_eq_none_iff ?_ rfl hc
  rintro d (_ | ⟨_, hd⟩)
  · simp [isNumberChar, hc]
  · exact h.all d hd

/-- A fault is a text at the front of which no lexeme stands. -/
theorem fault_iff_jams {cs : List Char} {cause : ScanError.Cause} {k : Nat} :
    Fault cs cause k ↔ ∃ before, Jams cs cause before ∧ cs.take k = before ∧ before.length = k := by
  constructor
  · intro h
    cases h with
    | dangling => exact ⟨[], .dangling, rfl, rfl⟩
    | unknown hc => exact ⟨[], .unknown ((unescape?_eq_none_iff _).2 hc), rfl, rfl⟩
    | nameless hn => exact ⟨['('], .nameless hn, rfl, rfl⟩
    | @number c rest hd hl =>
      have hr := run_takeWhile isNumberChar rest
      rw [takeWhile_number hd hr] at hl ⊢
      exact ⟨[], .number hd hr ((ofText?_run_eq_none_iff hd hr).2 hl), rfl, rfl⟩
  · rintro ⟨before, h, -, rfl⟩
    cases h with
    | dangling => exact .dangling
    | unknown hc => exact .unknown ((unescape?_eq_none_iff _).1 hc)
    | nameless hn => exact .nameless hn
    | @number c rest more behind hd hr hv =>
      rw [← takeWhile_number hd hr]
      exact .number hd (takeWhile_number hd hr ▸ (ofText?_run_eq_none_iff hd hr).1 hv)

theorem scanStep_error_iff_fault {c : Char} {rest : List Char} {p : Position} {e : ScanError} :
    scanStep c p ⟨rest, p.step c⟩ = .error e ↔
      ∃ k, Fault (c :: rest) e.cause k ∧ e.position = p.advance ((c :: rest).take k) := by
  rw [scanStep_error_iff]
  constructor
  · rintro ⟨cause, before, hj, rfl⟩
    obtain ⟨after, hcs⟩ : ∃ after, c :: rest = before ++ after := by cases hj <;> exact ⟨_, rfl⟩
    have htake : (c :: rest).take before.length = before := by rw [hcs, List.take_left]
    exact ⟨before.length, fault_iff_jams.2 ⟨before, hj, htake, rfl⟩, by rw [htake]⟩
  · rintro ⟨k, hf, hp⟩
    obtain ⟨before, hj, htake, -⟩ := fault_iff_jams.1 hf
    exact ⟨e.cause, before, hj, by rw [← htake, ← hp]⟩

theorem Fault.scanStep_eq {c : Char} {rest : List Char} {cause : ScanError.Cause} {k : Nat}
    (h : Fault (c :: rest) cause k) (p : Position) :
    scanStep c p ⟨rest, p.step c⟩ = .error ⟨cause, p.advance ((c :: rest).take k)⟩ :=
  scanStep_error_iff_fault.2 ⟨k, h, rfl⟩

theorem Fault.not_moves {cur next : Cursor} {cause : ScanError.Cause} {k : Nat} (h : Fault cur.rest cause k) :
    ¬ Moves cur next := by
  rintro ⟨hs⟩
  rw [h.scanStep_eq] at hs
  cases hs

/-- Why and where a scan stops at a fault is told by the fault. -/
theorem Fault.unique {cs : List Char} {cause cause' : ScanError.Cause} {k k' : Nat} (h : Fault cs cause k)
    (h' : Fault cs cause' k') (p : Position) : cause = cause' ∧ p.advance (cs.take k) = p.advance (cs.take k') := by
  cases cs with
  | nil => cases h
  | cons c rest =>
    have hs := h.scanStep_eq p
    rw [h'.scanStep_eq p, Except.error.injEq, ScanError.mk.injEq] at hs
    exact ⟨hs.1.symm, hs.2.symm⟩

/-! ## Where a scan stops -/

theorem exists_end_of_scanFrom {cur : Cursor} {tokens : List Token} (h : scanFrom cur = .ok tokens) :
    ∃ last, ReflTransGen Moves cur last ∧ last.rest = [] := by
  fun_induction scanFrom cur generalizing tokens with
  | case1 cur hr => exact ⟨cur, .refl, hr⟩
  | case2 cur c rest hr e hs => cases h
  | case3 cur c rest hr ts next hs e he ih => cases h
  | case4 cur c rest hr ts next hs more hm ih =>
    obtain ⟨last, hl, hend⟩ := ih hm
    obtain ⟨cs, p⟩ := cur
    obtain rfl : cs = c :: rest := hr
    exact ⟨last, .head (.step hs) hl, hend⟩

theorem exists_fault_of_scanFrom {cur : Cursor} {e : ScanError} (h : scanFrom cur = .error e) :
    ∃ last k, ReflTransGen Moves cur last ∧ Fault last.rest e.cause k ∧
      e.position = last.position.advance (last.rest.take k) := by
  fun_induction scanFrom cur with
  | case1 cur hr => cases h
  | case2 cur c rest hr f hs =>
    cases h
    obtain ⟨cs, p⟩ := cur
    obtain rfl : cs = c :: rest := hr
    obtain ⟨k, hf, hp⟩ := scanStep_error_iff_fault.1 hs
    exact ⟨⟨c :: rest, p⟩, k, .refl, hf, hp⟩
  | case3 cur c rest hr ts next hs f he ih =>
    cases h
    obtain ⟨last, k, hl, hf, hp⟩ := ih he
    obtain ⟨cs, p⟩ := cur
    obtain rfl : cs = c :: rest := hr
    exact ⟨last, k, .head (.step hs) hl, hf, hp⟩
  | case4 cur c rest hr ts next hs more hm ih => cases h

/-- Of two cursors that a scan comes to, one of which it cannot leave, the other comes first. -/
theorem moves_of_stuck {start cur other : Cursor} (hc : ReflTransGen Moves start cur)
    (ho : ReflTransGen Moves start other) (hs : ∀ next, ¬ Moves cur next) : ReflTransGen Moves other cur := by
  rcases ReflTransGen.total_of_right_unique rightUnique_moves hc ho with h | h
  · rcases h.cases_head with rfl | ⟨next, hm, -⟩
    · exact .refl
    · exact absurd hm (hs next)
  · exact h

theorem eq_of_stuck {start cur other : Cursor} (hc : ReflTransGen Moves start cur)
    (ho : ReflTransGen Moves start other) (hs : ∀ next, ¬ Moves cur next) (hs' : ∀ next, ¬ Moves other next) :
    cur = other := by
  rcases (moves_of_stuck hc ho hs).cases_head with h | ⟨next, hm, -⟩
  · exact h.symm
  · exact absurd hm (hs' next)

theorem not_moves_of_end {cur next : Cursor} (h : cur.rest = []) : ¬ Moves cur next := by
  rintro ⟨-⟩
  cases h

/-- How the scan of a text stops at a cursor: `behind` characters further on stands what is reported. -/
structure StopsAt (text : String) (e : ScanError) (cur : Cursor) (behind : Nat) : Prop where
  visits : Visits text cur
  fault : Fault cur.rest e.cause behind
  offset : e.position.offset = cur.position.offset + behind
  position : e.position.IsIn text.toList
  /-- No cursor that the scan comes to before is a fault, and it comes to none behind. -/
  first : ∀ other, Visits text other → other ≠ cur →
    other.position.offset < cur.position.offset ∧ ∀ cause k, ¬ Fault other.rest cause k

theorem stopsAt_of_fault {text : String} {e : ScanError} {cur : Cursor} {k : Nat} (hv : Visits text cur)
    (hf : Fault cur.rest e.cause k) (hp : e.position = cur.position.advance (cur.rest.take k)) :
    StopsAt text e cur k := by
  obtain ⟨before, htext, hcur⟩ := hv.exists_before
  obtain ⟨part, -, htake, hlength⟩ := fault_iff_jams.1 hf
  refine ⟨hv, hf, ?_, ?_, ?_⟩
  · rw [hp, Position.offset_advance, htake, hlength]
  · rw [hp, hcur, ← Position.advance_append, htext, ← List.take_append_drop k cur.rest, ← List.append_assoc,
      List.take_append_drop]
    exact Position.isIn_advance _ _
  · intro other ho hne
    rcases (moves_of_stuck hv ho fun _ => hf.not_moves).cases_head with h | ⟨next, hm, hrest⟩
    · exact absurd h hne
    · refine ⟨Int.lt_of_lt_of_le hm.offset_lt (offset_le_of_moves hrest), ?_⟩
      intro cause k hother
      exact hother.not_moves hm

/-- A scan fails exactly with the fault that it comes to. -/
theorem scan_error_iff_stopsAt {text : String} {e : ScanError} :
    scan text = .error e ↔ ∃ cur k, Visits text cur ∧ Fault cur.rest e.cause k ∧
      e.position = cur.position.advance (cur.rest.take k) := by
  constructor
  · intro h
    obtain ⟨cur, k, hv, hf, hp⟩ := exists_fault_of_scanFrom h
    exact ⟨cur, k, hv, hf, hp⟩
  · rintro ⟨cur, k, hv, hf, hp⟩
    cases hs : scan text with
    | ok tokens =>
      obtain ⟨last, hl, hend⟩ := exists_end_of_scanFrom hs
      obtain rfl := eq_of_stuck hv hl (fun _ => hf.not_moves) fun _ => not_moves_of_end hend
      rw [hend] at hf
      cases hf
    | error f =>
      obtain ⟨other, k', ho, hg, hq⟩ := exists_fault_of_scanFrom hs
      obtain rfl := eq_of_stuck hv ho (fun _ => hf.not_moves) fun _ => hg.not_moves
      obtain ⟨hcause, hposition⟩ := hf.unique hg cur.position
      obtain ⟨cause, position⟩ := e
      obtain ⟨cause', position'⟩ := f
      simp only at hcause hp hq
      rw [hcause, hp, hq, hposition]

theorem scan_ok_iff_end {text : String} :
    (∃ tokens, scan text = .ok tokens) ↔ ∃ cur, Visits text cur ∧ cur.rest = [] := by
  constructor
  · rintro ⟨tokens, h⟩
    exact exists_end_of_scanFrom h
  · rintro ⟨cur, hv, hend⟩
    cases hs : scan text with
    | ok tokens => exact ⟨tokens, rfl⟩
    | error e =>
      obtain ⟨other, k, ho, hf, -⟩ := exists_fault_of_scanFrom hs
      obtain rfl := eq_of_stuck hv ho (fun _ => not_moves_of_end hend) fun _ => hf.not_moves
      rw [hend] at hf
      cases hf

theorem Fault.message_ne_unexpected {cs : List Char} {e : ScanError} {k : Nat} (h : Fault cs e.cause k) :
    ¬ "unexpected character".toList <+: e.message.toList := by
  obtain ⟨cause, position⟩ := e
  cases h <;> simp [ScanError.message]

/-- A scan comes to the end of its text, and then it has tokens, or to one fault, which it reports. Every
character that begins nothing else is blank, so that none is unexpected. -/
theorem scan_stops (text : String) :
    (∀ cur, Visits text cur → cur.position.IsIn text.toList ∧
      cur.rest = text.toList.drop cur.position.offset.toNat) ∧
    ((∃ tokens, scan text = .ok tokens) ↔ ∃ cur, Visits text cur ∧ cur.rest = []) ∧
    ((∃ e, scan text = .error e) ↔ ∃ cur cause k, Visits text cur ∧ Fault cur.rest cause k) ∧
    (∀ e, scan text = .error e → ∃ cur k, StopsAt text e cur k) ∧
    (∀ e, scan text = .error e → ¬ "unexpected character".toList <+: e.message.toList) ∧
    ∀ c, c ∉ ['\\', '$', '(', ')', '#', '|', '/'] → isTextChar c = false → isBlank c = true := by
  refine ⟨?_, scan_ok_iff_end, ?_, ?_, ?_, fun c => isBlank_of_begins_nothing⟩
  · intro cur hv
    obtain ⟨before, htext, hp⟩ := hv.exists_before
    rw [htext, hp, Position.offset_advance_first, Int.toNat_natCast, List.drop_left]
    exact ⟨Position.isIn_advance _ _, rfl⟩
  · constructor
    · rintro ⟨e, h⟩
      obtain ⟨cur, k, hv, hf, -⟩ := scan_error_iff_stopsAt.1 h
      exact ⟨cur, e.cause, k, hv, hf⟩
    · rintro ⟨cur, cause, k, hv, hf⟩
      exact ⟨⟨cause, _⟩, scan_error_iff_stopsAt.2 ⟨cur, k, hv, hf, rfl⟩⟩
  · intro e h
    obtain ⟨cur, k, hv, hf, hp⟩ := scan_error_iff_stopsAt.1 h
    exact ⟨cur, k, stopsAt_of_fault hv hf hp⟩
  · intro e h
    obtain ⟨cur, k, -, hf, -⟩ := scan_error_iff_stopsAt.1 h
    exact hf.message_ne_unexpected

/-- Of two faults the one that is come to first is reported. -/
example : scan "|\\q (" = .error ⟨.unknownEscape 'q', ⟨1, 2, 1⟩⟩ := by cbv

end Markup.Token
