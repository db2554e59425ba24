/-
The brackets that are open behind tokens, and the pipes that stand directly in one.

`openBehind` follows the tokens alone, by the first token of each bracket; a state
has as many brackets open as these (`exists_openBehind`).
-/
import Markup.Proofs.ParseLanguage

namespace Markup.Node

/-! ## Brackets and their pipes -/

/-- The first tokens of the brackets that are open behind a token, innermost first, given those open
before it. -/
def openBehind (stack : List Token) (t : Token) : List Token :=
  match edge? t with
  | some (.opening _) => t :: stack
  | some (.closing _) => stack.tail
  | none => stack

/-- The first tokens of the brackets that are open behind tokens, innermost first. -/
def openAfter (tokens : List Token) : List Token := tokens.foldl openBehind []

/-- How many pipes there are among tokens for which the bracket that begins with `opener` is the innermost
one open; those that begin with the tokens in `stack` are open before. -/
def ownPipes (opener : Token) : (stack tokens : List Token) → Nat
  | _, [] => 0
  | stack, t :: rest =>
    (if t.kind = .pipe ∧ stack.head? = some opener then 1 else 0) + ownPipes opener (openBehind stack t) rest

/-- Tokens cut at these pipes. -/
def cutAtPipes (opener : Token) : (stack tokens : List Token) → List (List Token)
  | _, [] => [[]]
  | stack, t :: rest =>
    if t.kind = .pipe ∧ stack.head? = some opener then [] :: cutAtPipes opener (openBehind stack t) rest
    else (cutAtPipes opener (openBehind stack t) rest).modifyHead (t :: ·)

section

variable {opener t : Token} {stack tokens : List Token}

theorem openBehind_of_edge? (h : edge? t = none) (stack : List Token) : openBehind stack t = stack := by
  rw [openBehind, h]

theorem openBehind_of_openParen (h : t.kind = .openParen) (stack : List Token) : openBehind stack t = t :: stack := by
  simp [openBehind, edge?, h]

theorem openBehind_of_closeParen (h : t.kind = .closeParen) (stack : List Token) :
    openBehind stack t = stack.tail := by
  simp [openBehind, edge?, h]

theorem openBehind_of_identifier (h : t.kind = .identifier) (stack : List Token) : openBehind stack t = stack :=
  openBehind_of_edge? (by simp [edge?, h]) stack

theorem length_cutAtPipes (opener : Token) (stack tokens : List Token) :
    (cutAtPipes opener stack tokens).length = ownPipes opener stack tokens + 1 := by
  induction tokens generalizing stack with
  | nil => rfl
  | cons t rest ih =>
    rw [cutAtPipes, ownPipes]
    split
    next => rw [List.length_cons, ih, Nat.add_comm 1]
    next => rw [List.length_modifyHead, ih, Nat.zero_add]

theorem ownPipes_append (opener : Token) (stack tokens more : List Token) : ownPipes opener stack (tokens ++ more) =
    ownPipes opener stack tokens + ownPipes opener (tokens.foldl openBehind stack) more := by
  induction tokens generalizing stack with
  | nil => simp [ownPipes]
  | cons t rest ih => rw [List.cons_append, ownPipes, ownPipes, ih, List.foldl_cons, Nat.add_assoc]

theorem ownPipes_cons_of_kind (h : t.kind ≠ .pipe) (opener : Token) (stack rest : List Token) :
    ownPipes opener stack (t :: rest) = ownPipes opener (openBehind stack t) rest := by
  rw [ownPipes, if_neg (fun hk => h hk.1), Nat.zero_add]

theorem mem_openBehind {u : Token} (h : u ∈ openBehind stack t) : u = t ∨ u ∈ stack := by
  unfold openBehind at h
  split at h
  next => exact List.mem_cons.1 h
  next => exact .inr (List.mem_of_mem_tail h)
  next => exact .inr h

theorem mem_openAfter {u : Token} (h : u ∈ tokens.foldl openBehind stack) : u ∈ stack ∨ u ∈ tokens := by
  induction tokens generalizing stack with
  | nil => exact .inl h
  | cons t rest ih =>
    rcases ih h with h | h
    · rcases mem_openBehind h with rfl | h
      · exact .inr List.mem_cons_self
      · exact .inl h
    · exact .inr (List.mem_cons_of_mem t h)

theorem ownPipes_eq_zero (hs : opener ∉ stack) (ht : opener ∉ tokens) : ownPipes opener stack tokens = 0 := by
  induction tokens generalizing stack with
  | nil => rfl
  | cons t rest ih =>
    obtain ⟨hne, hrest⟩ := List.ne_and_not_mem_of_not_mem_cons ht
    have hhead : stack.head? ≠ some opener := fun h => hs (List.mem_of_mem_head? h)
    rw [ownPipes, if_neg (fun h => hhead h.2), Nat.zero_add]
    refine ih ?_ hrest
    intro hm
    rcases mem_openBehind hm with he | hm
    · exact hne he
    · exact hs hm

end

/-! ## How many brackets are open -/

theorem Shape.stepReady_brackets {brackets : List Bracket} {t : Token} {s : Shape}
    (h : Shape.stepReady brackets t = .ok s) (hi : t.kind ≠ .endOfInput) :
    match edge? t with
    | some (.opening _) => s.brackets.length = brackets.length + 1
    | some (.closing _) => brackets.length = s.brackets.length + 1
    | none => s.brackets.length = brackets.length := by
  obtain ⟨kind, value, raw, span⟩ := t
  cases kind with
  | endOfInput => exact absurd rfl hi
  | identifier => cases h
  | closeParen =>
    rcases brackets with _ | ⟨_ | _, outer⟩ <;> cases h
    rfl
  | keyword word =>
    cases word with
    | endWord =>
      rcases brackets with _ | ⟨_ | _, outer⟩ <;> cases h
      rfl
    | letWord | setWord | useWord | defWord => cases h; rfl
  | _ => cases h; rfl

theorem Shape.step_brackets {s next : Shape} {t : Token} (h : s.step t = .ok next) (hi : t.kind ≠ .endOfInput) :
    match edge? t with
    | some (.opening _) => next.brackets.length = s.brackets.length + 1
    | some (.closing _) => s.brackets.length = next.brackets.length + 1
    | none => next.brackets.length = s.brackets.length := by
  obtain ⟨brackets, phase⟩ := s
  cases phase with
  | ready => exact Shape.stepReady_brackets h hi
  | name construct =>
    simp only [Shape.step] at h
    split at h
    next hk =>
      cases h
      have hedge : edge? t = none := by simp [edge?, hk]
      rw [hedge]
      simp only [Shape.stepName]
      split
      next => rfl
      next => split <;> [rfl; (split <;> rfl)]
    next => cases h
  | blank => cases h
  | params =>
    simp only [Shape.step] at h
    split at h
    next hk =>
      split at h
      next => cases h
      next =>
        cases h
        have hedge : edge? t = none := by simp [edge?, hk]
        rw [hedge]
    next => exact Shape.stepReady_brackets h hi
    next => exact Shape.stepReady_brackets h hi
    next => exact Shape.stepReady_brackets h hi
    next => exact Shape.stepReady_brackets h hi
    next => cases h
    next => cases h

/-- The brackets open behind a token, where `inside` are those open in a bracket that begins with
`opener`: as many of them as the state behind the token has open, and the bracket stays open. -/
theorem exists_openBehind {st next : State} {t opener : Token} {inside : List Token} (h : st.step t = .ok next)
    (hi : t.kind ≠ .endOfInput) (hl : inside.length = st.shape.brackets.length) (ho : opener ∉ inside)
    (ht : opener ≠ t) (stack : List Token) :
    ∃ more, openBehind (inside ++ opener :: stack) t = more ++ opener :: stack ∧
      more.length = next.shape.brackets.length ∧ opener ∉ more := by
  have hshape : st.shape.step t = .ok next.shape := by rw [← State.shape_step, h, Except.map]
  have hb := Shape.step_brackets hshape hi
  rw [← hl] at hb
  unfold openBehind
  split at hb
  next => exact ⟨t :: inside, rfl, hb.symm, List.not_mem_cons_of_ne_of_not_mem ht ho⟩
  next =>
    cases inside with
    | nil => simp at hb
    | cons u inside => exact ⟨inside, rfl, Nat.succ.inj hb, fun hm => ho (List.mem_cons_of_mem u hm)⟩
  next => exact ⟨inside, rfl, hb.symm, ho⟩

/-- The bracket is the innermost one open if none is open in it. -/
theorem head?_eq_opener_iff {opener : Token} {inside : List Token} (ho : opener ∉ inside) (stack : List Token) :
    (inside ++ opener :: stack).head? = some opener ↔ inside = [] := by
  cases inside with
  | nil => simp
  | cons u inside =>
    have hne : u ≠ opener := fun he => ho (he ▸ List.mem_cons_self)
    simp [hne]

end Markup.Node
