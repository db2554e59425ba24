/-
Reading tokens where there is only so much room.

Room runs out at the first token that a state has none for, if the tokens before it are
taken and none of them marks the end (`Node.State.Fills`). Then there are no nodes, and
it does not count what stands behind; in every other case the same comes of the tokens
as with room for all of them (`Node.parseWithin_of_not_fills`). So the command goes the
way of `compile` from a text on, as long as there is room for the text
(`CommandLine.Host.HasRoom`).
-/
import Markup.CommandLine.Run

namespace Markup

namespace Node

/-! ## Where room runs out -/

/-- Whether tokens lead from a state to one that has no room for the next of them, which may be the end that
is understood behind the last. -/
inductive State.Fills (isFull : State → Token → Bool) : State → List Token → Prop where
  | atEnd {st : State} : isFull st ⟨.endOfInput, "", "", ⟨st.lastStop, st.lastStop⟩⟩ = true → Fills isFull st []
  | here {st : State} {t : Token} {rest : List Token} : isFull st t = true → Fills isFull st (t :: rest)
  | step {st next : State} {t : Token} {rest : List Token} : t.kind ≠ .endOfInput → st.step t = .ok next →
      Fills isFull next rest → Fills isFull st (t :: rest)

variable {isFull : State → Token → Bool} {st : State} {tokens : List Token}

theorem State.not_fills_of_room (h : ∀ st t, isFull st t = false) : ¬ st.Fills isFull tokens := by
  intro hf
  induction hf with
  | atEnd hfull | here hfull =>
    rw [h] at hfull
    cases hfull
  | step _ _ _ ih => exact ih

theorem State.runWithin_of_fills (h : st.Fills isFull tokens) : st.runWithin isFull tokens = .error .full := by
  induction h with
  | atEnd hfull => rw [runWithin, if_pos hfull]
  | here hfull => rw [runWithin, if_pos hfull]
  | step hk hs _ ih =>
    rw [runWithin, hs]
    simp only [hk, if_false, ih, ite_self]

theorem State.runWithin_of_not_fills (h : ¬ st.Fills isFull tokens) :
    st.runWithin isFull tokens = (st.run tokens).mapError .refused := by
  induction tokens generalizing st with
  | nil => rw [runWithin, if_neg fun hfull => h (.atEnd hfull)]
  | cons t rest ih =>
    rw [runWithin, if_neg fun hfull => h (.here hfull), run]
    cases hs : st.step t with
    | error e => rfl
    | ok next =>
      simp only
      split
      next => rfl
      next hk => exact ih fun hnext => h (.step hk hs hnext)

theorem parseWithin_of_fills (h : State.start.Fills isFull tokens) : parseWithin isFull tokens = .error .full :=
  State.runWithin_of_fills h

theorem parseWithin_of_not_fills (h : ¬ State.start.Fills isFull tokens) :
    parseWithin isFull tokens = (parse tokens).mapError .refused :=
  State.runWithin_of_not_fills h

end Node

namespace CommandLine

/-! ## The command -/

/-- Whether there is room for the tokens of a text. -/
def Host.HasRoom (host : Host) (source : String) : Prop :=
  ∀ tokens, Token.scan source = .ok tokens → ¬ Node.State.start.Fills host.isFull tokens

theorem Host.hasRoom_of_isFull {host : Host} (h : ∀ st t, host.isFull st t = false) (source : String) :
    host.HasRoom source :=
  fun _ _ => Node.State.not_fills_of_room h

section

variable {host : Host} {source : String}

/-- What comes of a text, apart from the outlines. -/
theorem compileText_snd (h : host.HasRoom source) (o : Options) (disk : Disk) (now : BuiltIn.Moment) :
    (compileText host o disk now source).2 =
      match Node.ofText source with
      | .error e => .error (.text (.text e) source)
      | .ok nodes => finishFile host o disk now source nodes := by
  rw [compileText, Node.ofText]
  cases hs : Token.scan source with
  | error => rfl
  | ok tokens =>
    simp only [Node.parseWithin_of_not_fills (h tokens hs)]
    cases Node.parse tokens <;> rfl

theorem compileText_of_not_hasRoom (h : ¬ host.HasRoom source) (o : Options) (disk : Disk) (now : BuiltIn.Moment) :
    (compileText host o disk now source).2 = .error (.crash .full) := by
  simp only [Host.HasRoom, Classical.not_forall, Classical.not_not] at h
  obtain ⟨tokens, hs, hf⟩ := h
  simp only [compileText, hs, Node.parseWithin_of_fills hf]

end

/-- Whether there is room for the tokens of what a file holds, if it holds a text. -/
def Host.HasRoomAt (host : Host) (disk : Disk) (path : Path) : Prop :=
  ∀ source, disk.readText path = .ok source → host.HasRoom source

theorem compileFile_of_not_hasRoomAt {host : Host} {o : Options} {disk : Disk} {now : BuiltIn.Moment}
    (h : ¬ host.HasRoomAt disk o.input) : (compileFile host o disk now).2 = .error (.crash .full) := by
  simp only [Host.HasRoomAt, Classical.not_forall] at h
  obtain ⟨source, hr, hf⟩ := h
  simp only [compileFile, hr]
  exact compileText_of_not_hasRoom hf o disk now

end CommandLine

end Markup
