/-
Calls and definitions that have been read stay: whatever comes, each is a node
of the tree (`State.Holds.mem_of_run`). Only text can be lost, at the edges of
a variable's value.
-/
import Markup.Proofs.LineEdges
import Markup.Proofs.Nesting
import Markup.Proofs.Preorder

namespace Markup.Node

theorem mem_preorderAll_reverse {node : Node} {nodes : List Node} :
    node ∈ preorderAll nodes.reverse ↔ node ∈ preorderAll nodes := by
  simp [mem_preorderAll_iff]

theorem mem_groupPreorderAll_reverse {node : Node} {groups : List Group} :
    node ∈ Group.preorderAll groups.reverse ↔ node ∈ Group.preorderAll groups := by
  simp [mem_groupPreorderAll_iff]

theorem preorder_of_leaf? {t : Token} {node : Node} {trimmable : Bool} (h : leaf? t = some (node, trimmable)) :
    node.preorder = [node] := by
  obtain ⟨kind, value, raw, span⟩ := t
  cases kind with
  | keyword | identifier | comment | openParen | closeParen | endOfInput => cases h
  | _ => cases h; rw [preorder]

/-! ## What is held -/

/-- Whether a node is among those read so far, or in one of them. -/
def Context.Holds (node : Node) : Context → Prop
  | .document values => node ∈ preorderAll values
  | .call _ _ groups _ values outer =>
    node ∈ Group.preorderAll groups ∨ node ∈ preorderAll values ∨ outer.Holds node
  | .define _ _ _ values outer => node ∈ preorderAll values ∨ outer.Holds node
  | .line _ _ _ pieces outer => node ∈ preorderAll (pieces.map (·.node)) ∨ outer.Holds node

/-- Between two groups of a call the finished ones wait outside of the constructs. -/
def State.Holds (node : Node) (st : State) : Prop :=
  st.context.Holds node ∨
    match st.mode with
    | .group _ _ groups => node ∈ Group.preorderAll groups
    | .ready | .name .. | .blank _ | .params .. => False

theorem Context.holds_push {ctx : Context} {node added : Node} {trimmable : Bool} :
    (ctx.push added trimmable).Holds node ↔ node ∈ added.preorder ∨ ctx.Holds node := by
  cases ctx with
  | document | define | line => simp [push, Holds, preorderAll, or_assoc]
  | call =>
    simp only [push, Holds, preorderAll, List.mem_append]
    exact ⟨fun h => (by rcases h with h | (h | h) | h <;> simp [h]),
      fun h => (by rcases h with h | h | h | h <;> simp [h])⟩

variable {node : Node}

theorem mem_addGroup {groups : List Group} {values : List Node} {span : Span} :
    node ∈ Group.preorderAll (addGroup groups values span) ↔
      node ∈ Group.preorderAll groups ∨ node ∈ preorderAll values := by
  rw [addGroup, Group.preorderAll, List.mem_append, Group.preorder, mem_preorderAll_reverse, or_comm]

theorem mem_closedGroups {groups : List Group} {values : List Node} {span : Span} :
    node ∈ Group.preorderAll (closedGroups groups values span).reverse ↔
      node ∈ Group.preorderAll groups ∨ node ∈ preorderAll values := by
  rw [mem_groupPreorderAll_reverse, closedGroups]
  split
  next hnone =>
    simp only [Bool.and_eq_true, List.isEmpty_iff] at hnone
    obtain ⟨rfl, rfl⟩ := hnone
    simp [Group.preorderAll, preorderAll]
  next => exact mem_addGroup

theorem State.Meets.holds {st : State} {t : Token} {ctx : Context} (hm : st.Meets t ctx)
    (h : st.Holds node) : ctx.Holds node := by
  cases hm with
  | ready hm => simpa [State.Holds, hm] using h
  | group hm => simpa [State.Holds, hm, Context.Holds, preorderAll, or_comm] using h
  | body hm => simpa [State.Holds, hm, Context.Holds, preorderAll] using h

theorem Begins.holds {ctx : Context} {construct : Named} {start : Position} {t : Token} {next : State}
    (hn : Begins ctx start t construct next) (h : ctx.Holds node) : next.Holds node := by
  cases hn with
  | blank | call | define => exact .inl h
  | use => exact .inl (Context.holds_push.2 (.inr h))
  | bind => exact .inl (.inr h)

/-! ## Values -/

theorem mem_bound (hb : isBracket node = true) {pieces : List Piece}
    (h : node ∈ preorderAll (pieces.map (·.node))) (start stop : Position) (name : String) (changes : Bool) :
    node ∈ (Context.bound start stop name changes pieces).preorder := by
  obtain ⟨top, htop, hn⟩ := mem_preorderAll_iff.1 h
  obtain ⟨piece, hp, rfl⟩ := List.mem_map.1 htop
  have ht : ∀ value span, piece.node ≠ .text value span := by
    intro value span he
    rw [he, preorder, List.mem_singleton] at hn
    rw [hn] at hb
    cases hb
  rw [Context.bound, preorder]
  refine List.mem_cons_of_mem _ (mem_preorderAll_iff.2 ⟨piece.node, ?_, hn⟩)
  exact List.mem_map_of_mem (mem_trimLine ht (List.mem_reverse.2 hp))

variable (hb : isBracket node = true)
include hb

theorem Context.Holds.closeLine {ctx : Context} (h : ctx.Holds node) (stop : Position) :
    (ctx.closeLine stop).Holds node := by
  cases ctx with
  | document | call | define => exact h
  | line start name changes pieces outer =>
    rw [Context.closeLine, Context.holds_push]
    exact h.imp (fun h => mem_bound hb h start stop name changes) id

theorem Context.holds_closeLinesWith (stop : Position) : ∀ {ctx : Context} {added : Option Node},
    (∃ top ∈ added, node ∈ top.preorder) ∨ ctx.Holds node → (closeLinesWith stop ctx added).Holds node
  | .line start name changes pieces outer, added, h => by
    simp only [closeLinesWith]
    refine holds_closeLinesWith stop ?_
    rcases h with ⟨top, ht, h⟩ | h | h
    · refine .inl ⟨_, rfl, mem_bound hb ?_ start stop name changes⟩
      rw [Option.mem_def.1 ht]
      simp [preorderAll, h]
    · refine .inl ⟨_, rfl, mem_bound hb ?_ start stop name changes⟩
      rw [List.map_append, preorderAll_append]
      exact List.mem_append_right _ h
    · exact .inr h
  | .document _, some top, h | .call _ _ _ _ _ _, some top, h | .define _ _ _ _ _, some top, h => by
    simpa [closeLinesWith, holds_push] using h
  | .document _, none, h | .call _ _ _ _ _ _, none, h | .define _ _ _ _ _, none, h => by
    simpa [closeLinesWith] using h

theorem Context.Holds.closeLines {ctx : Context} (h : ctx.Holds node) (stop : Position) :
    (ctx.closeLines stop).Holds node :=
  holds_closeLinesWith hb stop (.inr h)

/-! ## One token -/

theorem Takes.holds {ctx : Context} {lastStop : Position} {t : Token} {next : State}
    (ht : Takes ctx lastStop t next) (h : ctx.Holds node) : next.Holds node := by
  have hclose := h.closeLines hb lastStop
  cases ht with
  | opens | skips => exact .inl h
  | leaf => exact .inl (Context.holds_push.2 (.inr h))
  | endsLine => exact .inl (h.closeLine hb _)
  | separates hk he =>
    rw [he] at hclose
    rcases hclose with h | h | h
    · exact .inr (mem_addGroup.2 (.inl h))
    · exact .inr (mem_addGroup.2 (.inr h))
    · exact .inl h
  | closesCall hk he =>
    rw [he] at hclose
    refine .inl (Context.holds_push.2 ?_)
    rw [preorder]
    rcases hclose with h | h | h
    · exact .inl (List.mem_cons_of_mem _ (mem_closedGroups.2 (.inl h)))
    · exact .inl (List.mem_cons_of_mem _ (mem_closedGroups.2 (.inr h)))
    · exact .inr h
  | closesDefinition hk he =>
    rw [he] at hclose
    refine .inl (Context.holds_push.2 ?_)
    rw [preorder]
    rcases hclose with h | h
    · exact .inl (List.mem_cons_of_mem _ (mem_preorderAll_reverse.2 h))
    · exact .inr h
  | ends hk he =>
    rw [he] at hclose
    exact .inl hclose

/-- No token makes a state lose a call or a definition. -/
theorem State.Holds.step {st next : State} {t : Token} (h : st.Holds node) (hs : st.step t = .ok next) :
    next.Holds node := by
  rcases State.step_cases hs with ⟨ctx, hm, ht⟩ | ⟨construct, start, hm, hk, hn⟩ |
    ⟨start, name, params, hm, hk, _, rfl⟩
  · exact ht.holds hb (hm.holds h)
  · exact hn.holds (by simpa [State.Holds, hm] using h)
  · exact .inl (by simpa [State.Holds, hm] using h)

/-- What a state holds is in the tree. -/
theorem State.Holds.mem_of_run {nodes : List Node} : ∀ {tokens : List Token} {st : State}, st.Holds node →
    st.run tokens = .ok nodes → node ∈ preorderAll nodes
  | [], st, h, hr => by
    obtain ⟨values, hs, rfl⟩ := State.exists_step_of_run_end rfl (st.run_nil ▸ hr)
    exact mem_preorderAll_reverse.2 ((h.step hb hs).resolve_right id)
  | t :: rest, st, h, hr => by
    by_cases hk : t.kind = .endOfInput
    · obtain ⟨values, hs, rfl⟩ := State.exists_step_of_run_end hk hr
      exact mem_preorderAll_reverse.2 ((h.step hb hs).resolve_right id)
    · obtain ⟨next, hs, hr⟩ := (State.run_cons_ok_iff hk).1 hr
      exact mem_of_run (h.step hb hs) hr

end Markup.Node
