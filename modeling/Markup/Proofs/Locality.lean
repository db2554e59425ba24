/-
Calls and definitions are read the same wherever they stand: the part of a
text that one was read from, read as a document of its own, gives that node
alone, with its places counted from its start.

Its first token is found by the order of the tree (`exists_opener`), and what
is read from there to its end by `exists_closing`; that this is the node itself
and no other follows from where it starts (`exists_tokens_of_node`).
-/
import Markup.Proofs.Excerpts
import Markup.Proofs.HeldNodes
import Markup.Proofs.ParseStarts

namespace Markup.Node

/-- A node with its places counted from its start. -/
def rebased (node : Node) : Node := node.moved (Position.rebase node.span.start)

theorem State.step_opener_document {t : Token} {construct : Named} (ho : t.kind.opens? = some construct)
    (lastStop : Position) : State.step ⟨.document [], .ready, lastStop⟩ t =
      .ok ⟨.document [], .name construct t.span.start, t.span.stop⟩ := by
  have hk := opens?_eq_some_iff.1 ho
  rcases construct with _ | _ | _ | ⟨_ | _⟩ <;>
    simp [State.step, stepReady, stepInner, stepValue, hk, Named.opener]

/-- Where tokens have a tree, behind one that opens a construct they are read as what that construct is made of. -/
theorem State.exists_run_behind_opener {before after : List Token} {opener : Token} {construct : Named} {st : State}
    {nodes : List Node} (hbefore : ∀ t ∈ before, t.kind ≠ .endOfInput) (ho : opener.kind.opens? = some construct)
    (h : st.run (before ++ opener :: after) = .ok nodes) :
    ∃ ctx, State.run ⟨ctx, .name construct opener.span.start, opener.span.stop⟩ after = .ok nodes := by
  have hopener : opener.kind ≠ .endOfInput := by
    intro hk
    rw [hk] at ho
    cases ho
  obtain ⟨mid, -, hrun⟩ := State.exists_steps_of_run hbefore h
  obtain ⟨next, hs, hrun⟩ := (State.run_cons_ok_iff hopener).1 hrun
  obtain ⟨ctx, rfl⟩ := State.step_opener ho hs
  exact ⟨ctx, hrun⟩

theorem head_ne_text {node : Node} (hb : isBracket node = true) (value : String) :
    some (Head.text value) ≠ some node.head := by
  cases node with
  | call | define => simp [head]
  | _ => cases hb

theorem textHead?_ne_head {node : Node} (hb : isBracket node = true) (before : List Token) (t : Token)
    (after : List Token) : textHead? before t after ≠ some node.head := by
  intro h
  obtain ⟨value, hv⟩ := exists_text_of_textHead? h
  exact head_ne_text hb value (congrArg some hv.symm)

theorem opens?_of_head? {before after : List Token} {t : Token} {node : Node} (hb : isBracket node = true)
    (h : head? before t after = some node.head) :
    ∃ construct, t.kind.opens? = some construct ∧ construct.bracket?.isSome = true := by
  obtain ⟨kind, value, raw, span⟩ := t
  cases kind with
  | openParen => exact ⟨.call, rfl, rfl⟩
  | keyword word =>
    cases word with
    | defWord => exact ⟨.define, rfl, rfl⟩
    | endWord => cases h
    | letWord | setWord | useWord =>
      cases node with
      | call | define => simp [head?, head] at h
      | _ => cases hb
  | text => exact absurd h (textHead?_ne_head hb before _ after)
  | escape | hash | slash => exact absurd h (head_ne_text hb _)
  | argument | pipe =>
    simp only [head?] at h
    split at h
    next => cases h
    next => exact absurd h (head_ne_text hb _)
  | reference | number =>
    cases node with
    | call | define => simp [head?, head] at h
    | _ => cases hb
  | identifier | closeParen | comment | endOfInput => cases h

/-- What is read from an opening token to the one that closes it, in a text that can be read: read
alone, it makes one node, which is in the tree of the text. -/
theorem exists_node_of_opener {before after : List Token} {opener last : Token} {nodes : List Node}
    {construct : Named} (hlast : last.kind = .endOfInput)
    (hi : ∀ t ∈ before ++ opener :: after, t.kind ≠ .endOfInput)
    (ho : opener.kind.opens? = some construct) (hbracket : construct.bracket?.isSome = true)
    (h : parse (before ++ opener :: after ++ [last]) = .ok nodes) :
    ∃ inside closer behind node, after = inside ++ closer :: behind ∧
      (closer.kind = .closeParen ∨ closer.kind = .keyword .endWord) ∧
      State.Steps ⟨.document [], .ready, opener.span.start⟩ (opener :: (inside ++ [closer]))
        ⟨.document [node], .ready, closer.span.stop⟩ ∧
      node ∈ preorderAll nodes ∧ node.span = ⟨opener.span.start, closer.span.stop⟩ := by
  obtain ⟨hbefore, hrest⟩ := List.forall_mem_append.1 hi
  obtain ⟨-, hafter⟩ := List.forall_mem_cons.1 hrest
  rw [List.append_assoc, List.cons_append] at h
  obtain ⟨ctx, hrun⟩ := State.exists_run_behind_opener hbefore ho h
  -- Taken out of `ctx`, the opening token stands at the start of a document.
  have hroot : State.RootedAt opener.span.start
      ⟨.document [], .name construct opener.span.start, opener.span.stop⟩ := .inr ⟨rfl, hbracket, rfl⟩
  obtain ⟨inside, closer, behind, node, rfl, halone, hwithin, hnode, hspan, hclose⟩ :=
    exists_closing ctx hlast hafter hroot hrun
  refine ⟨inside, closer, behind, node, rfl, hclose, ?_, ?_, hspan⟩
  · exact .step (State.step_opener_document ho _) halone
  · have hinside : ∀ t ∈ inside ++ [closer], t.kind ≠ .endOfInput := by
      intro t ht
      refine hafter t ?_
      rw [List.append_cons]
      exact List.mem_append_left _ ht
    have hnext := hwithin.run_append hinside (behind ++ [last])
    rw [List.append_assoc, List.singleton_append, ← List.cons_append, ← List.append_assoc] at hnext
    have hholds : State.Holds node ⟨ctx.push node false, .ready, closer.span.stop⟩ :=
      .inl (Context.holds_push.2 (.inl (mem_preorder_self node)))
    exact hholds.mem_of_run hnode (hnext ▸ hrun)

/-- A call or a definition starts at a token that opens it. -/
theorem exists_opener {text : String} {tokens : List Token} {nodes : List Node} {node : Node}
    (hs : Token.scan text = .ok tokens) (hp : parse tokens = .ok nodes) (hn : node ∈ preorderAll nodes)
    (hb : isBracket node = true) : ∃ opener ∈ tokens, node.span.start = opener.span.start ∧
      ∃ construct, opener.kind.opens? = some construct ∧ construct.bracket?.isSome = true := by
  have hstart : node.start ∈ startsFrom [] tokens := by
    rw [← startsAll_of_parse hs hp]
    exact List.mem_map_of_mem hn
  obtain ⟨opener, hm, he, earlier, after, hh⟩ := mem_startsFrom hstart
  exact ⟨opener, hm, he, opens?_of_head? hb hh⟩

theorem eq_of_start_eq {text : String} {tokens : List Token} {nodes : List Node} {n m : Node}
    (hs : Token.scan text = .ok tokens) (hp : parse tokens = .ok nodes) (hn : n ∈ preorderAll nodes)
    (hm : m ∈ preorderAll nodes) (he : n.span.start = m.span.start) : n = m := by
  have hpair := pairwise_offset_of_parse hs hp
  have hsame : (preorderAll nodes).Pairwise fun n m => n.span.start = m.span.start → n = m :=
    hpair.imp fun h he => absurd (congrArg Position.offset he) (Int.ne_of_lt h)
  have hflip : (preorderAll nodes).Pairwise (flip fun n m : Node => n.span.start = m.span.start → n = m) :=
    hpair.imp fun h he => absurd (congrArg Position.offset he) (Int.ne_of_gt h)
  exact hsame.forall_of_forall_of_flip (fun _ _ _ => rfl) hflip hn hm he

/-- The tokens of a call or a definition, from the one that opens it to the one that closes it: read
alone, they make this node. -/
theorem exists_tokens_of_node {text : String} {tokens : List Token} {nodes : List Node} {node : Node}
    (hs : Token.scan text = .ok tokens) (hp : parse tokens = .ok nodes) (hn : node ∈ preorderAll nodes)
    (hb : isBracket node = true) :
    ∃ before opener inside closer behind last,
      tokens = before ++ opener :: (inside ++ closer :: behind) ++ [last] ∧ last.kind = .endOfInput ∧
      (∀ t ∈ before ++ opener :: (inside ++ closer :: behind), t.kind ≠ .endOfInput) ∧
      opener.kind ≠ .identifier ∧ (closer.kind = .closeParen ∨ closer.kind = .keyword .endWord) ∧
      State.Steps ⟨.document [], .ready, opener.span.start⟩ (opener :: (inside ++ [closer]))
        ⟨.document [node], .ready, closer.span.stop⟩ ∧
      node.span = ⟨opener.span.start, closer.span.stop⟩ := by
  obtain ⟨opener, hmem, hstart, construct, ho, hbracket⟩ := exists_opener hs hp hn hb
  obtain ⟨others, last, rfl, hlast, -, -, hothers⟩ := Token.exists_last_of_scan hs
  have hkind : opener.kind ≠ .endOfInput ∧ opener.kind ≠ .identifier := by
    constructor <;> intro hk <;> rw [hk] at ho <;> cases ho
  have hopener : opener ∈ others := by
    rcases List.mem_append.1 hmem with hmem | hmem
    · exact hmem
    · rw [List.mem_singleton.1 hmem] at hkind
      exact absurd hlast hkind.1
  obtain ⟨before, after, rfl⟩ := List.append_of_mem hopener
  obtain ⟨inside, closer, behind, other, rfl, hclose, hsteps, hother, hspan⟩ :=
    exists_node_of_opener hlast hothers ho hbracket hp
  obtain rfl : node = other := eq_of_start_eq hs hp hn hother (by rw [hstart, hspan])
  exact ⟨before, opener, inside, closer, behind, last, rfl, hlast, hothers, hkind.2, hclose, hsteps, hspan⟩

/-- The part of a text that a call or a definition was read from is, as a document of its own, that
node alone, with its places counted from its start. -/
theorem parse_local {text : String} {tokens : List Token} {nodes : List Node} {node : Node}
    (hs : Token.scan text = .ok tokens) (hp : parse tokens = .ok nodes) (hn : node ∈ preorderAll nodes)
    (hb : isBracket node = true) :
    ∃ own, Token.scan (.ofList (node.span.slice text.toList)) = .ok own ∧ parse own = .ok [node.rebased] := by
  obtain ⟨before, opener, inside, closer, behind, last, rfl, -, hothers, hname, hclose, hsteps, hspan⟩ :=
    exists_tokens_of_node hs hp hn hb
  obtain ⟨mark, hmark, hown⟩ := Token.scan_excerpt hs hname hclose
  refine ⟨_, by rw [hspan]; exact hown, ?_⟩
  have hmoved := hsteps.moved (Position.rebase opener.span.start)
  have hfresh : State.moved (Position.rebase opener.span.start) ⟨.document [], .ready, opener.span.start⟩ =
      State.start := by
    rw [State.moved, Position.rebase_self]
    rfl
  have hinside : ∀ t ∈ (opener :: (inside ++ [closer])).map (Token.moved (Position.rebase opener.span.start)),
      t.kind ≠ .endOfInput := by
    intro t ht
    obtain ⟨u, hu, rfl⟩ := List.mem_map.1 ht
    refine hothers u (List.mem_append_right _ ?_)
    rw [List.append_cons, ← List.cons_append]
    exact List.mem_append_left _ hu
  have hstart : node.span.start = opener.span.start := by rw [hspan]
  rw [hfresh] at hmoved
  rw [parse, hmoved.run_append hinside, rebased, hstart]
  simp [State.run, State.step, stepReady, stepInner, State.moved, Context.moved, Mode.moved, hmark,
    Context.finished]

/-- A call in the value of `y` goes on behind a line break: on its own it starts the text, and only
the columns of its first line change. -/
theorem local_call_over_lines : ∃ own, Token.scan "(f |\n#z)" = .ok own ∧ parse own = .ok
    [.call "f" [⟨0, [], ⟨⟨1, 4, 3⟩, ⟨1, 4, 3⟩⟩⟩, ⟨1, [.text "\n" ⟨⟨1, 5, 4⟩, ⟨2, 1, 5⟩⟩,
      .reference "z" false ⟨⟨2, 1, 5⟩, ⟨2, 3, 7⟩⟩], ⟨⟨1, 5, 4⟩, ⟨2, 3, 7⟩⟩⟩] ⟨⟨1, 1, 0⟩, ⟨2, 4, 8⟩⟩] := by
  have hs : Token.scan "#let y (f |\n#z)" = .ok
      [⟨.keyword .letWord, "let", "#let", ⟨⟨1, 1, 0⟩, ⟨1, 5, 4⟩⟩⟩,
        ⟨.identifier, "y", "y", ⟨⟨1, 6, 5⟩, ⟨1, 7, 6⟩⟩⟩, ⟨.openParen, "(", "(", ⟨⟨1, 8, 7⟩, ⟨1, 9, 8⟩⟩⟩,
        ⟨.identifier, "f", "f", ⟨⟨1, 9, 8⟩, ⟨1, 10, 9⟩⟩⟩, ⟨.pipe, "|", "|", ⟨⟨1, 11, 10⟩, ⟨1, 12, 11⟩⟩⟩,
        ⟨.text, "\n", "\n", ⟨⟨1, 12, 11⟩, ⟨2, 1, 12⟩⟩⟩, ⟨.reference, "z", "#z", ⟨⟨2, 1, 12⟩, ⟨2, 3, 14⟩⟩⟩,
        ⟨.closeParen, ")", ")", ⟨⟨2, 3, 14⟩, ⟨2, 4, 15⟩⟩⟩,
        ⟨.endOfInput, "", "", ⟨⟨2, 4, 15⟩, ⟨2, 4, 15⟩⟩⟩] := by cbv
  obtain ⟨own, hscan, hparse⟩ := parse_local hs rfl (List.mem_cons_of_mem _ List.mem_cons_self) rfl
  exact ⟨own, hscan, hparse⟩

end Markup.Node
