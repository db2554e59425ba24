/-
A run does not see returns: documents that differ in nothing but the returns of
paired texts are expanded side by side.

`Twins.unified` says what counts as the same. Putting an argument for a placeholder
is where a return and a newline could meet; `Unifies.substitute` says that they do
not, because what is put and what it is put into are paired on their own. The trees
that are imported have no returns, so the two runs stay together (`expand_twin`): a
whole run ends with the same text but for the returns, or it reports the same
errors, the last of them in the same line and column (`expand_like`).
-/
import Markup.Proofs.PrintedNumbers
import Markup.Proofs.Tiling
import Markup.Proofs.TwinRuns
import Markup.Proofs.UnifiedTokens

namespace Markup

theorem Binary64.unifies_toLiteral (number : Binary64) : Text.Unifies number.toLiteral number.toLiteral :=
  .of_notMem fun hm => absurd (isPrintedChar_of_mem_toLiteral hm) (by decide)

namespace Node

/-! ## The tree of a text -/

/-- Whether two errors in a text are of one kind and in the same line and column. -/
inductive TextError.Alike : TextError → TextError → Prop where
  | tokens {e f : ScanError} : e.position.Alike f.position → Alike (.tokens e) (.tokens f)
  | tree {e f : ParseError} : e.Like .unified f → Alike (.tree e) (.tree f)

theorem TextError.Alike.start {e f : TextError} (h : e.Alike f) : e.span.start.Alike f.span.start := by
  cases h with
  | tokens hp => exact hp
  | tree he => exact he.found.span.start

/-- The nodes of a paired text are alike without its returns, or it has none for a like reason. -/
theorem ofText_unify {text : String} (h : Text.Paired text.toList) :
    Agree TextError.Alike (List.Forall₂ (Node.Like .unified)) (ofText text) (ofText (Text.unify text)) := by
  have hscan := Token.scan_unify h
  have hend : ∀ tokens, Token.scan text = .ok tokens → ∃ t ∈ tokens, t.kind = .endOfInput := by
    intro tokens hs
    obtain ⟨others, mark, rfl, hk, -⟩ := Token.exists_last_of_scan hs
    exact ⟨mark, by simp, hk⟩
  rw [ofText, ofText]
  generalize Token.scan text = scanned at hscan hend
  generalize Token.scan (Text.unify text) = other at hscan
  cases hscan with
  | error he => exact .error (.tokens he)
  | @ok tokens others ht =>
    have hparse := parse_like ht (hend tokens rfl) trivial
    simp only
    generalize parse tokens = parsed at hparse
    generalize parse others = other at hparse
    cases hparse with
    | error he => exact .error (.tree he)
    | ok hn => exact .ok hn

theorem like_of_ofText {text : String} (ht : '\r' ∉ text.toList) {nodes : List Node} (h : ofText text = .ok nodes) :
    List.Forall₂ (Node.Like .unified) nodes nodes := by
  have hp : Text.Paired text.toList := .of_notMem ht
  have hagree := ofText_unify hp
  rw [(Text.Unifies.unify hp).eq_of_notMem ht, h] at hagree
  cases hagree with
  | ok hn => exact hn

theorem Like.start {node twin : Node} (h : node.Like .unified twin) : node.span.start.Alike twin.span.start := by
  cases h with
  | text _ hs | call _ hs | define _ _ hs | bind _ hs => exact hs.start
  | number hs | use hs | reference hs => exact hs.start
  | stray hg =>
    cases hg with
    | mk _ hs => exact hs.start

end Node

/-! ## What counts as the same -/

/-- Texts are the same if they differ in nothing but the returns of a paired one. -/
def TextTwins.unified : TextTwins where
  same := Text.Unifies
  word := Likeness.unified.word
  same_empty := .of_notMem (by decide)
  same_literal := Binary64.unifies_toLiteral
  same_append hs hv := hs.append hv
  same_substitute hw hs hv := hs.substitute hv.strip hw.1 hw.2

theorem Node.Like.twin {node twin : Node} (h : node.Like .unified twin) :
    Node.Twin .unified (List.Forall₂ (Node.Like .unified)) (Span.Like .unified) (fun _ => true) node twin := by
  cases h with
  | text ht hs => exact .text ht hs
  | number hs => exact .number hs
  | call hg hs =>
    refine .call rfl (hg.imp fun group other hv => ?_) hs
    cases hv with
    | mk hv => exact hv
  | use hs => exact .use hs
  | define hw hb hs => exact .define rfl hw hb hs
  | bind hv hs => exact .bind rfl hv hs
  | reference hs => exact .reference rfl hs
  | stray hg =>
    cases hg with
    | mk _ hs => exact .stray hs

/-- Nodes that are alike, in documents for texts of any kind. -/
def Twins.unified : Twins where
  toTextTwins := .unified
  nodes := List.Forall₂ (Node.Like .unified)
  span := Span.Like .unified
  source _ _ := True
  known _ := true
  definitions := []
  bindings := []
  twin_of_nodes h := h.imp fun _ _ hn => hn.twin

namespace Document

/-! ## Imports -/

theorem notMem_of_mem_moduleTexts : ∀ entry ∈ BuiltIn.moduleTexts, '\r' ∉ entry.2.toList := by
  simp only [BuiltIn.moduleTexts, List.forall_mem_cons, BuiltIn.htmlText, BuiltIn.markdownText, String.toList_join,
    List.map_cons, List.map_nil, List.flatMap_cons, List.flatMap_nil, String.toList_append]
  repeat rw [String.toList_ofList]
  exact ⟨by decide +kernel, by decide +kernel, nofun⟩

theorem like_moduleNodes {name : String} {nodes : List Node} (h : BuiltIn.moduleNodes? name = some nodes) :
    List.Forall₂ (Node.Like .unified) nodes nodes := by
  obtain ⟨text, hm, rfl⟩ := exists_mem_moduleTexts h
  cases ho : Node.ofText text with
  | error e => exact .nil
  | ok nodes => exact Node.like_of_ofText (notMem_of_mem_moduleTexts _ hm) ho

theorem notMem_of_readText {disk : Disk} {path : Path} {text : String} (h : disk.readText path = .ok text) :
    '\r' ∉ text.toList := by
  rw [Disk.readText] at h
  split at h
  next => cases h
  next =>
    cases h
    rw [String.toList_ofList]
    exact Text.notMem_unifyNewlines _

theorem like_of_imports {disk : Disk} {limit : Nat} {nodes : List Node} {doc : Document} {tree : List Node}
    (h : Imports disk limit nodes doc tree) : List.Forall₂ (Node.Like .unified) tree tree := by
  rcases h.cases with ⟨name, hm⟩ | ⟨path, text, hr, hn⟩
  · exact like_moduleNodes hm
  · exact Node.like_of_ofText (notMem_of_readText hr) hn

end Document

/-! ## The whole document -/

/-- Whether two errors are the same but for where they stand, and both stand in one line and column. -/
structure ExpandError.Alike (e f : ExpandError) : Prop where
  cause : f.cause = e.cause
  callStack : f.callStack = e.callStack
  fileName : f.fileName = e.fileName
  start : ∃ s t, e.span = some s ∧ f.span = some t ∧ s.start.Alike t.start

/-- An error is located in the same line and column at nodes that start there. -/
theorem ExpandError.locate_alike (e : ExpandError) {span around : Span} (hs : span.start.Alike around.start)
    (hline : 1 ≤ span.start.line) (source text : String) : (e.locate span source).Alike (e.locate around text) := by
  have hspan : span ≠ .builtIn := by
    rintro rfl
    exact absurd hline (by decide)
  have haround : around ≠ .builtIn := by
    rintro rfl
    exact absurd (hs.1 ▸ hline) (by decide)
  obtain ⟨cause, place, own, callStack, fileName⟩ := e
  cases place with
  | none =>
    rw [locate, locate, if_pos ⟨rfl, hspan⟩, if_pos ⟨rfl, haround⟩]
    exact ⟨rfl, rfl, rfl, span, around, rfl, rfl, hs⟩
  | some place =>
    rw [locate, locate, if_neg (fun h => Bool.false_ne_true h.1), if_neg (fun h => Bool.false_ne_true h.1)]
    exact ⟨rfl, rfl, rfl, place, place, rfl, rfl, .refl _⟩

namespace Document

/-- Whether two runs are stopped alike: by the same errors, the last of them in one line and column. -/
inductive Stop.Alike : Stop → Stop → Prop where
  | failed {init : List ExpandError} {e f : ExpandError} : e.Alike f →
      Alike (.failed (init ++ [e])) (.failed (init ++ [f]))
  | disk {e : Disk.Error} : Alike (.disk e) (.disk e)

/-- At nodes that were read from texts, the last error is located in one line and column. -/
theorem Stop.Twin.alike {s t : Stop}
    (h : Stop.Twin .unified (fun place around => 1 ≤ place.start.line ∧ place.start.Alike around.start) s t) :
    s.Alike t := by
  cases h with
  | disk => exact .disk
  | failed _ hs => exact .failed (ExpandError.locate_alike _ hs.2 hs.1 _ _)

/-- Alike nodes in alike documents give the same text but for the returns, or stop alike. -/
theorem expand_like (disk : Disk) (limit : Nat) {nodes others : List Node}
    (hn : List.Forall₂ (Node.Like .unified) nodes others) (hline : ∀ node ∈ nodes, 1 ≤ node.span.start.line)
    {doc other : Document} (h : doc.Twin .unified other) :
    Agree Stop.Alike Text.Unifies (expand disk limit nodes doc).1 (expand disk limit others other).1 := by
  have hs : List.Forall₂ (fun node twin : Node => 1 ≤ node.span.start.line ∧ node.span.start.Alike twin.span.start)
      nodes others :=
    (List.forall₂_and_left _ _).2 ⟨hline, hn.imp fun _ _ hnode => hnode.start⟩
  obtain ⟨hresult, -⟩ := expand_twin (T := .unified)
    (S := fun place around => 1 ≤ place.start.line ∧ place.start.Alike around.start)
    (fun _ (ht : Imports disk limit _ _ _) => like_of_imports ht) (Twins.unified.twin_of_nodes hn) hs h
  exact hresult.imp Stop.Twin.alike id

end Document

end Markup
