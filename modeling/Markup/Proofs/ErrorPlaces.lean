/-
Where errors are reported.

Whatever a text has no output for, an error in it, one in a module that it imports, or a
step of its expansion, is reported at a place: in the document itself, or, if the error
names the file of a module, in the text of that file as it is read, with its line ends
unified. The place is one of that text, and what is underlined ends at most one character
behind it (`Span.Points`, `errors_placed`).
-/
import Markup.Proofs.Diagnostics
import Markup.Proofs.FirstRefusal
import Markup.Proofs.ScanFailures
import Markup.Proofs.SpanNesting

namespace Markup

/-! ## Errors of a text -/

/-- Whether a span points into a text: it starts at a place of the text, does not stop before that, and
stops at most one character behind the text. -/
structure Span.Points (text : List Char) (s : Span) : Prop where
  start : s.start.IsIn text
  le : s.start.offset ≤ s.stop.offset
  stop_le : s.stop.offset ≤ text.length + 1

theorem Span.IsIn.points {text : List Char} {s : Span} (h : s.IsIn text) : s.Points text := by
  have hstop := h.stop.offset_le
  exact ⟨h.start, h.le, by omega⟩

theorem Position.IsIn.points {text : List Char} {p : Position} (h : p.IsIn text) : (Span.ofPosition p).Points text := by
  have hle := h.offset_le
  refine ⟨h, ?_, ?_⟩ <;> simp only [Span.ofPosition] <;> omega

theorem Token.isIn_of_scan_error {text : String} {e : ScanError} (h : scan text = .error e) :
    e.position.IsIn text.toList := by
  obtain ⟨cur, k, hv, hf, hp⟩ := scan_error_iff_stopsAt.1 h
  exact (stopsAt_of_fault hv hf hp).position

namespace Node

variable {text : String}

theorem TextError.points {e : TextError} (h : ofText text = .error e) : e.span.Points text.toList := by
  rcases ofText_error_iff.1 h with ⟨f, hs, rfl⟩ | ⟨tokens, f, hs, hp, rfl⟩
  · exact (Token.isIn_of_scan_error hs).points
  · exact (Token.isIn_of_mem_scan hs (found_mem_of_parse_error hs hp)).points

theorem points_of_ofText {nodes : List Node} (h : ofText text = .ok nodes) :
    ∀ node ∈ nodes, node.span.Points text.toList := by
  obtain ⟨tokens, hs, hp⟩ := ofText_ok_iff.1 h
  intro node hn
  exact ((nests_of_parse hs hp).2 node (mem_preorderAll_iff.2 ⟨node, hn, mem_preorder_self node⟩)).isIn.points

end Node

/-! ## Errors of expansion -/

/-- An error of expansion tells its place in the document's text, or, if it names the file of a module, in what
is read from that file. -/
inductive ExpandError.Placed (disk : Disk) (source : String) (e : ExpandError) : Prop where
  | document {s : Span} : e.fileName = none → e.source = source → e.span = some s → s.Points source.toList →
      Placed disk source e
  | moduleFile {s : Span} {path : Path} {raw : String} : e.fileName = some path.text →
      disk.readExactly path = .ok raw → e.source.toList = Text.unifyNewlines raw.toList → e.span = some s →
      s.Points e.source.toList → Placed disk source e

theorem Disk.exists_raw_of_readText {disk : Disk} {path : Path} {text : String} (h : disk.readText path = .ok text) :
    ∃ raw, disk.readExactly path = .ok raw ∧ text.toList = Text.unifyNewlines raw.toList := by
  unfold readText at h
  split at h
  next => cases h
  next raw hraw =>
    cases h
    exact ⟨raw, hraw, String.toList_ofList⟩

open Document

variable {setting : Setting} {disk : Disk} {source : String}

theorem Document.BreaksModule.placed {limit : Nat} {nodes : List Node} {doc : Document} {m : ExpandError}
    (h : BreaksModule disk limit nodes doc m) : m.Placed disk source := by
  cases h with
  | intro _ _ _ htext he =>
    obtain ⟨raw, hraw, hunified⟩ := Disk.exists_raw_of_readText htext
    exact .moduleFile rfl hraw hunified rfl (Node.TextError.points he)

/-- All errors that are reported of a text have a place, in the text itself or in that of the module's file that
they name. -/
theorem errors_placed (setting : Setting) (disk : Disk) (source : String) :
    (∀ e, compile setting disk source = .error (.text e) → e.span.Points source.toList) ∧
      ∀ errors, compile setting disk source = .error (.expand errors) →
        errors ≠ [] ∧ ∀ e ∈ errors, e.Placed disk source := by
  refine ⟨fun e h => Node.TextError.points (LanguageServer.ofText_of_compile h), fun errors h => ?_⟩
  obtain ⟨nodes, hn, hrun⟩ := LanguageServer.compile_expand_iff.1 h
  obtain ⟨top, mid, before, last, hc, hb, rfl⟩ := LanguageServer.located_of_expand_failed hn hrun
  have hfile : last.fileName = none := by cases hb <;> rfl
  refine ⟨by simp, fun e he => ?_⟩
  rcases List.mem_append.1 he with he | he
  · rcases hb.before_cases with rfl | ⟨m, rfl, -⟩
    · cases he
    · rw [List.mem_singleton.1 he]
      exact (hb.breaksModule hc).placed
  · rw [List.mem_singleton.1 he]
    exact .document hfile rfl rfl (Node.points_of_ofText hn top hc.mem)

end Markup
