/-
What becomes of the errors of a document.

A run that gives a text leaves them as they were. One that fails hands over all
that there were, and behind them its own, which it locates at the node where it
stopped; where that is an import of a module whose text has no tree, the error
in the text stands between. No error is left then.

Over a session the errors that are recorded are, one for one and in order, those
that have been handed over and those that are still there (`Log.settled`).
-/
import Mathlib.Data.List.Forall2
import Markup.Proofs.Sessions
import Markup.Proofs.FailurePoints

namespace Markup.Document

/-! ## One run -/

/-- Whether nodes come to an import of a module in a file whose text has no tree; the error is the
one in that text. -/
inductive BreaksModule (disk : Disk) (limit : Nat) (nodes : List Node) (doc : Document) : ExpandError → Prop where
  | intro {top mid names left name span place path text e} :
      ComesTo (expandNode disk limit) nodes doc top mid →
      Task.Leads disk ⟨limit, top, mid⟩ names ⟨left + 1, .use name false span, place⟩ →
      place.moduleFile disk name = .ok path → disk.readText path = .ok text → Node.ofText text = .error e →
      BreaksModule disk limit nodes doc (e.inModule path text)

section

variable {disk : Disk} {limit : Nat} {node top : Node} {nodes : List Node} {doc mid : Document}
  {before : List ExpandError} {e m : ExpandError}

/-- What a failure brings with its error is nothing, or an error that names a module's file. -/
theorem Brings.before_cases (h : Brings disk limit node doc before e) :
    before = [] ∨ ∃ m, before = [m] ∧ m.fileName.isSome := by
  cases h with
  | tooDeep => exact .inl rfl
  | raised _ hr =>
    cases hr with
    | brokenModule => exact .inr ⟨_, rfl, rfl⟩
    | _ => exact .inl rfl

theorem Brings.breaksModule (hc : ComesTo (expandNode disk limit) nodes doc top mid)
    (h : Brings disk limit top mid [m] e) : BreaksModule disk limit nodes doc m := by
  cases h with
  | raised hl hr =>
    cases hr with
    | brokenModule hf ht he => exact .intro hc hl hf ht he

theorem BreaksModule.failed (h : BreaksModule disk limit nodes doc m) : ∃ last,
    (expand disk limit nodes doc).1 = .error (.failed (doc.errors ++ [m] ++ [last])) := by
  obtain ⟨hc, hl, hf, ht, he⟩ := h
  exact ⟨_, expand_failed_iff.2 ⟨_, _, _, _, hc, .raised hl (.brokenModule hf ht he), rfl⟩⟩

theorem BreaksModule.fileName (h : BreaksModule disk limit nodes doc m) : m.fileName.isSome := by
  cases h
  rfl

/-- The error of a failure is the one that the node raises, not located yet, or says that the nesting
went past the limit. -/
theorem Brings.failure (h : Brings disk limit node doc before e) : e.span = none ∧
    ((expandNode disk limit node doc).1 = .error (.raised e) ∨
      (expandNode disk limit node doc).1 = .error .tooDeep ∧ e = doc.errorOf .tooDeep) := by
  cases h with
  | @raised names left inner place _ cause hl hr =>
    have hstack : place.callStack = doc.callStack ++ names := hl.callStack_errors.1
    have hraises := Task.run_error_iff.2 ⟨_, _, _, hl, .raised hr⟩
    rw [errorOf, hstack] at hraises
    exact ⟨rfl, .inl hraises⟩
  | tooDeep hl => exact ⟨rfl, .inr ⟨Task.run_error_iff.2 ⟨_, _, _, hl, .tooDeep _ _⟩, rfl⟩⟩

theorem locate_of_span_none (h : e.span = none) (span : Span) (source : String) :
    e.locate span source = if span = .builtIn then e else { e with span := some span, source := source } := by
  by_cases hs : span = .builtIn <;> simp [ExpandError.locate, h, hs]

theorem errors_of_expand_ok {text : String} (h : (expand disk limit nodes doc).1 = .ok text) :
    (expand disk limit nodes doc).2.errors = doc.errors := by
  have hlaw := changeLaw_errors.expand (fun _ => trivial) disk limit nodes doc
  have hrun : expand disk limit nodes doc = (.ok text, (expand disk limit nodes doc).2) := Prod.ext h rfl
  rw [hrun] at hlaw
  exact hlaw

theorem errors_of_expand_disk {f : Disk.Error} (h : (expand disk limit nodes doc).1 = .error (.disk f)) :
    (expand disk limit nodes doc).2.errors = doc.errors := by
  obtain ⟨node, mid, failure, last, hc, he, hs⟩ := expand_error_iff.1 (Prod.ext h rfl)
  cases failure with
  | raised | tooDeep => cases hs
  | disk e =>
    have hlast : last = (expand disk limit nodes doc).2 := congrArg Prod.snd hs
    obtain ⟨_, _, _, _, hf, hnext⟩ := Task.exists_leads_of_run (t := ⟨limit, node, mid⟩) he
    cases hf
    rw [← hlast, hnext, List.append_nil]
    exact errors_of_comesTo hc

end

/-! ## What is recorded -/

/-- What is recorded in the course of a task. -/
inductive Task.Records (disk : Disk) (t : Task) : List ExpandError → Prop where
  | given {text} : (t.run disk).1 = .ok text → Records disk t []
  | fails {names u e new} : t.Leads disk names u → u.Fails disk e new → Records disk t new

/-- What is recorded in the course of a run. -/
inductive RunRecords (disk : Disk) (limit : Nat) (nodes : List Node) (doc : Document) : List ExpandError → Prop where
  | given {text} : (expand disk limit nodes doc).1 = .ok text → RunRecords disk limit nodes doc []
  | failed {top mid before e} : ComesTo (expandNode disk limit) nodes doc top mid →
      Brings disk limit top mid before e → RunRecords disk limit nodes doc (before ++ [e])
  | disk {e} : (expand disk limit nodes doc).1 = .error (.disk e) → RunRecords disk limit nodes doc []

/-- The errors that a run hands over. -/
def handedOver : Except Stop String → List ExpandError
  | .error (.failed errors) => errors
  | .error (.disk _) | .ok _ => []

/-- Whether an error is another one, as it was recorded or located since. -/
def Located (recorded e : ExpandError) : Prop :=
  e = recorded ∨ recorded.span = none ∧ ∃ span source, e = { recorded with span := some span, source := source }

/-- Whether errors that were there and what is recorded behind them are still there, with nothing
handed over, or have all been handed over, in order. -/
def Settles (errors new reported left : List ExpandError) : Prop :=
  (reported = [] ∧ left = errors ++ new) ∨ (left = [] ∧ List.Forall₂ Located (errors ++ new) reported)

section

variable {disk : Disk} {limit : Nat} {nodes : List Node} {doc : Document} {new : List ExpandError}

theorem Task.exists_records (disk : Disk) (t : Task) : ∃ new, t.Records disk new := by
  cases h : (t.run disk).1 with
  | ok text => exact ⟨_, .given h⟩
  | error e =>
    obtain ⟨names, u, new, hl, hf⟩ := Task.run_error_iff.1 h
    exact ⟨new, .fails hl hf⟩

theorem Task.Records.errors {t : Task} (h : t.Records disk new) : (t.run disk).2.errors = t.doc.errors ++ new := by
  cases h with
  | @given text h =>
    have hlaw := changeLaw_errors.expandNode disk t.limit t.node t.doc
    have hrun : expandNode disk t.limit t.node t.doc = (.ok text, (t.run disk).2) := by rw [← h]; rfl
    rw [hrun] at hlaw
    rw [List.append_nil]
    exact hlaw
  | fails hl hf =>
    obtain ⟨next, hrun, hnext⟩ := hl.run hf
    rw [hrun, hnext]

theorem exists_runRecords (disk : Disk) (limit : Nat) (nodes : List Node) (doc : Document) :
    ∃ new, RunRecords disk limit nodes doc new := by
  cases h : (expand disk limit nodes doc).1 with
  | ok text => exact ⟨_, .given h⟩
  | error s =>
    cases s with
    | failed errors =>
      obtain ⟨top, mid, before, e, hc, hb, -⟩ := expand_failed_iff.1 h
      exact ⟨_, .failed hc hb⟩
    | disk e => exact ⟨_, .disk h⟩

theorem located_locate (e : ExpandError) (span : Span) (source : String) : Located e (e.locate span source) := by
  rw [ExpandError.locate]
  split
  next h => exact .inr ⟨Option.isNone_iff_eq_none.1 h.1, span, source, rfl⟩
  next => exact .inl rfl

theorem forall₂_located_refl (errors : List ExpandError) : List.Forall₂ Located errors errors :=
  List.forall₂_same.2 fun _ _ => .inl rfl

theorem RunRecords.settles (h : RunRecords disk limit nodes doc new) :
    Settles doc.errors new (handedOver (expand disk limit nodes doc).1) (expand disk limit nodes doc).2.errors := by
  cases h with
  | given h =>
    refine .inl ⟨by rw [h, handedOver], ?_⟩
    rw [List.append_nil]
    exact errors_of_expand_ok h
  | disk h =>
    refine .inl ⟨by rw [h, handedOver], ?_⟩
    rw [List.append_nil]
    exact errors_of_expand_disk h
  | @failed top mid before e hc hb =>
    have h := expand_failed_iff.2 ⟨top, mid, before, e, hc, hb, rfl⟩
    refine .inr ⟨errors_of_expand_failed h, ?_⟩
    rw [h, handedOver, ← List.append_assoc]
    exact List.rel_append (forall₂_located_refl _) (.cons (located_locate e _ _) .nil)

end

/-! ## Sessions -/

namespace Operation

/-- The errors that an operation hands over. -/
def reported : Operation → Document → List ExpandError
  | expand disk limit nodes, doc => handedOver (doc.expand disk limit nodes).1
  | expandText disk limit text, doc =>
    match Node.ofText text with
    | .error _ => []
    | .ok nodes => handedOver (Document.expand disk limit nodes { doc with source := text }).1
  | expandNode .., _ | letText .., _ | defineText .., _ | importModule .., _ | record _, _ => []

/-- What is recorded in the course of an operation. -/
inductive Records (doc : Document) : Operation → List ExpandError → Prop where
  | expand {disk limit nodes new} : RunRecords disk limit nodes doc new →
      Records doc (.expand disk limit nodes) new
  | noTree {disk limit text e} : Node.ofText text = .error e → Records doc (.expandText disk limit text) []
  | expandText {disk limit text nodes new} : Node.ofText text = .ok nodes →
      RunRecords disk limit nodes { doc with source := text } new → Records doc (.expandText disk limit text) new
  | expandNode {disk limit node new} : Task.Records disk ⟨limit, node, doc⟩ new →
      Records doc (.expandNode disk limit node) new
  | letText {name value} : Records doc (.letText name value) []
  | defineText {name body} : Records doc (.defineText name body) []
  | importModule {disk name builtIn new} : Task.Records disk ⟨1, .use name builtIn .builtIn, doc⟩ new →
      Records doc (.importModule disk name builtIn) new
  | record {cause} : Records doc (.record cause) [doc.errorOf cause]

theorem exists_records (op : Operation) (doc : Document) : ∃ new, op.Records doc new := by
  cases op with
  | expand disk limit nodes => exact (exists_runRecords disk limit nodes doc).imp fun _ => .expand
  | expandText disk limit text =>
    cases h : Node.ofText text with
    | error e => exact ⟨_, .noTree h⟩
    | ok nodes => exact (exists_runRecords disk limit nodes _).imp fun _ => .expandText h
  | expandNode disk limit node => exact (Task.exists_records disk _).imp fun _ => .expandNode
  | letText name value => exact ⟨_, .letText⟩
  | defineText name body => exact ⟨_, .defineText⟩
  | importModule disk name builtIn => exact (Task.exists_records disk _).imp fun _ => .importModule
  | record cause => exact ⟨_, .record⟩

theorem Records.settles {op : Operation} {doc : Document} {new : List ExpandError} (h : op.Records doc new) :
    Settles doc.errors new (op.reported doc) (op.apply doc).errors := by
  cases h with
  | expand h => exact h.settles
  | noTree h =>
    simp only [reported, apply, h]
    exact .inl ⟨rfl, (List.append_nil _).symm⟩
  | expandText ht h =>
    simp only [reported, apply, ht]
    have hsettles := h.settles
    exact hsettles
  | expandNode h => exact .inl ⟨rfl, h.errors⟩
  | letText | defineText => exact .inl ⟨rfl, (List.append_nil _).symm⟩
  | @importModule disk name builtIn _ h =>
    have hsame : ∀ x : Outcome Unit, (silent x).2 = x.2 := by rintro ⟨_ | _, _⟩ <;> rfl
    have herrors := h.errors
    simp only [Task.run, Document.expandNode, expandWith, hsame] at herrors
    exact .inl ⟨rfl, herrors⟩
  | record => exact .inl ⟨rfl, rfl⟩

/-- The errors that operations hand over, one after another. -/
def reportedAll : List Operation → Document → List ExpandError
  | [], _ => []
  | op :: ops, doc => op.reported doc ++ reportedAll ops (op.apply doc)

end Operation

/-- What is recorded in the course of operations, one after another. -/
inductive Log : Document → List Operation → List ExpandError → Prop where
  | nil (doc : Document) : Log doc [] []
  | cons {doc : Document} {op : Operation} {ops : List Operation} {new more : List ExpandError} :
      op.Records doc new → Log (op.apply doc) ops more → Log doc (op :: ops) (new ++ more)

theorem exists_log (ops : List Operation) (doc : Document) : ∃ log, Log doc ops log := by
  induction ops generalizing doc with
  | nil => exact ⟨_, .nil doc⟩
  | cons op ops ih =>
    obtain ⟨new, hnew⟩ := op.exists_records doc
    obtain ⟨more, hmore⟩ := ih (op.apply doc)
    exact ⟨_, .cons hnew hmore⟩

/-- The errors that were there and those that are recorded are, one for one and in order, those that
are handed over and those that are left. -/
theorem Log.settled {doc : Document} {ops : List Operation} {log : List ExpandError} (h : Log doc ops log) :
    List.Forall₂ Located (doc.errors ++ log)
      (Operation.reportedAll ops doc ++ (Operation.applyAll ops doc).errors) := by
  induction h with
  | nil doc =>
    rw [List.append_nil]
    exact forall₂_located_refl _
  | @cons doc op ops new more hr _ ih =>
    rw [Operation.reportedAll, ← List.append_assoc, List.append_assoc _ _ (Document.errors _)]
    rcases hr.settles with ⟨hreported, hleft⟩ | ⟨hleft, hall⟩
    · rw [hreported, List.nil_append, ← hleft]
      exact ih
    · rw [hleft, List.nil_append] at ih
      exact List.rel_append hall ih

/-- A run that gives a text, or that the disk ends, leaves the errors as they were. One that fails leaves
none: it hands over those that were there, unchanged, and behind them the error for which the node it
stopped at failed, located there unless that node comes from no text. One error more stands between
exactly if the run came to an import of a module whose text has no tree. Over any operations, what was
there and what is recorded is, one for one and in order, what is handed over and what is left. -/
theorem errors_accounted (disk : Disk) (limit : Nat) (nodes : List Node) (doc : Document) :
    (∀ text, (expand disk limit nodes doc).1 = .ok text → (expand disk limit nodes doc).2.errors = doc.errors) ∧
      (∀ e, (expand disk limit nodes doc).1 = .error (.disk e) →
        (expand disk limit nodes doc).2.errors = doc.errors) ∧
      (∀ errors, (expand disk limit nodes doc).1 = .error (.failed errors) →
        (expand disk limit nodes doc).2.errors = [] ∧
        ∃ top mid new e, ComesTo (expandNode disk limit) nodes doc top mid ∧ e.span = none ∧
          ((expandNode disk limit top mid).1 = .error (.raised e) ∨
            (expandNode disk limit top mid).1 = .error .tooDeep ∧ e = mid.errorOf .tooDeep) ∧
          (new = [] ∨ ∃ m, new = [m] ∧ m.fileName.isSome) ∧
          errors = doc.errors ++ new ++
            [if top.span = .builtIn then e else { e with span := some top.span, source := doc.source }]) ∧
      (∀ m, BreaksModule disk limit nodes doc m ↔
        ∃ last, (expand disk limit nodes doc).1 = .error (.failed (doc.errors ++ [m] ++ [last]))) ∧
      ∀ ops, (∃ log, Log doc ops log) ∧ ∀ log, Log doc ops log →
        List.Forall₂ Located (doc.errors ++ log)
          (Operation.reportedAll ops doc ++ (Operation.applyAll ops doc).errors) := by
  refine ⟨fun text => errors_of_expand_ok, fun e => errors_of_expand_disk,
    fun errors h => ⟨errors_of_expand_failed h, ?_⟩, fun m => ⟨BreaksModule.failed, ?_⟩,
    fun ops => ⟨exists_log ops doc, fun log => Log.settled⟩⟩
  · obtain ⟨top, mid, before, e, hc, hb, rfl⟩ := expand_failed_iff.1 h
    obtain ⟨hspan, hfails⟩ := hb.failure
    refine ⟨top, mid, before, e, hc, hspan, hfails, hb.before_cases, ?_⟩
    rw [locate_of_span_none hspan]
  · rintro ⟨last, h⟩
    obtain ⟨top, mid, before, e, hc, hb, herrors⟩ := expand_failed_iff.1 h
    obtain ⟨hinit, -⟩ := List.append_inj' herrors rfl
    obtain rfl := List.append_cancel_left hinit
    exact hb.breaksModule hc

/-- A macro imports a module whose text is one open parenthesis, with an error left over from before. -/
theorem errors_accounted_broken_module :
    let left : ExpandError := ⟨.stated "late" [], none, "", [], none⟩
    let doc : Document := ⟨⟨.none, []⟩, "", "(f)", ⟨[("f", ⟨"f", [], [.use "m" false .builtIn], .builtIn⟩)]⟩, .empty,
      [left], [], []⟩
    let disk : Disk := .ofEntries [(⟨.above 0, ["m.write"]⟩, ⟨.file "(".toUTF8, 0⟩)] 0
    let place : Span := ⟨⟨1, 1, 0⟩, ⟨1, 4, 3⟩⟩
    let nodes : List Node := [.call "f" [] place]
    ∃ m last, m.fileName = some "m.write" ∧
      (expand disk 9 nodes doc).1 = .error (.failed [left, m, last]) ∧ (expand disk 9 nodes doc).2.errors = [] ∧
      last.span = some place ∧ last.source = "(f)" := by
  intro left doc disk place nodes
  obtain ⟨-, -, hfailed, hbroken, -⟩ := errors_accounted disk 9 nodes doc
  have htext : disk.readText ⟨.none, ["m.write"]⟩ = .ok "(" := rfl
  have htree : Node.ofText "(" = .error (.tokens ⟨.missingName, ⟨1, 2, 1⟩⟩) := by cbv
  have hleads : Task.Leads disk ⟨9, .call "f" [] place, doc⟩ ["f"]
      ⟨8, .use "m" false .builtIn, doc.enter "f"⟩ := .inside (.body rfl rfl rfl (.here _ _ _)) (.here _)
  obtain ⟨last, hrun⟩ := (hbroken _).1 (.intro (.here _ _ _) hleads rfl htext htree)
  obtain ⟨hnone, top, mid, new, e, hc, -, -, -, herrors⟩ := hfailed _ hrun
  obtain rfl : top = .call "f" [] place := List.mem_singleton.1 hc.mem
  obtain ⟨-, hlast⟩ := List.append_inj' herrors rfl
  obtain rfl := List.singleton_inj.1 hlast
  exact ⟨_, _, rfl, hrun, hnone, rfl, rfl⟩

end Markup.Document
