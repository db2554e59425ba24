/-
Expansion as steps, one behind the other.

`Outcome.andThen` goes on where a step has not failed, and every part of
expansion is such a chain: `expandAll_cons`, `fill_cons`, `expandBody_eq` and
`importModule_eq` say of which steps. A property of outcomes that `andThen`
keeps is kept by expansion, so the cases of failure are gone through once for
each property and not once for each part. A whole run goes on behind a node
(`expand_cons_of_ok`) or stops at it (`stopAt`).
-/
import Markup.Document.Expand

namespace Markup

/-- The nodes of a text with the given characters, if it has a tree. -/
def Node.ofChars (cs : List Char) : List Node :=
  match Token.scanFrom ⟨cs, .first⟩ with
  | .error _ => []
  | .ok tokens =>
    match Node.parse tokens with
    | .error _ => []
    | .ok nodes => nodes

theorem Node.ofChars_toList (text : String) : Node.ofChars text.toList = (Node.ofText text).toOption.getD [] := by
  rw [Node.ofText, Node.ofChars, Token.scan, Cursor.ofText]
  cases Token.scanFrom ⟨text.toList, .first⟩ with
  | error e => rfl
  | ok tokens => cases hp : Node.parse tokens <;> simp [hp, Except.toOption]

namespace Document

namespace Outcome

variable {α β : Type}

/-- Goes on with what a step gives, in the document behind it, unless the step fails. -/
def andThen (x : Outcome α) (next : α → Document → Outcome β) : Outcome β :=
  match x with
  | (.ok a, doc) => next a doc
  | (.error e, doc) => (.error e, doc)

/-- Changes the document behind a step, whether the step fails or not. -/
def thenIn (x : Outcome α) (change : Document → Document) : Outcome α := (x.1, change x.2)

@[simp] theorem andThen_ok (a : α) (doc : Document) (next : α → Document → Outcome β) :
    andThen (.ok a, doc) next = next a doc := rfl

@[simp] theorem andThen_error (e : Failure) (doc : Document) (next : α → Document → Outcome β) :
    andThen (.error e, doc) next = (.error e, doc) := rfl

@[simp] theorem thenIn_mk (r : Except Failure α) (doc : Document) (change : Document → Document) :
    thenIn (r, doc) change = (r, change doc) := rfl

end Outcome

/-- Puts a name on the call stack. -/
def enter (name : String) (doc : Document) : Document :=
  { doc with callStack := doc.callStack ++ [name] }

/-- Takes the last name off the call stack. -/
def leave (doc : Document) : Document := { doc with callStack := doc.callStack.dropLast }

theorem leave_enter (name : String) (doc : Document) : (doc.enter name).leave = doc := by
  rw [enter, leave, List.dropLast_concat]

variable (one : Expander)

theorem expandAll_nil (doc : Document) : expandAll one [] doc = (.ok "", doc) := rfl

theorem expandAll_cons (node : Node) (rest : List Node) (doc : Document) :
    expandAll one (node :: rest) doc = (one node doc).andThen fun text doc =>
      (expandAll one rest doc).andThen fun more doc => (.ok (text ++ more), doc) := by
  rw [expandAll]
  obtain ⟨_ | text, doc⟩ := one node doc
  · rfl
  · simp only [Outcome.andThen_ok]
    obtain ⟨_ | more, doc⟩ := expandAll one rest doc <;> rfl

theorem fill_cons (param : String) (params : List String) (group : Group) (groups : List Group)
    (text : String) (doc : Document) :
    fill one (param :: params) (group :: groups) text doc =
      (expandAll one group.values doc).andThen fun argument doc =>
        fill one params groups (Text.substitute text param (Text.strip argument)) doc := by
  rw [fill]
  obtain ⟨_ | argument, doc⟩ := expandAll one group.values doc <;> rfl

theorem fill_of_nil {params : List String} {groups : List Group} (h : params = [] ∨ groups = [])
    (text : String) (doc : Document) : fill one params groups text doc = (.ok text, doc) := by
  rcases h with rfl | rfl
  · rw [fill]; simp
  · rw [fill]; simp

theorem expandBody_eq (d : Definition) (groups : List Group) (doc : Document) :
    expandBody one d groups doc = (expandAll one d.body doc).andThen fun text doc =>
      fill one d.params groups text doc := by
  rw [expandBody]
  obtain ⟨_ | text, doc⟩ := expandAll one d.body doc <;> rfl

theorem expandMacro_of_length {d : Definition} {groups : List Group} (h : groups.length = d.params.length)
    (name : String) (doc : Document) :
    expandMacro one name d groups doc = (expandBody one d groups (doc.enter name)).thenIn leave := by
  rw [expandMacro, if_neg (fun hne => hne h)]
  rfl

theorem silent_eq (x : Outcome Unit) : silent x = x.andThen fun _ doc => (.ok "", doc) := by
  obtain ⟨_ | _, doc⟩ := x <;> rfl

/-! ## Imports -/

theorem exists_mem_moduleTexts {name : String} {nodes : List Node} (h : BuiltIn.moduleNodes? name = some nodes) :
    ∃ text, (name, text) ∈ BuiltIn.moduleTexts ∧ nodes = (Node.ofText text).toOption.getD [] := by
  rw [BuiltIn.moduleNodes?, Option.map_eq_some_iff] at h
  obtain ⟨text, ht, rfl⟩ := h
  obtain ⟨before, after, he, -⟩ := List.lookup_eq_some_iff.1 ht
  exact ⟨text, by rw [he]; simp, rfl⟩

theorem enterAll_define (doc : Document) (name : String) (params : List String) (body : List Node)
    (span : Span) (rest : List Node) :
    doc.enterAll (.define name params body span :: rest) =
      (doc.define ⟨name, params, body, span⟩).enterAll rest := by
  rw [enterAll]

theorem enterAll_bind (doc : Document) (name : String) (changes : Bool) (value : List Node) (span : Span)
    (rest : List Node) :
    doc.enterAll (.bind name changes value span :: rest) =
      (doc.bind name changes value span).andThen fun _ doc => doc.enterAll rest := by
  rw [enterAll]
  obtain ⟨_ | _, doc⟩ := doc.bind name changes value span <;> rfl

theorem enterAll_of_ne (doc : Document) {node : Node}
    (hd : ∀ name params body span, node ≠ .define name params body span)
    (hb : ∀ name changes value span, node ≠ .bind name changes value span) (rest : List Node) :
    doc.enterAll (node :: rest) = doc.enterAll rest := by
  rw [enterAll]
  · exact hd
  · exact hb

theorem importModule_eq (doc : Document) (disk : Disk) (name : String) (builtIn : Bool) :
    doc.importModule disk name builtIn =
      (doc.loadModule disk name builtIn).andThen fun nodes doc => doc.enterAll nodes := by
  rw [importModule]
  obtain ⟨_ | nodes, doc⟩ := doc.loadModule disk name builtIn <;> rfl

/-! ## The whole document -/

/-- How a run ends at a node that fails. -/
def stopAt (node : Node) (e : Failure) (doc : Document) : Except Stop String × Document :=
  match e with
  | .raised _ => doc.report node
  | .tooDeep => (doc.record (doc.errorOf .tooDeep)).report node
  | .disk e => (.error (.disk e), doc)

section

variable {disk : Disk} {limit : Nat} {node : Node} {doc next : Document}

theorem expand_cons_of_error {e : Failure} (h : expandNode disk limit node doc = (.error e, next))
    (rest : List Node) : expand disk limit (node :: rest) doc = next.stopAt node e := by
  simp only [expand, h]
  cases e <;> rfl

theorem expand_cons_of_ok {text : String} (h : expandNode disk limit node doc = (.ok text, next))
    (rest : List Node) : expand disk limit (node :: rest) doc =
      ((expand disk limit rest next).1.map (text ++ ·), (expand disk limit rest next).2) := by
  simp only [expand, h]
  obtain ⟨_ | more, last⟩ := expand disk limit rest next <;> rfl

/-- A run over more nodes goes on behind the first ones, in the document that they leave. -/
theorem expand_append (nodes more : List Node) :
    expand disk limit (nodes ++ more) doc =
      match expand disk limit nodes doc with
      | (.error s, last) => (.error s, last)
      | (.ok text, last) => ((expand disk limit more last).1.map (text ++ ·), (expand disk limit more last).2) := by
  induction nodes generalizing doc with
  | nil =>
    simp only [List.nil_append, expand, String.empty_append]
    generalize expand disk limit more doc = result
    obtain ⟨_ | _, last⟩ := result <;> rfl
  | cons node rest ih =>
    rw [List.cons_append]
    cases hr : expandNode disk limit node doc with
    | mk r mid =>
    cases r with
    | error e =>
      rw [expand_cons_of_error hr, expand_cons_of_error hr]
      cases e <;> rfl
    | ok text =>
      rw [expand_cons_of_ok hr, expand_cons_of_ok hr, ih]
      obtain ⟨_ | others, last⟩ := expand disk limit rest mid
      · rfl
      · simp only [Except.map]
        generalize (expand disk limit more last).1 = result
        cases result with
        | error s => rfl
        | ok behind => simp only [String.append_assoc]

end

end Document

end Markup
