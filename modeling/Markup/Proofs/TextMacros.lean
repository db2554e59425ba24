/-
Macros of plain text.

A text refers to a name at a place where a `$` stands with the name behind it, as
far as the name goes (`RefersAt`). The parameters of a macro of plain text are the
names that its body refers to, each once, in the order in which it first does
(`listsNames_placeholders`).

What is put for a parameter replaces its name wherever it follows a `$`, also where
it only begins a longer one. Where no name begins another and no `$` stands alone,
this is no other than to fill each placeholder as far as it goes (`Fills`): such a
body is made of text without `$` and of placeholders (`exists_pieces`), and the
substitutions fill these (`Separable.fills`).
-/
import Markup.Proofs.Substitution
import Markup.Proofs.FailurePoints
import Markup.Proofs.Lexemes
import Markup.Proofs.BlankFacts

namespace Markup.Text

open Token (Run)

/-! ## Places of names -/

/-- Whether at a place of a text a `$` stands with a name behind it, and nothing that would go on
with the name. -/
def RefersAt (cs name : List Char) (place : Nat) : Prop :=
  ∃ behind rest, cs.drop place = '$' :: behind ∧ Run isPlaceholderChar behind name rest ∧ name ≠ []

theorem refersAt_iff {cs name : List Char} {place : Nat} : RefersAt cs name place ↔
    cs[place]? = some '$' ∧ name = (cs.drop (place + 1)).takeWhile isPlaceholderChar ∧ name ≠ [] := by
  constructor
  · rintro ⟨behind, rest, he, hrun, hne⟩
    have hbehind : cs.drop (place + 1) = behind := by rw [← List.tail_drop, he, List.tail_cons]
    exact ⟨by rw [← List.head?_drop, he]; rfl, by rw [hbehind, hrun.takeWhile], hne⟩
  · rintro ⟨hdollar, rfl, hne⟩
    rw [← List.head?_drop] at hdollar
    obtain ⟨behind, he⟩ := List.head?_eq_some_iff.1 hdollar
    have hbehind : cs.drop (place + 1) = behind := by rw [← List.tail_drop, he, List.tail_cons]
    refine ⟨behind, behind.dropWhile isPlaceholderChar, he, ?_, hne⟩
    rw [hbehind]
    exact Token.run_takeWhile isPlaceholderChar behind

instance (cs name : List Char) (place : Nat) : Decidable (RefersAt cs name place) :=
  decidable_of_iff' _ refersAt_iff

theorem refersAt_zero_iff {c : Char} {cs name : List Char} :
    RefersAt (c :: cs) name 0 ↔ c = '$' ∧ name = cs.takeWhile isPlaceholderChar ∧ name ≠ [] := by
  rw [refersAt_iff, List.getElem?_cons_zero, Option.some_inj]
  rfl

theorem refersAt_append_iff (front : List Char) {cs name : List Char} {place : Nat} :
    RefersAt (front ++ cs) name (front.length + place) ↔ RefersAt cs name place := by
  rw [RefersAt, RefersAt, List.drop_length_add_append]

theorem RefersAt.unique {cs name other : List Char} {place : Nat} (h : RefersAt cs name place)
    (k : RefersAt cs other place) : name = other :=
  (refersAt_iff.1 h).2.1.trans (refersAt_iff.1 k).2.1.symm

/-! ## The names of a text -/

/-- The first character begins the placeholder of a name, or the names are those behind it. -/
theorem placeholderRuns_cons_cases (c : Char) (cs : List Char) :
    (∃ name, RefersAt (c :: cs) name 0 ∧ placeholderRuns (c :: cs) = name :: placeholderRuns cs) ∨
      (∀ name, ¬ RefersAt (c :: cs) name 0) ∧ placeholderRuns (c :: cs) = placeholderRuns cs := by
  rw [placeholderRuns]
  split
  next h =>
    simp only [Bool.and_eq_true, beq_iff_eq, Bool.not_eq_true', List.isEmpty_eq_false_iff] at h
    exact .inl ⟨_, refersAt_zero_iff.2 ⟨h.1, rfl, h.2⟩, rfl⟩
  next h =>
    refine .inr ⟨fun name hr => h ?_, rfl⟩
    obtain ⟨hc, rfl, hne⟩ := refersAt_zero_iff.1 hr
    simp [hc, hne]

theorem mem_placeholderRuns_iff {cs name : List Char} :
    name ∈ placeholderRuns cs ↔ ∃ place, RefersAt cs name place := by
  induction cs with
  | nil => simp [placeholderRuns, RefersAt]
  | cons c cs ih =>
    have hplaces : (∃ place, RefersAt (c :: cs) name place) ↔
        RefersAt (c :: cs) name 0 ∨ ∃ place, RefersAt cs name place := by
      constructor
      · rintro ⟨_ | place, h⟩
        · exact .inl h
        · exact .inr ⟨place, h⟩
      · rintro (h | ⟨place, h⟩)
        · exact ⟨0, h⟩
        · exact ⟨place + 1, h⟩
    rw [hplaces, ← ih]
    rcases placeholderRuns_cons_cases c cs with ⟨first, hfirst, he⟩ | ⟨hnone, he⟩
    · rw [he, List.mem_cons]
      exact or_congr_left ⟨fun h => h ▸ hfirst, fun h => h.unique hfirst⟩
    · rw [he]
      exact ⟨.inr, fun h => h.resolve_left (hnone name)⟩

/-- Before one of the names stand those that the text refers to before this one. -/
theorem exists_place_of_placeholderRuns {cs name : List Char} {front behind : List (List Char)}
    (h : placeholderRuns cs = front ++ name :: behind) :
    ∃ place, RefersAt cs name place ∧ ∀ earlier < place, ∀ other, RefersAt cs other earlier → other ∈ front := by
  induction cs generalizing front with
  | nil => simp [placeholderRuns] at h
  | cons c cs ih =>
    rcases placeholderRuns_cons_cases c cs with ⟨first, hfirst, he⟩ | ⟨hnone, he⟩
    · rw [he] at h
      cases front with
      | nil =>
        obtain ⟨rfl, -⟩ := List.cons.inj h
        exact ⟨0, hfirst, fun _ hlt => absurd hlt (Nat.not_lt_zero _)⟩
      | cons head front =>
        obtain ⟨rfl, hrest⟩ := List.cons.inj h
        obtain ⟨place, hplace, hearlier⟩ := ih hrest
        refine ⟨place + 1, hplace, fun earlier hlt other ho => ?_⟩
        cases earlier with
        | zero => exact List.mem_cons.2 (.inl (ho.unique hfirst))
        | succ earlier => exact List.mem_cons_of_mem _ (hearlier earlier (Nat.lt_of_succ_lt_succ hlt) other ho)
    · obtain ⟨place, hplace, hearlier⟩ := ih (he ▸ h)
      refine ⟨place + 1, hplace, fun earlier hlt other ho => ?_⟩
      cases earlier with
      | zero => exact absurd ho (hnone other)
      | succ earlier => exact hearlier earlier (Nat.lt_of_succ_lt_succ hlt) other ho

/-- Taking out repeats leaves each in the order in which they first come. -/
theorem pairwise_eraseDups {α : Type} [BEq α] [LawfulBEq α] (as : List α) :
    as.eraseDups.Pairwise fun a b => a ≠ b ∧ ∃ front behind, as = front ++ a :: behind ∧ b ∉ front := by
  induction as using List.reverseRecOn with
  | nil => exact .nil
  | append_singleton as c ih =>
    have hlonger := ih.imp fun {a b} ⟨hne, front, behind, he, hb⟩ =>
      show a ≠ b ∧ ∃ front behind, as ++ [c] = front ++ a :: behind ∧ b ∉ front from
        ⟨hne, front, behind ++ [c], by rw [he, List.append_assoc, List.cons_append], hb⟩
    by_cases hc : c ∈ as
    · have hnone : [c].removeAll as = [] := by simp [List.removeAll, hc]
      rwa [List.eraseDups_append, hnone, List.eraseDups_nil, List.append_nil]
    · have hone : [c].removeAll as = [c] := by simp [List.removeAll, hc]
      rw [List.eraseDups_append, hone, List.eraseDups_cons, List.filter_nil, List.eraseDups_nil, List.pairwise_append]
      refine ⟨hlonger, List.pairwise_singleton _ _, fun a ha b hb => ?_⟩
      rw [List.mem_singleton.1 hb]
      have ha := List.mem_eraseDups.1 ha
      obtain ⟨front, behind, he⟩ := List.append_of_mem ha
      refine ⟨fun hac => hc (hac ▸ ha), front, behind ++ [c], by rw [he, List.append_assoc, List.cons_append], ?_⟩
      exact fun hm => hc (he ▸ List.mem_append_left _ hm)

theorem mem_placeholders_iff {body name : String} :
    name ∈ placeholders body ↔ ∃ place, RefersAt body.toList name.toList place := by
  rw [← mem_placeholderRuns_iff, placeholders, List.mem_eraseDups, List.mem_map]
  constructor
  · rintro ⟨run, hm, rfl⟩
    rwa [String.toList_ofList]
  · exact fun hm => ⟨name.toList, hm, String.ofList_toList⟩

/-- Whether names are those that a text refers to, each once, by the places where it first does. -/
structure ListsNames (cs : List Char) (names : List String) : Prop where
  nodup : names.Nodup
  mem_iff : ∀ name, name ∈ names ↔ ∃ place, RefersAt cs name.toList place
  /-- The text refers to a name before it refers to any that comes behind it. -/
  in_order : names.Pairwise fun name other => ∀ place, RefersAt cs other.toList place →
    ∃ earlier < place, RefersAt cs name.toList earlier

theorem listsNames_placeholders (body : String) : ListsNames body.toList (placeholders body) := by
  have horder : (placeholders body).Pairwise fun name other => name ≠ other ∧
      ∀ place, RefersAt body.toList other.toList place →
        ∃ earlier < place, RefersAt body.toList name.toList earlier := by
    refine (pairwise_eraseDups _).imp fun {name other} ⟨hne, front, behind, he, hother⟩ => ⟨hne, fun place hp => ?_⟩
    obtain ⟨runs, rest, hruns, rfl, hrest⟩ := List.map_eq_append_iff.1 he
    obtain ⟨run, more, rfl, rfl, -⟩ := List.map_eq_cons_iff.1 hrest
    obtain ⟨earlier, hearlier, hbefore⟩ := exists_place_of_placeholderRuns hruns
    rw [String.toList_ofList]
    refine ⟨earlier, ?_, hearlier⟩
    by_contra hle
    rcases Nat.lt_or_eq_of_le (Nat.le_of_not_lt hle) with hlt | rfl
    · exact hother (List.mem_map.2 ⟨_, hbefore place hlt _ hp, String.ofList_toList⟩)
    · exact hne (by rw [hearlier.unique hp, String.ofList_toList])
  exact ⟨horder.imp And.left, fun _ => mem_placeholders_iff, horder.imp And.right⟩

/-! ## Filling -/

/-- Whether a text becomes another one when every placeholder is taken as far as it goes and gets the value
of its name, and each other character is kept. -/
inductive Fills (value : String → String) : List Char → List Char → Prop where
  | nil : Fills value [] []
  | char {c cs text} : c ≠ '$' → Fills value cs text → Fills value (c :: cs) (c :: text)
  | slot {cs name rest text} : Run isPlaceholderChar cs name rest → name ≠ [] → Fills value rest text →
      Fills value ('$' :: cs) ((value (.ofList name)).toList ++ text)

/-- Whether the placeholders of a text are clear of each other and of the rest: no name begins another,
and no `$` stands alone. -/
structure Separable (cs : List Char) (names : List String) : Prop where
  not_prefix : ∀ name ∈ names, ∀ other ∈ names, name ≠ other → ¬ name.toList <+: other.toList
  not_lone : ∀ place, cs[place]? = some '$' → ∃ name, RefersAt cs name place

/-- A text in which no `$` stands alone is made of text without `$` and of placeholders. -/
theorem exists_pieces {names : List String} : ∀ (n : Nat) (cs : List Char), cs.length ≤ n →
    (∀ place, cs[place]? = some '$' → ∃ name, RefersAt cs name place ∧ .ofList name ∈ names) →
    ∃ pieces, textOf pieces = cs ∧ (∀ piece ∈ pieces, piece.IsOver names) ∧
      ∀ value, Fills value cs (pieces.flatMap fun piece => (piece.filled value).toList)
  | _, [], _, _ => ⟨[], rfl, nofun, fun _ => .nil⟩
  | n + 1, c :: cs, hn, h => by
    -- what stands behind some characters of the text has no lone `$` either
    have hbehind : ∀ front rest, c :: cs = front ++ rest →
        ∀ place, rest[place]? = some '$' → ∃ name, RefersAt rest name place ∧ .ofList name ∈ names := by
      intro front rest he place hp
      rw [he] at h
      have hplace : (front ++ rest)[front.length + place]? = some '$' := by
        rwa [List.getElem?_append_right (Nat.le_add_right _ _), Nat.add_sub_cancel_left]
      obtain ⟨name, hr, hm⟩ := h (front.length + place) hplace
      exact ⟨name, (refersAt_append_iff front).1 hr, hm⟩
    rw [List.length_cons] at hn
    by_cases hc : c = '$'
    · subst hc
      obtain ⟨name, ⟨behind, rest, he, hrun, hne⟩, hm⟩ := h 0 rfl
      cases he
      have hlength : rest.length ≤ n := by
        rw [hrun.append, List.length_append] at hn
        omega
      obtain ⟨pieces, htext, hover, hfills⟩ := exists_pieces n rest hlength
        (hbehind ('$' :: name) rest (by rw [hrun.append]; rfl))
      refine ⟨.slot (.ofList name) :: pieces, ?_, List.forall_mem_cons.2 ⟨hm, hover⟩, fun value => ?_⟩
      · rw [hrun.append, ← htext, textOf, textOf, List.flatMap_cons, Piece.chars, String.toList_ofList]
        rfl
      · rw [List.flatMap_cons]
        exact .slot hrun hne (hfills value)
    · obtain ⟨pieces, htext, hover, hfills⟩ := exists_pieces n cs (by omega) (hbehind [c] cs rfl)
      refine ⟨.plain (.ofList [c]) :: pieces, ?_, List.forall_mem_cons.2 ⟨?_, hover⟩, fun value => ?_⟩
      · rw [← htext, textOf, textOf, List.flatMap_cons, Piece.chars, String.toList_ofList]
        rfl
      · rw [Piece.IsOver, String.toList_ofList, List.mem_singleton]
        exact fun he => hc he.symm
      · rw [List.flatMap_cons, Piece.filled, String.toList_ofList]
        exact .char hc (hfills value)

theorem exists_map_eq {names values : List String} (hn : names.Nodup) (hl : values.length = names.length) :
    ∃ value : String → String, names.map value = values := by
  induction names generalizing values with
  | nil => exact ⟨id, (List.length_eq_zero_iff.1 hl).symm⟩
  | cons name names ih =>
    obtain ⟨first, rest, rfl⟩ := List.exists_cons_of_length_eq_add_one hl
    obtain ⟨hname, hnames⟩ := List.nodup_cons.1 hn
    obtain ⟨value, rfl⟩ := ih hnames (Nat.succ.inj hl)
    refine ⟨fun other => if other = name then first else value other, ?_⟩
    have hrest : ∀ other ∈ names, (if other = name then first else value other) = value other := by
      intro other ho
      have hne : other ≠ name := fun he => hname (he ▸ ho)
      exact if_neg hne
    rw [List.map_cons, if_pos rfl, List.map_congr_left hrest]

/-- Where placeholders are separable, substitutions fill them. -/
theorem Separable.fills {body : String} (h : Separable body.toList (placeholders body)) {value : String → String}
    (hvalue : ∀ name ∈ placeholders body, '$' ∉ (value name).toList) :
    Fills value body.toList (substituteAll value (placeholders body) body).toList := by
  have hplaces : ∀ place, body.toList[place]? = some '$' →
      ∃ name, RefersAt body.toList name place ∧ .ofList name ∈ placeholders body := by
    intro place hp
    obtain ⟨name, hr⟩ := h.not_lone place hp
    exact ⟨name, hr, mem_placeholders_iff.2 ⟨place, by rwa [String.toList_ofList]⟩⟩
  obtain ⟨pieces, htext, hover, hfills⟩ := exists_pieces _ body.toList (Nat.le_refl _) hplaces
  have hapart : ∀ name ∈ placeholders body, ∀ other ∈ placeholders body, name ≠ other → Apart name other :=
    fun name hn other ho hne => apart_of_not_prefix (not_mem_of_mem_placeholders ho)
      (h.not_prefix other ho name hn hne.symm) (h.not_prefix name hn other ho hne)
  have hfilled : substituteAll value (placeholders body) body = filled value pieces := by
    rw [← substituteAll_eq_filled (fun _ => Iff.rfl) hapart hvalue hover, htext, String.ofList_toList]
  rw [hfilled, filled, String.toList_ofList]
  exact hfills value

end Markup.Text

namespace Markup.Document

variable {one : Expander}

/-- A macro of plain text gives its text with the stripped arguments put, one after another, for its parameters. -/
theorem expandMacro_textDefinition (hone : ∀ value span doc, one (.text value span) doc = (.ok value, doc))
    {name key body : String} {groups : List Group} {arguments : List String} {doc last : Document}
    {value : String → String}
    (hg : expandGroups one groups (doc.enter name) = (.ok arguments, last))
    (hvalue : (Text.placeholders body).map value = arguments.map Text.strip) :
    expandMacro one name (textDefinition key body) groups doc =
      (.ok (Text.substituteAll value (Text.placeholders body) body), last.leave) := by
  have hcount : groups.length = (Text.placeholders body).length := by
    rw [← length_of_expandGroups hg, ← List.length_map Text.strip, ← hvalue, List.length_map]
  have hbody : expandAll one (textDefinition key body).body (doc.enter name) = (.ok body, doc.enter name) := by
    rw [textDefinition, expandAll_cons, hone, Outcome.andThen_ok, expandAll_nil, Outcome.andThen_ok,
      String.append_empty]
  rw [expandMacro_of_length one hcount, expandBody_eq, hbody, Outcome.andThen_ok]
  exact congrArg (Outcome.thenIn · leave) (fill_of_expandGroups hg hvalue body)

/-- The parameters of a macro of plain text are the names that its body refers to, each once and in the order in
which it first does. If none of them begins another and no `$` stands alone, a call of the macro, in any document
that still has it, with an argument for each, none of which has a `$`, gives the body with the stripped argument
for each placeholder and all else as it is. -/
theorem textMacro_fills_body (body : String) :
    Text.ListsNames body.toList (Text.placeholders body) ∧
    (Text.Separable body.toList (Text.placeholders body) →
      ∀ (doc later last : Document) (key : String) (node : Node) (groups : List Group) (arguments : List String)
        (disk : Disk) (limit : Nat),
        later.definitions.get? key = (doc.defineText key body).definitions.get? key →
        node.call? = some (key, groups) → groups.length = (Text.placeholders body).length →
        expandGroups (expandNode disk (limit + 1)) groups (later.enter key) = (.ok arguments, last) →
        (∀ argument ∈ arguments, '$' ∉ argument.toList) →
        ∃ value text, (Text.placeholders body).map value = arguments.map Text.strip ∧
          Text.Fills value body.toList text.toList ∧
          expandNode disk (limit + 2) node later = (.ok text, last.leave)) := by
  have hlists := Text.listsNames_placeholders body
  refine ⟨hlists, ?_⟩
  intro hseparable doc later last key node groups arguments disk limit hentry hnode hcount hg hplain
  have hlength : (arguments.map Text.strip).length = (Text.placeholders body).length := by
    rw [List.length_map, length_of_expandGroups hg, hcount]
  obtain ⟨value, hvalue⟩ := Text.exists_map_eq hlists.nodup hlength
  have hfree : ∀ name ∈ Text.placeholders body, '$' ∉ (value name).toList := by
    intro name hm
    obtain ⟨argument, ha, hs⟩ := List.mem_map.1 (hvalue ▸ List.mem_map_of_mem hm)
    rw [← hs]
    exact fun hd => hplain argument ha (Text.mem_of_mem_strip hd)
  refine ⟨value, _, hvalue, hseparable.fills hfree, ?_⟩
  have hget : later.definitions.get? key = some (textDefinition key body) :=
    hentry.trans (Table.get?_insert_self doc.definitions key (textDefinition key body))
  rw [expandNode_of_call? hnode, expandCall, hget]
  exact expandMacro_textDefinition (fun _ _ _ => rfl) hg hvalue

/-- A link, the address of which is told twice. -/
theorem textMacro_fills_body_link :
    let body := "<a href='$url'>$text</a> $url"
    let doc : Document := .defineText (.new "m.write" "" [] [] default) "link" body
    let groups : List Group := [⟨0, [.text " b.c " .builtIn], .builtIn⟩, ⟨1, [.text "see" .builtIn], .builtIn⟩]
    Text.Separable body.toList (Text.placeholders body) ∧
      groups.length = (Text.placeholders body).length ∧
      expandGroups (expandNode .empty 1) groups (doc.enter "link") = (.ok [" b.c ", "see"], doc.enter "link") ∧
      (∀ argument ∈ [" b.c ", "see"], '$' ∉ argument.toList) ∧
      ∃ value, (Text.placeholders body).map value = ["b.c", "see"] ∧
        Text.Fills value body.toList "<a href='b.c'>see</a> b.c".toList ∧
        expandNode .empty 2 (.call "link" groups .builtIn) doc = (.ok "<a href='b.c'>see</a> b.c", doc) := by
  intro body doc groups
  have hparams : Text.placeholders body = ["url", "text"] := by decide +kernel
  have hnames : ∀ name ∈ Text.placeholders body, ∀ other ∈ Text.placeholders body, name ≠ other →
      ¬ name.toList <+: other.toList := by
    rw [hparams]
    decide
  have hdollars : ∀ place, body.toList[place]? = some '$' → ∃ name, Text.RefersAt body.toList name place := by
    intro place hp
    have hall : ∀ place < body.toList.length, body.toList[place]? = some '$' →
        Text.RefersAt body.toList ((body.toList.drop (place + 1)).takeWhile Text.isPlaceholderChar) place := by
      decide +kernel
    exact ⟨_, hall place (List.getElem?_eq_some_iff.1 hp).1 hp⟩
  have hseparable : Text.Separable body.toList (Text.placeholders body) := ⟨hnames, hdollars⟩
  have hcount : groups.length = (Text.placeholders body).length := by rw [hparams]; rfl
  have harguments : expandGroups (expandNode .empty 1) groups (doc.enter "link") =
      (.ok [" b.c ", "see"], doc.enter "link") := rfl
  have hplain : ∀ argument ∈ [" b.c ", "see"], '$' ∉ argument.toList := by decide
  obtain ⟨value, text, hvalue, hfills, hresult⟩ := (textMacro_fills_body body).2 hseparable _ doc _ "link"
    (.call "link" groups .builtIn) groups _ .empty 0 rfl rfl hcount harguments hplain
  have htext : (expandNode .empty 2 (.call "link" groups .builtIn) doc).1 = .ok "<a href='b.c'>see</a> b.c" := by
    decide +kernel
  rw [hresult] at htext
  cases htext
  rw [leave_enter] at hresult
  exact ⟨hseparable, hcount, harguments, hplain, value, hvalue, hfills, hresult⟩

end Markup.Document
