/-
Variables that are given from outside.

A config and definitions are merged from left to right: the last value given for a name
counts, and the names come in the order in which they are first given. Nothing but a
definition without `=`, or a value of the config past a limit, keeps the two from being
merged, as long as the paths in the config are texts (`resolve_error_iff`).

What is given is kept as plain text: a reference to it is that text, stripped, whatever
stands in it (`compile_reference`). So a preset comes out as it was given
(`presets_merged`).
-/
import Mathlib.Algebra.Order.Ring.Int
import Mathlib.Data.List.Forall2
import Markup.Compile
import Markup.Proofs.ExpandSteps
import Markup.Proofs.Lexemes
import Markup.Proofs.ResolvedOptions
import Markup.Proofs.TableWrites

namespace Markup

theorem mapM_ok_iff {ε α β : Type} {f : α → Except ε β} {p : α → Prop} {g : α → β}
    (hf : ∀ a b, f a = .ok b ↔ p a ∧ b = g a) {as : List α} {bs : List β} :
    as.mapM f = .ok bs ↔ (∀ a ∈ as, p a) ∧ bs = as.map g := by
  induction as generalizing bs with
  | nil => simp [pure, Except.pure, eq_comm]
  | cons a as ih =>
    simp only [List.mapM_cons, except_bind_ok_iff, hf, ih, pure, Except.pure, Except.ok.injEq, List.forall_mem_cons,
      List.map_cons]
    constructor
    · rintro ⟨_, ⟨ha, rfl⟩, _, ⟨hrest, rfl⟩, rfl⟩
      exact ⟨⟨ha, hrest⟩, rfl⟩
    · rintro ⟨⟨ha, hrest⟩, rfl⟩
      exact ⟨_, ⟨ha, rfl⟩, _, ⟨hrest, rfl⟩, rfl⟩

/-! ## A reference to plain text -/

namespace Document

/-- The variable that plain text under a name is. -/
def textBinding (name value : String) : Binding := ⟨name, some [.text value .builtIn], false, .builtIn⟩

theorem foldl_letText (presets : List (String × String)) (doc : Document) :
    presets.foldl (fun doc entry => doc.letText entry.1 entry.2) doc =
      { doc with
        bindings := doc.bindings.insertAll (presets.map fun entry => (entry.1, textBinding entry.1 entry.2)) } := by
  induction presets generalizing doc with
  | nil => rfl
  | cons entry rest ih =>
    rw [List.foldl_cons, ih]
    rfl

section

variable (fileName source : String) (presets : List (String × String)) (modulePaths : List Path) (now : BuiltIn.Moment)

theorem bindings_new : (new fileName source presets modulePaths now).bindings =
    Table.empty.insertAll (presets.map fun entry => (entry.1, textBinding entry.1 entry.2)) := by
  rw [new, foldl_letText]
  rfl

theorem names_definitions_new :
    (new fileName source presets modulePaths now).definitions.names = [".", "/date", "/time"] := by
  rw [new, foldl_letText]
  rfl

end

end Document

namespace Keyword

theorem ofName?_eq_none {name : String} (h : name ∉ ["let", "set", "use", "def", "end"]) : ofName? name = none := by
  rw [ofName?, List.find?_eq_none]
  intro word _ hn
  obtain rfl := of_decide_eq_true hn
  cases word <;> exact absurd h (by decide)

end Keyword

/-- What makes a text behind a `#` a reference: it is made of name characters, is not empty and no
keyword, and does not begin a comment. -/
structure IsReferable (name : String) : Prop where
  ne_empty : name ≠ ""
  isNameChar : ∀ c ∈ name.toList, Text.isNameChar c = true
  not_comment : name.toList.head? ≠ some '!'
  not_keyword : name ∉ ["let", "set", "use", "def", "end"]

namespace Node

theorem exists_ofText_of_isReferable {name : String} (h : IsReferable name) :
    ∃ span, ofText ("#" ++ name) = .ok [.reference name false span] := by
  have hrun : Token.Run Text.isNameChar name.toList name.toList [] := ⟨(List.append_nil _).symm, h.isNameChar, nofun⟩
  have hkeyword : Keyword.ofName? (.ofList name.toList) = none := by
    rw [String.ofList_toList]
    exact Keyword.ofName?_eq_none h.not_keyword
  have hreads := Token.Reads.step (.reference h.not_comment hrun (by simpa using h.ne_empty) hkeyword) (.refl [])
  have htext : ("#" ++ name).toList = '#' :: name.toList := by simp
  rw [← htext] at hreads
  have hscan := Token.scan_ok_iff.2 ⟨_, hreads, rfl⟩
  refine ⟨⟨.first, Position.first.advance ("#" ++ name).toList⟩, ?_⟩
  simp only [ofText, hscan, List.append_nil, Token.place, List.singleton_append, String.ofList_toList]
  rfl

end Node

/-- A reference to plain text is that text, stripped, under every setting that gives it to the name and lets
a reference stand for a text, and with every disk. -/
theorem compile_reference {setting : Setting} {name value : String} (hname : IsReferable name)
    (hnew : name ∉ [".", "/date", "/time"]) (hvalue : Table.IsLast setting.presets name value)
    (hlimit : 1 < setting.limit) (disk : Disk) : compile setting disk ("#" ++ name) = .ok (Text.strip value) := by
  obtain ⟨span, hnodes⟩ := Node.exists_ofText_of_isReferable hname
  generalize hdoc : setting.document ("#" ++ name) = doc
  have hmacro : doc.definitions.get? name = none := by
    rw [Table.get?_eq_none_iff, ← hdoc, Setting.document, Document.names_definitions_new]
    exact hnew
  have hbinding : doc.bindings.get? name = some (Document.textBinding name value) := by
    rw [← hdoc, Setting.document, Document.bindings_new, Table.get?_insertAll_empty_iff]
    obtain ⟨before, after, he, ha⟩ := hvalue
    rw [he, List.map_append, List.map_cons]
    exact ⟨_, _, rfl, by rwa [List.map_map]⟩
  -- The name stands for one text, which is not expanded any further.
  obtain ⟨left, hleft⟩ := Nat.exists_eq_add_of_lt hlimit
  have hnode : Document.expandNode disk setting.limit (.reference name false span) doc = (.ok value, doc) := by
    rw [show setting.limit = left + 1 + 1 by omega]
    simp only [Document.expandNode, Document.expandWith, Document.expandCall, hmacro, hbinding,
      List.isEmpty_nil, if_true, Document.textBinding, Binding.nodes, Option.getD_some, Document.expandAll,
      String.append_empty]
  simp only [compile, hnodes, Setting.output, hdoc, Document.expand_cons_of_ok hnode]
  simp only [Document.expand, Except.map, String.append_empty]

/-! ## Merging -/

namespace CommandLine.Options

/-- A definition gives the text behind its first `=` to the name before it. -/
structure Gives (text : String) (entry : String × String) : Prop where
  text_eq : text = entry.1 ++ "=" ++ entry.2
  first : '=' ∉ entry.1.toList

theorem parseDefine_eq_some_iff {text : String} {entry : String × String} :
    parseDefine text = some entry ↔ Gives text entry := by
  obtain ⟨name, value⟩ := entry
  rw [parseDefine, Word.splitEquals]
  constructor
  · intro h
    have hrun := Token.run_takeWhile (· != '=') text.toList
    split at h
    next hs =>
      split at hs
      next => cases hs
      next c rest hd =>
        cases hs
        cases h
        rw [hd] at hrun
        have hc : c = '=' := by simpa using hrun.stops c rfl
        subst hc
        refine ⟨?_, fun hm => ?_⟩
        · rw [← String.toList_inj]
          exact hrun.append.trans (by simp)
        · have hn := hrun.all '=' (by simpa using hm)
          cases hn
    next => cases h
  · rintro ⟨rfl, hn⟩
    have hrun : Token.Run (· != '=') (name ++ "=" ++ value).toList name.toList ('=' :: value.toList) := by
      refine ⟨by simp, fun c hc => ?_, ?_⟩
      · rw [bne_iff_ne]
        rintro rfl
        exact hn hc
      · rintro c hc
        cases hc
        rfl
    simp only [hrun.dropWhile, hrun.takeWhile, String.ofList_toList]

theorem exists_gives_iff {text : String} : (∃ entry, Gives text entry) ↔ '=' ∈ text.toList := by
  constructor
  · rintro ⟨entry, rfl, -⟩
    simp
  · intro h
    obtain ⟨name, value, ht, hn⟩ := List.eq_append_cons_of_mem h
    refine ⟨(.ofList name, .ofList value), ?_, by simpa using hn⟩
    rw [← String.toList_inj, ht]
    simp

theorem exists_given_iff {defines : List String} :
    (∃ given, List.Forall₂ Gives defines given) ↔ ∀ text ∈ defines, '=' ∈ text.toList := by
  induction defines with
  | nil => simp
  | cons text rest ih =>
    rw [List.forall_mem_cons, ← ih, ← exists_gives_iff]
    simp only [List.forall₂_cons_left_iff]
    exact ⟨fun ⟨_, entry, given, he, hg, _⟩ => ⟨⟨entry, he⟩, given, hg⟩,
      fun ⟨⟨entry, he⟩, given, hg⟩ => ⟨_, entry, given, he, hg, rfl⟩⟩

theorem enterDefines_ok_iff {table presets : Table String} {defines : List String} :
    enterDefines table (defines.map some) = .ok presets ↔
      ∃ given, List.Forall₂ Gives defines given ∧ presets = table.insertAll given := by
  induction defines generalizing table with
  | nil =>
    constructor
    · intro h
      cases h
      exact ⟨[], .nil, rfl⟩
    · rintro ⟨given, hg, rfl⟩
      cases hg
      rfl
  | cons text rest ih =>
    rw [List.map_cons, enterDefines, Option.bind_some]
    cases hp : parseDefine text with
    | none =>
      constructor
      · intro h
        cases h
      · rintro ⟨given, hg, -⟩
        cases hg with
        | cons hentry _ =>
          rw [parseDefine_eq_some_iff.2 hentry] at hp
          cases hp
    | some entry =>
      rw [ih]
      constructor
      · rintro ⟨given, hg, rfl⟩
        exact ⟨entry :: given, .cons (parseDefine_eq_some_iff.1 hp) hg, rfl⟩
      · rintro ⟨given, hg, rfl⟩
        cases hg with
        | cons hentry hrest =>
          rw [parseDefine_eq_some_iff.2 hentry] at hp
          cases hp
          exact ⟨_, hrest, rfl⟩

/-- Whether a value of the config can be written, where there is only so much room. -/
def IsWritable (isFull : Nat → Toml.Value → Bool) (value : Toml.Value) : Prop := value.excess? isFull 0 = none

theorem writeValue_ok_iff {isFull : Nat → Toml.Value → Bool} {value : Toml.Value} {text : String} :
    writeValue isFull value = .ok text ↔ IsWritable isFull value ∧ text = value.display := by
  rw [writeValue, Toml.Value.write, IsWritable]
  cases value.excess? isFull 0 with
  | some => simp
  | none => simp [eq_comm]

/-- The values that the config gives, with their names. -/
def configGiven (config : Toml.Entries) : List (String × String) :=
  (sectionOf config "variables").map fun entry => (entry.1, entry.2.display)

theorem configPresets_ok_iff {host : Host} {config : Toml.Entries} {table : Table String} :
    configPresets host config = .ok table ↔
      (∀ entry ∈ sectionOf config "variables", IsWritable host.variableIsFull entry.2) ∧
        table = Table.empty.insertAll (configGiven config) := by
  have hentry : ∀ (entry : String × Toml.Value) (given : String × String),
      (do return (entry.1, ← writeValue host.variableIsFull entry.2)) = Except.ok given ↔
        IsWritable host.variableIsFull entry.2 ∧ given = (entry.1, entry.2.display) := by
    intro entry given
    simp only [except_bind_ok_iff, writeValue_ok_iff, pure, Except.pure, Except.ok.injEq]
    exact ⟨fun ⟨_, ⟨hw, ht⟩, he⟩ => ⟨hw, by rw [← he, ht]⟩, fun ⟨hw, he⟩ => ⟨_, ⟨hw, rfl⟩, he.symm⟩⟩
  rw [configPresets, except_bind_ok_iff]
  constructor
  · rintro ⟨given, hg, ht⟩
    obtain ⟨hw, rfl⟩ := (mapM_ok_iff hentry).1 hg
    cases ht
    exact ⟨hw, rfl⟩
  · rintro ⟨hw, rfl⟩
    exact ⟨configGiven config, (mapM_ok_iff hentry).2 ⟨hw, rfl⟩, rfl⟩

theorem mapM_configPath (paths : List String) :
    (paths.map Toml.Value.text).mapM configPath = .ok (paths.map .ofText) := by
  induction paths with
  | nil => rfl
  | cons path rest ih =>
    rw [List.map_cons, List.mapM_cons, ih]
    rfl

theorem mapM_givenPath (dirs : List String) : (dirs.map some).mapM givenPath = .ok (dirs.map .ofText) := by
  induction dirs with
  | nil => rfl
  | cons dir rest ih =>
    rw [List.map_cons, List.mapM_cons, ih]
    rfl

section

variable {host : Host} {disk : Disk} {args : Arguments} {input : String} {config : Toml.Entries}
  {defines dirs paths : List String} (hinput : args.input = some input)
  (hload : loadConfig host disk (configFile (.ofText input) args.config) = .ok config)
  (hdefines : args.defines = defines.map some) (hdirs : args.modulePaths = dirs.map some)
  (hpaths : items (sectionOf config "modules") "paths" = paths.map .text)
include hinput hload hdefines hdirs hpaths

/-- There are options exactly if every value that has to be written can be, and every definition gives
something. -/
theorem resolve_ok_iff {o : Options} :
    resolve host disk args = .ok o ↔
      (∀ entry ∈ sectionOf config "variables", IsWritable host.variableIsFull entry.2) ∧
      (∀ value ∈ items (sectionOf config "modules") "use", IsWritable host.moduleIsFull value) ∧
      ∃ given, List.Forall₂ Gives defines given ∧
        o = ⟨.ofText input, outputFile args.output, Table.empty.insertAll (configGiven config ++ given),
          (items (sectionOf config "modules") "use").map (·.display), (paths ++ dirs).map .ofText, args.watch,
          args.debug⟩ := by
  rw [resolve_eq host disk hinput, hload]
  change merge host config input args = .ok o ↔ _
  rw [merge_ok_iff, hdefines, hdirs, hpaths]
  simp only [configPresets_ok_iff, enterDefines_ok_iff, mapM_ok_iff fun _ _ => writeValue_ok_iff, mapM_configPath,
    mapM_givenPath, Except.ok.injEq]
  constructor
  · rintro ⟨_, _, _, _, _, ⟨hvariables, rfl⟩, ⟨given, hgiven, rfl⟩, ⟨huses, rfl⟩, rfl, rfl, rfl⟩
    exact ⟨hvariables, huses, given, hgiven, by rw [Table.insertAll_append, List.map_append]⟩
  · rintro ⟨hvariables, huses, given, hgiven, rfl⟩
    exact ⟨_, _, _, _, _, ⟨hvariables, rfl⟩, ⟨given, hgiven, rfl⟩, ⟨huses, rfl⟩, rfl, rfl,
      by rw [Table.insertAll_append, List.map_append]⟩

theorem resolve_error_iff : (∃ e, resolve host disk args = .error e) ↔ (∃ text ∈ defines, '=' ∉ text.toList) ∨
    (∃ entry ∈ sectionOf config "variables", ¬ IsWritable host.variableIsFull entry.2) ∨
    ∃ value ∈ items (sectionOf config "modules") "use", ¬ IsWritable host.moduleIsFull value := by
  have hok : (∃ o, resolve host disk args = .ok o) ↔ (∀ text ∈ defines, '=' ∈ text.toList) ∧
      (∀ entry ∈ sectionOf config "variables", IsWritable host.variableIsFull entry.2) ∧
      ∀ value ∈ items (sectionOf config "modules") "use", IsWritable host.moduleIsFull value := by
    rw [← exists_given_iff]
    simp only [resolve_ok_iff hinput hload hdefines hdirs hpaths]
    exact ⟨fun ⟨_, hv, hu, given, hg, _⟩ => ⟨⟨given, hg⟩, hv, hu⟩,
      fun ⟨⟨given, hg⟩, hv, hu⟩ => ⟨_, hv, hu, given, hg, rfl⟩⟩
  have herror : (∃ e, resolve host disk args = .error e) ↔ ¬ ∃ o, resolve host disk args = .ok o := by
    cases resolve host disk args <;> simp
  rw [herror, hok, not_and_or, not_and_or]
  simp only [not_forall, exists_prop]

/-- A config whose paths are texts and definitions are merged unless a definition has no `=` or a value
goes past a limit. Then each name has the value of the last definition of it, or else the config's, the
names come in the order in which they are first given, and the config's paths come first. A reference to
such a name, if it can be referred to and is no ready-made macro's, is compiled to its value, stripped. -/
theorem presets_merged :
    ((∃ e, resolve host disk args = .error e) ↔ (∃ text ∈ defines, '=' ∉ text.toList) ∨
      (∃ entry ∈ sectionOf config "variables", ¬ IsWritable host.variableIsFull entry.2) ∨
      ∃ value ∈ items (sectionOf config "modules") "use", ¬ IsWritable host.moduleIsFull value) ∧
    ∀ o, resolve host disk args = .ok o → ∃ given, List.Forall₂ Gives defines given ∧
      o.presets.names = ((configGiven config ++ given).map (·.1)).eraseDups ∧
      (∀ name value, o.presets.get? name = some value ↔ Table.IsLast given name value ∨
        name ∉ given.map (·.1) ∧ Table.IsLast (configGiven config) name value) ∧
      o.modulePaths = (paths ++ dirs).map .ofText ∧
      ∀ name value, o.presets.get? name = some value → IsReferable name → name ∉ [".", "/date", "/time"] →
        ∀ (setting : Setting) (disk : Disk), setting.presets = o.presets.entries → 1 < setting.limit →
          compile setting disk ("#" ++ name) = .ok (Text.strip value) := by
  refine ⟨resolve_error_iff hinput hload hdefines hdirs hpaths, fun o ho => ?_⟩
  obtain ⟨-, -, given, hgiven, rfl⟩ := (resolve_ok_iff hinput hload hdefines hdirs hpaths).1 ho
  refine ⟨given, hgiven, Table.names_insertAll_empty _, fun name value => ?_, rfl, ?_⟩
  · rw [Table.get?_insertAll_empty_iff, Table.isLast_append_iff]
  · intro name value hvalue hname hnew setting disk hsetting hlimit
    refine compile_reference hname hnew ?_ hlimit disk
    rw [hsetting]
    refine Table.isLast_of_mem ?_ (Table.mem_of_get? hvalue)
    have hempty : (Table.empty : Table String).names.Nodup := List.nodup_nil
    exact Table.nodup_names_insertAll hempty (configGiven config ++ given)

end

/-- A definition takes the place of the config's value, and what looks like markup in it stays as it is. -/
theorem presets_merged_markup :
    let disk : Disk := .ofEntries [(⟨.above 0, ["writ.toml"]⟩, ⟨.file "[variables]\na='old'\nn=7".toUTF8, 1⟩)] 1
    let args : Arguments :=
      ⟨some "d", none, [some "a=(x) #y=$z ", some "b="], [some "more"], none, false, false, false, false⟩
    ∃ o, resolve (.roomy 2) disk args = .ok o ∧ o.presets.names = ["a", "n", "b"] ∧
      o.modulePaths = [.ofText "more"] ∧
      compile ⟨"d", o.presets.entries, o.modulePaths, default, 2⟩ disk "#a" = .ok "(x) #y=$z" := by
  intro disk args
  have hconfig : (loadConfig (.roomy 2) disk (configFile (.ofText "d") args.config)).toOption.map (fun config =>
      (configGiven config, (items (sectionOf config "modules") "paths").isEmpty)) =
        some ([("a", "old"), ("n", "7")], true) := by decide +kernel
  have hresolved : (resolve (.roomy 2) disk args).toOption.isSome = true := by decide +kernel
  cases hload : loadConfig (.roomy 2) disk (configFile (.ofText "d") args.config) with
  | error => simp [hload, Except.toOption] at hconfig
  | ok config =>
  cases hres : resolve (.roomy 2) disk args with
  | error => simp [hres, Except.toOption] at hresolved
  | ok o =>
  simp only [hload, Except.toOption, Option.map_some, Option.some.injEq, Prod.mk.injEq, List.isEmpty_iff] at hconfig
  obtain ⟨hgivenConfig, hpaths⟩ := hconfig
  obtain ⟨-, hok⟩ := presets_merged rfl hload (show args.defines = ["a=(x) #y=$z ", "b="].map some from rfl)
    (show args.modulePaths = ["more"].map some from rfl) (show _ = [].map Toml.Value.text from hpaths)
  obtain ⟨given, hgiven, hnames, hvalues, hmodulePaths, href⟩ := hok o hres
  obtain ⟨_, _, ha, hrest, rfl⟩ := List.forall₂_cons_left_iff.1 hgiven
  obtain ⟨_, _, hb, hnil, rfl⟩ := List.forall₂_cons_left_iff.1 hrest
  rw [List.forall₂_nil_left_iff] at hnil
  subst hnil
  have ha' : parseDefine "a=(x) #y=$z " = some ("a", "(x) #y=$z ") := by decide +kernel
  have hb' : parseDefine "b=" = some ("b", "") := by decide +kernel
  cases ha'.symm.trans (parseDefine_eq_some_iff.2 ha)
  cases hb'.symm.trans (parseDefine_eq_some_iff.2 hb)
  have hvalue : o.presets.get? "a" = some "(x) #y=$z " :=
    (hvalues _ _).2 (.inl ⟨[], [("b", "")], rfl, by decide⟩)
  have hchar : Text.isNameChar 'a' = true := by decide +kernel
  have hname : IsReferable "a" := ⟨by decide, by simpa using hchar, by decide, by decide⟩
  have hout := href "a" _ hvalue hname (by decide +kernel) ⟨"d", o.presets.entries, o.modulePaths, default, 2⟩ disk
    rfl Nat.one_lt_two
  have hsource : "#" ++ "a" = "#a" := by decide +kernel
  have hstrip : Text.strip "(x) #y=$z " = "(x) #y=$z" := by decide +kernel
  rw [hsource, hstrip] at hout
  rw [hgivenConfig] at hnames
  exact ⟨o, rfl, hnames.trans (by decide +kernel), hmodulePaths, hout⟩

/-- An integer of the config that has more digits than can be written keeps the options from being made,
though no definition is without its `=`. -/
theorem merge_refuses_long_integer :
    merge (.roomy 2) [("variables", .table [("x", .integer (10 ^ 4300))])] "a.write" .none =
      .error (.crash (.excess .longInteger)) := by
  decide +kernel

end CommandLine.Options

end Markup
