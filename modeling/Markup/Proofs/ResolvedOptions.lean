/-
How options come of a config and arguments, and what ends a run before it has any.

The parts of options are read one after another (`merge_ok_iff`), and what is
wrong is what is wrong with one of them (`merge_error_cases`). A run ends at once
only where the config's bytes, its values or a flag without its value leave no
other way, or the disk neither gives the config nor says that it is not there;
`Unresolved` lists how.
-/
import Markup.CommandLine.Options
import Markup.Proofs.FileFaults

namespace Markup

section

variable {ε α β : Type}

theorem except_bind_ok_iff {x : Except ε α} {f : α → Except ε β} {b : β} :
    x >>= f = .ok b ↔ ∃ a, x = .ok a ∧ f a = .ok b := by
  cases x with
  | error e => simp [bind, Except.bind]
  | ok a => simp [bind, Except.bind]

theorem except_bind_error_iff {x : Except ε α} {f : α → Except ε β} {e : ε} :
    x >>= f = .error e ↔ x = .error e ∨ ∃ a, x = .ok a ∧ f a = .error e := by
  cases x with
  | error e => simp [bind, Except.bind]
  | ok a => simp [bind, Except.bind]

theorem exists_mem_of_mapM_error {f : α → Except ε β} {as : List α} {e : ε} (h : as.mapM f = .error e) :
    ∃ a ∈ as, f a = .error e := by
  induction as with
  | nil => cases h
  | cons a rest ih =>
    rw [List.mapM_cons, except_bind_error_iff] at h
    rcases h with h | ⟨b, _, h⟩
    · exact ⟨a, List.mem_cons_self, h⟩
    rw [except_bind_error_iff] at h
    rcases h with h | ⟨bs, _, h⟩
    · obtain ⟨other, hm, ho⟩ := ih h
      exact ⟨other, List.mem_cons_of_mem a hm, ho⟩
    · cases h

end

namespace CommandLine.Options

/-! ## Joining -/

/-- Options are joined of presets, modules and module paths, each read by itself. -/
theorem merge_ok_iff {host : Host} {config : Toml.Entries} {input : String} {args : Arguments} {o : Options} :
    merge host config input args = .ok o ↔ ∃ table presets modules configPaths givenPaths,
      configPresets host config = .ok table ∧ enterDefines table args.defines = .ok presets ∧
      (items (sectionOf config "modules") "use").mapM (writeValue host.moduleIsFull) = .ok modules ∧
      (items (sectionOf config "modules") "paths").mapM configPath = .ok configPaths ∧
      args.modulePaths.mapM givenPath = .ok givenPaths ∧
      o = ⟨.ofText input, outputFile args.output, presets, modules, configPaths ++ givenPaths, args.watch,
        args.debug⟩ := by
  simp only [merge, except_bind_ok_iff, pure, Except.pure, Except.ok.injEq]
  constructor
  · rintro ⟨table, ht, presets, hp, modules, hm, configPaths, hc, givenPaths, hg, rfl⟩
    exact ⟨table, presets, modules, configPaths, givenPaths, ht, hp, hm, hc, hg, rfl⟩
  · rintro ⟨table, presets, modules, configPaths, givenPaths, ht, hp, hm, hc, hg, rfl⟩
    exact ⟨table, ht, presets, hp, modules, hm, configPaths, hc, givenPaths, hg, rfl⟩

theorem merge_error_cases {host : Host} {config : Toml.Entries} {input : String} {args : Arguments} {e : OptionsError}
    (h : merge host config input args = .error e) :
    configPresets host config = .error e ∨ (∃ table, enterDefines table args.defines = .error e) ∨
      (items (sectionOf config "modules") "use").mapM (writeValue host.moduleIsFull) = .error e ∨
      (items (sectionOf config "modules") "paths").mapM configPath = .error e ∨
      args.modulePaths.mapM givenPath = .error e := by
  simp only [merge, except_bind_error_iff] at h
  rcases h with h | ⟨table, _, h | ⟨_, _, h | ⟨_, _, h | ⟨_, _, h | ⟨_, _, h⟩⟩⟩⟩⟩
  · exact .inl h
  · exact .inr (.inl ⟨table, h⟩)
  · exact .inr (.inr (.inl h))
  · exact .inr (.inr (.inr (.inl h)))
  · exact .inr (.inr (.inr (.inr h)))
  · cases h

theorem enterDefines_error {table : Table String} {defines : List (Option String)} {e : OptionsError}
    (h : enterDefines table defines = .error e) : ∃ text, e = .define text := by
  induction defines generalizing table with
  | nil => cases h
  | cons given rest ih =>
    rw [enterDefines] at h
    split at h
    next =>
      cases h
      exact ⟨given, rfl⟩
    next => exact ih h

theorem writeValue_error {isFull : Nat → Toml.Value → Bool} {value : Toml.Value} {e : OptionsError}
    (h : writeValue isFull value = .error e) :
    ∃ excess, e = .crash (.excess excess) ∧ value.write isFull = .error excess := by
  rw [writeValue] at h
  split at h
  next excess hw =>
    cases h
    exact ⟨excess, rfl, hw⟩
  next => cases h

theorem configPresets_error {host : Host} {config : Toml.Entries} {e : OptionsError}
    (h : configPresets host config = .error e) :
    ∃ entry ∈ sectionOf config "variables", writeValue host.variableIsFull entry.2 = .error e := by
  rw [configPresets, except_bind_error_iff] at h
  rcases h with h | ⟨_, _, h⟩
  · obtain ⟨entry, hm, he⟩ := exists_mem_of_mapM_error h
    rw [except_bind_error_iff] at he
    rcases he with he | ⟨_, _, he⟩
    · exact ⟨entry, hm, he⟩
    · cases he
  · cases h

/-! ## The options of arguments -/

theorem resolve_eq (host : Host) (disk : Disk) {args : Arguments} {input : String} (hi : args.input = some input) :
    resolve host disk args = loadConfig host disk (configFile (.ofText input) args.config) >>= fun config =>
      merge host config input args := by
  rw [resolve, hi]
  simp only
  cases loadConfig host disk (configFile (.ofText input) args.config) <;> rfl

theorem exists_merge_of_resolve {host : Host} {disk : Disk} {args : Arguments} {o : Options}
    (h : resolve host disk args = .ok o) : ∃ input config, args.input = some input ∧
      loadConfig host disk (configFile (.ofText input) args.config) = .ok config ∧
      merge host config input args = .ok o := by
  cases hi : args.input with
  | none => rw [resolve, hi] at h; cases h
  | some input =>
    rw [resolve_eq host disk hi, except_bind_ok_iff] at h
    obtain ⟨config, hc, hm⟩ := h
    exact ⟨input, config, rfl, hc, hm⟩

theorem watch_of_resolve {host : Host} {disk : Disk} {args : Arguments} {o : Options}
    (h : resolve host disk args = .ok o) : o.watch = args.watch := by
  obtain ⟨input, config, -, -, hm⟩ := exists_merge_of_resolve h
  obtain ⟨_, _, _, _, _, -, -, -, -, -, rfl⟩ := merge_ok_iff.1 hm
  rfl

/-- Why a run ends at once and has no options: the disk does not tell if the config is a file, the file
must not be read, its bytes are no text, the text or a value that has to be written goes past a limit, or a
module path is missing. -/
inductive Unresolved (host : Host) (disk : Disk) (args : Arguments) (path : Path) : Crash → Prop where
  | untold {fault place} : disk.isFile path = .error (.refused fault place) → fault.leavesOpen = true →
      Unresolved host disk args path (.disk (.refused fault place))
  | denied : disk.isFile path = .ok true → disk.readBytes path = .error (.refused .denied path) →
      Unresolved host disk args path (.disk (.refused .denied path))
  | notText {bytes} : disk.readBytes path = .ok bytes → String.fromUTF8? bytes = none →
      Unresolved host disk args path (.disk .undecodable)
  | excess {text e} : disk.readExactly path = .ok text → Toml.read host.configIsFull text = .error (.excess e) →
      Unresolved host disk args path (.excess e)
  | variable {config entry e} : loadConfig host disk path = .ok config → entry ∈ sectionOf config "variables" →
      entry.2.write host.variableIsFull = .error e → Unresolved host disk args path (.excess e)
  | moduleName {config value e} : loadConfig host disk path = .ok config →
      value ∈ items (sectionOf config "modules") "use" → value.write host.moduleIsFull = .error e →
      Unresolved host disk args path (.excess e)
  | modulePath {config value} : loadConfig host disk path = .ok config →
      value ∈ items (sectionOf config "modules") "paths" → (∀ text, value ≠ .text text) →
      Unresolved host disk args path .noPath
  | noValue : none ∈ args.modulePaths → Unresolved host disk args path .noPath

theorem Unresolved.of_loadConfig {host : Host} {disk : Disk} {args : Arguments} {path : Path} {cause : Crash}
    (h : loadConfig host disk path = .error (.crash cause)) : Unresolved host disk args path cause := by
  rw [loadConfig] at h
  split at h
  next e hf =>
    cases h
    obtain ⟨fault, place, ho, rfl⟩ := Disk.isFile_error hf
    exact .untold hf ho
  next => cases h
  next hf =>
  split at h
  next e hr =>
    cases h
    rcases Disk.readExactly_cases_of_isFile hf hr with ⟨rfl, hb⟩ | ⟨rfl, bytes, hb, hd⟩
    · exact .denied hf hb
    · exact .notText hb hd
  next text hr =>
    rw [readConfig] at h
    split at h
    next => cases h
    next e he =>
      cases h
      exact .excess hr he
    next => cases h

theorem Unresolved.of_merge {host : Host} {disk : Disk} {args : Arguments} {path : Path} {config : Toml.Entries}
    {input : String} {cause : Crash} (hc : loadConfig host disk path = .ok config)
    (h : merge host config input args = .error (.crash cause)) : Unresolved host disk args path cause := by
  rcases merge_error_cases h with h | ⟨table, h⟩ | h | h | h
  · obtain ⟨entry, hm, he⟩ := configPresets_error h
    obtain ⟨e, hcause, hw⟩ := writeValue_error he
    cases hcause
    exact .variable hc hm hw
  · obtain ⟨text, hd⟩ := enterDefines_error h
    cases hd
  · obtain ⟨value, hm, he⟩ := exists_mem_of_mapM_error h
    obtain ⟨e, hcause, hw⟩ := writeValue_error he
    cases hcause
    exact .moduleName hc hm hw
  · obtain ⟨value, hm, he⟩ := exists_mem_of_mapM_error h
    cases value with
    | text => cases he
    | boolean | integer | float | date | time | dateTime | array | table =>
      cases he
      exact .modulePath hc hm nofun
  · obtain ⟨given, hm, he⟩ := exists_mem_of_mapM_error h
    cases given with
    | none =>
      cases he
      exact .noValue hm
    | some => cases he

theorem unresolved_of_resolve {host : Host} {disk : Disk} {args : Arguments} {input : String} {cause : Crash}
    (hi : args.input = some input) (h : resolve host disk args = .error (.crash cause)) :
    Unresolved host disk args (configFile (.ofText input) args.config) cause := by
  rw [resolve_eq host disk hi, except_bind_error_iff] at h
  rcases h with h | ⟨config, hc, hm⟩
  · exact .of_loadConfig h
  · exact .of_merge hc hm

end CommandLine.Options

end Markup
