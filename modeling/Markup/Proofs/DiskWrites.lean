/-
What writing changes on a disk.

A path leads through directories only, and a directory stays one whatever is
written. So a text that is written stands in the one file that its path leads to,
before and afterwards, and every other file is as it was; where the file is new, its
directory gets another time. A write that breaks off leaves less in that file, and
touches no other one, either (`written`).
-/
import Markup.Disk

namespace Markup.Disk

/-- The bytes of the file at a location, if there is one. -/
def fileAt? (d : Disk) (l : Location) : Option ByteArray :=
  match d.entry? l with
  | some ⟨.file bytes, _⟩ => some bytes
  | some ⟨.directory, _⟩ | none => none

/-- Whether a directory is at a location. -/
def IsDirectory (d : Disk) (l : Location) : Prop := ∃ time, d.entry? l = some ⟨.directory, time⟩

/-- The bytes of the file that a path leads to, whether it may be read or not. -/
def bytesAt? (d : Disk) (path : Path) : Option ByteArray :=
  match d.locate path with
  | .error _ => none
  | .ok l => d.fileAt? l

/-- Whether a path leads in another disk where it leads in this one: no directory is missing there, and the
same is permitted. -/
structure KeepsWays (d next : Disk) : Prop where
  isDirectory : ∀ l, d.IsDirectory l → next.IsDirectory l
  denies : next.denies = d.denies

/-! ## Entries -/

theorem isDirectory_of_names {l : Location} (h : l.names = []) (d : Disk) : d.IsDirectory l :=
  ⟨_, by rw [ entry?]; simp [h]; rfl⟩

theorem names_ne_nil {d : Disk} {l : Location} (h : ¬ d.IsDirectory l) : l.names ≠ [] :=
  fun hn => h (isDirectory_of_names hn d)

theorem lookup_filter_of_ne {α : Type} {l other : Location} (h : other ≠ l) (entries : List (Location × α)) :
    (entries.filter (·.1 ≠ l)).lookup other = entries.lookup other := by
  induction entries with
  | nil => rfl
  | cons entry rest ih =>
    obtain ⟨key, value⟩ := entry
    by_cases hk : key = l
    · subst hk
      rw [List.filter_cons_of_neg (by simp), ih, List.lookup_cons, beq_false_of_ne h]
    · rw [List.filter_cons_of_pos (by simpa using hk), List.lookup_cons, List.lookup_cons, ih]

theorem entry?_set_of_ne {l other : Location} (h : other ≠ l) (d : Disk) (entry : Entry) :
    Disk.entry? (d.set l entry) other = d.entry? other := by
  have hlookup : (d.set l entry).entries.lookup other = d.entries.lookup other := by
    rw [set, List.lookup_cons, beq_false_of_ne h]
    exact lookup_filter_of_ne h d.entries
  rw [ entry?, entry?, hlookup]

theorem entry?_set_self {l : Location} (h : l.names ≠ []) (d : Disk) (entry : Entry) :
    Disk.entry? (d.set l entry) l = some entry := by
  rw [ entry?, if_neg (by simpa using h), set, List.lookup_cons, beq_self_eq_true]

theorem isDirectory_set_self (d : Disk) (l : Location) (time : Int) : (d.set l ⟨.directory, time⟩).IsDirectory l := by
  by_cases h : l.names = []
  · exact isDirectory_of_names h _
  · exact ⟨time, entry?_set_self h d _⟩

/-! ## One change -/

section

variable {d : Disk} {l : Location}

theorem fileAt?_of_isDirectory (h : d.IsDirectory l) : d.fileAt? l = none := by
  obtain ⟨time, he⟩ := h
  rw [fileAt?, he]

theorem fileAt?_set_of_ne {other : Location} (h : other ≠ l) (d : Disk) (entry : Entry) :
    (d.set l entry).fileAt? other = d.fileAt? other := by
  rw [fileAt?, fileAt?, entry?_set_of_ne h]

theorem fileAt?_set_directory (h : d.IsDirectory l) (time : Int) (other : Location) :
    (d.set l ⟨.directory, time⟩).fileAt? other = d.fileAt? other := by
  by_cases he : other = l
  · subst he
    rw [fileAt?_of_isDirectory h, fileAt?_of_isDirectory (isDirectory_set_self d other time)]
  · exact fileAt?_set_of_ne he d _

theorem KeepsWays.trans {next last : Disk} (h : d.KeepsWays next) (k : next.KeepsWays last) : d.KeepsWays last :=
  ⟨fun l hl => k.isDirectory l (h.isDirectory l hl), k.denies.trans h.denies⟩

theorem keepsWays_set_directory (d : Disk) (l : Location) (time : Int) : d.KeepsWays (d.set l ⟨.directory, time⟩) := by
  refine ⟨?_, rfl⟩
  rintro other ⟨before, ho⟩
  by_cases he : other = l
  · exact he ▸ isDirectory_set_self d other time
  · exact ⟨before, by rw [ entry?_set_of_ne he, ho]⟩

theorem keepsWays_set (h : ¬ d.IsDirectory l) (entry : Entry) : d.KeepsWays (d.set l entry) := by
  refine ⟨?_, rfl⟩
  rintro other ⟨time, ho⟩
  have hne : other ≠ l := fun he => h (he ▸ ⟨time, ho⟩)
  exact ⟨time, by rw [ entry?_set_of_ne hne, ho]⟩

end

/-- Whether a disk differs from another in nothing but the bytes of one file, and in times. -/
structure Writes (d next : Disk) (l : Location) (bytes : ByteArray) : Prop where
  file : next.fileAt? l = some bytes
  others : ∀ other, other ≠ l → next.fileAt? other = d.fileAt? other
  ways : d.KeepsWays next

/-- A file is put where no directory is; a new one is put into a directory. -/
theorem writes_put {d : Disk} {l : Location} (hl : ¬ d.IsDirectory l)
    (hp : d.entry? l = none → d.IsDirectory l.parent) (bytes : ByteArray) :
    d.Writes (d.put l (.file bytes)) l bytes := by
  have hn : l.names ≠ [] := names_ne_nil hl
  have hset : d.Writes (d.tick.set l ⟨.file bytes, d.tick.now⟩) l bytes := {
    file := by rw [fileAt?, entry?_set_self hn]
    others := fun other ho => fileAt?_set_of_ne ho d.tick _
    ways := ⟨(keepsWays_set (d := d.tick) hl _).isDirectory, rfl⟩ }
  simp only [put]
  split
  next hnew =>
    -- The directory is there before the file is, and it is not where the file is.
    have hdir := hset.ways.isDirectory _ (hp (Option.isNone_iff_eq_none.1 hnew))
    exact {
      file := (fileAt?_set_directory hdir _ l).trans hset.file
      others := fun other ho => (fileAt?_set_directory hdir _ other).trans (hset.others other ho)
      ways := hset.ways.trans (keepsWays_set_directory _ _ _) }
  next => exact hset

/-! ## Where a path leads -/

/-- Whether the locations on the way to one, and it itself, are directories. -/
def Open (d : Disk) (l : Location) : Prop := ∀ names, names <+: l.names → d.IsDirectory ⟨l.base, names⟩

section

variable {d : Disk} {l : Location}

theorem Open.isDirectory (h : d.Open l) : d.IsDirectory l := h l.names (List.prefix_refl _)

theorem open_base (d : Disk) (base : Base) : d.Open ⟨base, []⟩ :=
  fun _ hp => isDirectory_of_names (List.prefix_nil.1 hp) d

theorem Open.parent (h : d.Open l) : d.Open l.parent := by
  obtain ⟨base, names⟩ := l
  cases names with
  | nil => cases base <;> exact open_base d _
  | cons name rest => exact fun names hp => h names (hp.trans (List.dropLast_prefix _))

theorem Open.child (h : d.Open l) {name : String} (hd : d.IsDirectory (l.child name)) : d.Open (l.child name) := by
  intro names hp
  rcases List.prefix_concat_iff.1 hp with rfl | hp
  · exact hd
  · exact h names hp

theorem parent_child (l : Location) (name : String) : (l.child name).parent = l := by
  obtain ⟨base, names⟩ := l
  cases names with
  | nil => rfl
  | cons first rest => exact congrArg (Location.mk base) List.dropLast_concat

/-- Names lead from an open directory to another, or to a name in one. -/
theorem follow_cases {start : Location} (hs : d.Open start) {names : List String}
    (h : d.follow start names = .ok l) : d.Open l ∨ ∃ dir name, d.Open dir ∧ l = dir.child name := by
  induction names generalizing start with
  | nil =>
    cases h
    exact .inl hs
  | cons name rest ih =>
    simp only [follow] at h
    split at h
    next => cases h
    next =>
    split at h
    next => cases h
    next =>
    by_cases hup : name = ".."
    · simp only [hup, if_true] at h
      split at h
      next =>
        cases h
        exact .inl hs.parent
      next =>
      split at h
      next => cases h
      next => cases h
      next => exact ih hs.parent h
    · simp only [hup, if_false] at h
      split at h
      next =>
        cases h
        exact .inr ⟨start, name, hs, rfl⟩
      next =>
      split at h
      next => cases h
      next => cases h
      next time hd => exact ih (hs.child ⟨_, hd⟩) h

/-- Names lead where they did, as long as the directories on the way are there and may be searched. -/
theorem follow_of_keepsWays {next : Disk} (hk : d.KeepsWays next) {start : Location} {names : List String}
    (h : d.follow start names = .ok l) : next.follow start names = .ok l := by
  induction names generalizing start with
  | nil => exact h
  | cons name rest ih =>
    simp only [follow] at h ⊢
    rw [hk.denies]
    split at h
    next => cases h
    next hsearch =>
    rw [if_neg hsearch]
    split at h
    next => cases h
    next hlong =>
    rw [if_neg hlong]
    split at h
    next he => rw [if_pos he, h]
    next he =>
    rw [if_neg he]
    split at h
    next => cases h
    next => cases h
    next hd =>
      obtain ⟨time, hd⟩ := hk.isDirectory _ ⟨_, hd⟩
      rw [hd]
      exact ih h

variable {path : Path}

theorem follow_of_locate (h : d.locate path = .ok l) :
    d.follow ⟨if path.root = .none then .above 0 else .root, []⟩ path.names = .ok l := by
  rw [locate] at h
  split at h
  next => cases h
  next =>
  split at h
  next => cases h
  next =>
  split at h
  next => cases h
  next hf => rw [hf, ← Except.ok.inj h]

theorem locate_of_keepsWays {next : Disk} (hk : d.KeepsWays next) (h : d.locate path = .ok l) :
    next.locate path = .ok l := by
  have hfollow := follow_of_keepsWays hk (follow_of_locate h)
  rw [locate] at h ⊢
  split at h
  next => cases h
  next hnul =>
  rw [if_neg hnul]
  split at h
  next => cases h
  next hlong => rw [if_neg hlong, hfollow]

end

/-! ## Writing a text -/

theorem fromUTF8?_toUTF8 (text : String) : String.fromUTF8? text.toUTF8 = some text := by
  rw [String.fromUTF8?, String.toUTF8_eq_toByteArray, dif_pos text.isValidUTF8]
  rfl

/-- How a text is written to the file that a path leads to: the file is not opened, and the disk stays as it
was; or the file has all of it, or what has been written of it when the write breaks off. -/
inductive Written (d : Disk) (unencodable : Char → Bool) (path : Path) (text : String) :
    Except WriteError Unit → Disk → Prop where
  | unopened {e} : d.locateToWrite path = .error e → Written d unencodable path text (.error (.unopened e)) d
  | unencodable {l next} : text.toList.any unencodable = true → d.locate path = .ok l → d.Writes next l .empty →
      Written d unencodable path text (.error .unencodable) next
  | broken {l b next} : d.breaks l text.toUTF8 = some b → d.locate path = .ok l →
      d.Writes next l (text.toUTF8.extract 0 b.written) →
      Written d unencodable path text (.error (.broken b.fault)) next
  | whole {l next} : d.locate path = .ok l → d.Writes next l text.toUTF8 →
      Written d unencodable path text (.ok ()) next

section

variable {d next : Disk} {path : Path} {l : Location}

theorem readExactly_of_fileAt? {text : String} (hl : d.locate path = .ok l) (hr : d.denies .read l = false)
    (hf : d.fileAt? l = some text.toUTF8) : d.readExactly path = .ok text := by
  have hbytes : d.readBytes path = .ok text.toUTF8 := by
    rw [fileAt?] at hf
    rw [readBytes, hl]
    simp only
    split at hf
    next bytes _ he =>
      rw [he, ← Option.some.inj hf]
      simp only [hr, Bool.false_eq_true, if_false]
    next => cases hf
    next => cases hf
  rw [readExactly, hbytes]
  simp only [fromUTF8?_toUTF8]

theorem bytesAt?_of_writes {bytes : ByteArray} (hl : d.locate path = .ok l) (hw : d.Writes next l bytes) :
    next.bytesAt? path = some bytes := by
  rw [bytesAt?, locate_of_keepsWays hw.ways hl]
  exact hw.file

theorem writes_of_locateToWrite (h : d.locateToWrite path = .ok l) :
    d.locate path = .ok l ∧ ∀ bytes, d.Writes (d.put l (.file bytes)) l bytes := by
  rw [locateToWrite] at h
  split at h
  next => cases h
  next other hl =>
  obtain ⟨hdir, rfl⟩ : ¬ d.IsDirectory other ∧ l = other := by
    simp only [IsDirectory]
    split at h
    next => cases h
    next he =>
      split at h
      next => cases h
      next => exact ⟨by simp [he], (Except.ok.inj h).symm⟩
    next he =>
      split at h
      next => cases h
      next => exact ⟨by simp [he], (Except.ok.inj h).symm⟩
  refine ⟨hl, writes_put hdir fun _ => ?_⟩
  rcases follow_cases (open_base d _) (follow_of_locate hl) with ho | ⟨dir, name, ho, rfl⟩
  · exact absurd ho.isDirectory hdir
  · rw [parent_child]
    exact ho.isDirectory

theorem written (d : Disk) (unencodable : Char → Bool) (path : Path) (text : String) :
    d.Written unencodable path text (d.writeText unencodable path text).1 (d.writeText unencodable path text).2 := by
  rw [writeText]
  cases ho : d.locateToWrite path with
  | error e => exact .unopened ho
  | ok l =>
  obtain ⟨hl, hwrites⟩ := writes_of_locateToWrite ho
  simp only
  split
  next hu => exact .unencodable hu hl (hwrites _)
  next =>
  split
  next b hb => exact .broken hb hl (hwrites _)
  next => exact .whole hl (hwrites _)

end

end Markup.Disk
