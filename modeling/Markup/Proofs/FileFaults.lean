/-
What keeps a file from being read or written.

The disk refuses, or the path has a NUL character in a name (`Disk.FileFault`), or the
bytes of the file are no text. Where a path is put together of texts, the NUL character comes of
one of them (`Path.hasNul_ofText_iff`, `Path.hasNul_join`). A module's file that is
there can be named, so only the first place where a module is looked for may not be
(`Document.loadFile_disk_cases`).
-/
import Markup.Document.Import

namespace Markup

namespace Path

/-! ## NUL characters -/

theorem hasNul_iff {path : Path} : path.hasNul = true ↔ ∃ name ∈ path.names, '\x00' ∈ name.toList := by
  simp [hasNul]

theorem mem_iff_mem_split {c : Char} (hc : c ≠ '/') (cs : List Char) : c ∈ cs ↔ ∃ part ∈ split cs, c ∈ part := by
  induction cs with
  | nil => simp [split]
  | cons first cs ih =>
    rw [List.mem_cons, ih]
    simp only [split]
    cases split cs with
    | nil => simp
    | cons part rest =>
      by_cases hf : first = '/'
      · simp [hf, hc]
      · simp [hf, or_assoc]

/-- Reading a path leaves out slashes and points only. -/
theorem hasNul_ofText_iff {text : String} : (ofText text).hasNul = true ↔ '\x00' ∈ text.toList := by
  rw [hasNul_iff, mem_iff_mem_split (by decide), ofText]
  constructor
  · rintro ⟨name, hm, hn⟩
    obtain ⟨part, hp, rfl⟩ := List.mem_map.1 (List.mem_filter.1 hm).1
    exact ⟨part, hp, by simpa using hn⟩
  · rintro ⟨part, hp, hn⟩
    refine ⟨.ofList part, List.mem_filter.2 ⟨List.mem_map_of_mem hp, ?_⟩, by simpa using hn⟩
    have hother : ∀ other : String, '\x00' ∉ other.toList → String.ofList part ≠ other := by
      rintro _ ho rfl
      exact ho (by simpa using hn)
    exact decide_eq_true ⟨hother "" (by decide), hother "." (by decide)⟩

theorem hasNul_join {path other : Path} (h : (path.join other).hasNul = true) :
    path.hasNul = true ∨ other.hasNul = true := by
  rw [join] at h
  split at h
  next =>
    obtain ⟨name, hm, hn⟩ := hasNul_iff.1 h
    rcases List.mem_append.1 hm with hm | hm
    · exact .inl (hasNul_iff.2 ⟨name, hm, hn⟩)
    · exact .inr (hasNul_iff.2 ⟨name, hm, hn⟩)
  next => exact .inr h

theorem hasNul_parent {path : Path} (h : path.parent.hasNul = true) : path.hasNul = true := by
  obtain ⟨name, hm, hn⟩ := hasNul_iff.1 h
  exact hasNul_iff.2 ⟨name, List.dropLast_subset _ hm, hn⟩

theorem mem_of_mem_intercalate {c : Char} (hc : c ≠ '/') {names : List String}
    (h : c ∈ ("/".intercalate names).toList) : ∃ name ∈ names, c ∈ name.toList := by
  induction names with
  | nil => simp at h
  | cons name rest ih =>
    cases rest with
    | nil => exact ⟨name, List.mem_cons_self, by simpa using h⟩
    | cons second rest =>
      rw [String.intercalate_cons_cons, String.toList_append, String.toList_append] at h
      rcases List.mem_append.1 h with h | h
      · rcases List.mem_append.1 h with h | h
        · exact ⟨name, List.mem_cons_self, h⟩
        · exact absurd (List.mem_singleton.1 h) hc
      · obtain ⟨other, hm, ho⟩ := ih h
        exact ⟨other, List.mem_cons_of_mem name hm, ho⟩

/-- Writing a path adds slashes and a point only. -/
theorem hasNul_of_mem_text {path : Path} (h : '\x00' ∈ path.text.toList) : path.hasNul = true := by
  rw [text] at h
  split at h
  next => exact absurd h (by decide)
  next =>
  rw [String.toList_append] at h
  rcases List.mem_append.1 h with h | h
  · have hroot : ∀ root : Root, '\x00' ∉ root.text.toList := by rintro (_ | _ | _) <;> decide
    exact absurd h (hroot path.root)
  · exact hasNul_iff.2 (mem_of_mem_intercalate (by decide) h)

end Path

namespace Disk

/-! ## Reading and writing -/

/-- Whether a path leads to a file whose bytes are no text. -/
def NotText (d : Disk) (path : Path) : Prop := ∃ bytes, d.readBytes path = .ok bytes ∧ String.fromUTF8? bytes = none

/-- What keeps the file that a path leads to from being read or written, whatever is in it. -/
inductive FileFault (path : Path) : Error → Prop where
  | refused (fault : Fault) : FileFault path (.refused fault path)
  | unnameable : path.hasNul = true → FileFault path .unnameable

variable {d : Disk} {path : Path} {e : Error}

theorem fileFault_of_locate (h : d.locate path = .error e) : FileFault path e := by
  rw [locate] at h
  split at h
  next hn =>
    cases h
    exact .unnameable hn
  next =>
  split at h
  next =>
    cases h
    exact .refused _
  next =>
  split at h
  next =>
    cases h
    exact .refused _
  next => cases h

theorem fileFault_of_find (h : d.find path = .error e) : FileFault path e := by
  rw [find] at h
  split at h
  next hl =>
    cases h
    exact fileFault_of_locate hl
  next =>
  split at h
  next =>
    cases h
    exact .refused _
  next => cases h

theorem fileFault_of_readBytes (h : d.readBytes path = .error e) : FileFault path e := by
  rw [readBytes] at h
  split at h
  next hl =>
    cases h
    exact fileFault_of_locate hl
  next =>
  split at h
  next =>
    cases h
    exact .refused _
  next =>
  split at h
  next =>
    cases h
    exact .refused _
  next =>
  split at h
  next =>
    cases h
    exact .refused _
  next => cases h

theorem readExactly_error_cases (h : d.readExactly path = .error e) :
    FileFault path e ∨ e = .undecodable ∧ d.NotText path := by
  rw [readExactly] at h
  split at h
  next hb =>
    cases h
    exact .inl (fileFault_of_readBytes hb)
  next bytes hb =>
  split at h
  next hd =>
    cases h
    exact .inr ⟨rfl, bytes, hb, hd⟩
  next => cases h

theorem readText_error_cases (h : d.readText path = .error e) :
    FileFault path e ∨ e = .undecodable ∧ d.NotText path := by
  rw [readText] at h
  split at h
  next he =>
    cases h
    exact readExactly_error_cases he
  next => cases h

theorem fileFault_of_locateToWrite (h : d.locateToWrite path = .error e) : FileFault path e := by
  rw [locateToWrite] at h
  split at h
  next hl =>
    cases h
    exact fileFault_of_locate hl
  next =>
  split at h
  next =>
    cases h
    exact .refused _
  next =>
    split at h
    next =>
      cases h
      exact .refused _
    next => cases h
  next =>
    split at h
    next =>
      cases h
      exact .refused _
    next => cases h

/-- When a file changed can be told, or that it is not there, unless it cannot be named. -/
theorem eq_unnameable_of_modified (h : d.modified? path = .error e) : e = .unnameable ∧ path.hasNul = true := by
  rw [modified?] at h
  split at h
  next => cases h
  next => cases h
  next hne hf =>
    cases h
    cases fileFault_of_find hf with
    | refused fault => exact absurd rfl (hne fault path)
    | unnameable hn => exact ⟨rfl, hn⟩

theorem readText_of_notText (h : d.NotText path) : d.readText path = .error .undecodable := by
  obtain ⟨bytes, hb, hd⟩ := h
  rw [readText, readExactly, hb]
  simp only [hd]

theorem exists_entry_of_isFile (h : d.isFile path = .ok true) :
    ∃ l bytes time, d.locate path = .ok l ∧ d.entry? l = some ⟨.file bytes, time⟩ := by
  rw [isFile, find] at h
  cases hl : d.locate path with
  | error e =>
    rw [hl] at h
    cases e with
    | refused fault =>
      simp only at h
      split at h <;> cases h
    | _ => cases h
  | ok l =>
    rw [hl] at h
    simp only at h
    split at h
    next bytes time hf =>
      split at hf
      next => cases hf
      next entry he =>
        cases hf
        exact ⟨l, bytes, time, rfl, he⟩
    next => cases h
    next => split at h <;> cases h
    next => cases h

theorem readBytes_error_of_isFile (h : d.isFile path = .ok true) (he : d.readBytes path = .error e) :
    e = .refused .denied path := by
  obtain ⟨l, bytes, time, hl, hentry⟩ := exists_entry_of_isFile h
  rw [readBytes, hl] at he
  simp only [hentry] at he
  split at he
  next => exact (Except.error.inj he).symm
  next => cases he

theorem readExactly_cases_of_isFile (h : d.isFile path = .ok true) (he : d.readExactly path = .error e) :
    (e = .refused .denied path ∧ d.readBytes path = .error (.refused .denied path)) ∨
      e = .undecodable ∧ d.NotText path := by
  rw [readExactly] at he
  split at he
  next f hb =>
    cases he
    obtain rfl := readBytes_error_of_isFile h hb
    exact .inl ⟨rfl, hb⟩
  next bytes hb =>
  split at he
  next hd =>
    cases he
    exact .inr ⟨rfl, bytes, hb, hd⟩
  next => cases he

theorem isFile_of_readBytes {bytes : ByteArray} (h : d.readBytes path = .ok bytes) : d.isFile path = .ok true := by
  rw [readBytes] at h
  split at h
  next => cases h
  next l hl =>
  split at h
  next => cases h
  next entry he =>
  split at h
  next => cases h
  next =>
  split at h
  next => cases h
  next hc =>
    obtain ⟨content, time⟩ := entry
    obtain rfl : content = _ := hc
    rw [isFile, find, hl]
    simp only [he]

theorem hasNul_of_isFile (h : d.isFile path = .ok true) : path.hasNul = false := by
  rw [isFile, find, locate] at h
  by_cases hn : path.hasNul = true
  · simp [hn] at h
  · simpa using hn

theorem firstFile?_error {paths : List Path} (h : d.firstFile? paths = .error e) :
    ∃ fault place, fault.leavesOpen = true ∧ e = .refused fault place := by
  induction paths with
  | nil => cases h
  | cons path rest ih =>
    rw [firstFile?] at h
    split at h
    next hp =>
      cases h
      exact isFile_error hp
    next => cases h
    next => exact ih h

theorem mem_of_firstFile? {paths : List Path} (h : d.firstFile? paths = .ok (some path)) :
    path ∈ paths ∧ d.isFile path = .ok true := by
  induction paths with
  | nil => cases h
  | cons first rest ih =>
    rw [firstFile?] at h
    split at h
    next => cases h
    next hp =>
      cases h
      exact ⟨List.mem_cons_self, hp⟩
    next =>
      obtain ⟨hm, hf⟩ := ih h
      exact ⟨List.mem_cons_of_mem first hm, hf⟩

end Disk

namespace Document

/-! ## Modules -/

variable {disk : Disk} {doc next : Document} {name : String}

/-- A module is read from one of the files it may be in: one that is there, or else the first. -/
theorem moduleFile_cases {path : Path} (h : doc.moduleFile disk name = .ok path) :
    path ∈ doc.moduleFiles name ∧
      (disk.isFile path = .ok true ∨ path = doc.directory.join (.ofText (name ++ ".write"))) := by
  rw [moduleFile] at h
  cases hf : disk.firstFile? (doc.moduleFiles name) with
  | error => rw [hf] at h; cases h
  | ok first =>
    rw [hf] at h
    cases h
    cases first with
    | none => exact ⟨List.mem_cons_self, .inr rfl⟩
    | some path =>
      obtain ⟨hm, hfile⟩ := Disk.mem_of_firstFile? hf
      exact ⟨hm, .inl hfile⟩

/-- The disk gives neither a module nor none where it does not tell if a file is there, where the
module's first place has a NUL character in its path, or where a file that it may be in is no text. -/
theorem loadFile_disk_cases {e : Disk.Error} (h : doc.loadFile disk name = (.error (.disk e), next)) :
    (∃ fault place, fault.leavesOpen = true ∧ e = .refused fault place) ∨
      e = .unnameable ∧ (doc.directory.join (.ofText (name ++ ".write"))).hasNul = true ∨
      e = .undecodable ∧ ∃ path ∈ doc.moduleFiles name, disk.NotText path := by
  rw [loadFile] at h
  split at h
  next e hf =>
    cases h
    rw [moduleFile] at hf
    cases hfirst : disk.firstFile? (doc.moduleFiles name) with
    | ok => rw [hfirst] at hf; cases hf
    | error =>
      rw [hfirst] at hf
      cases hf
      exact .inl (Disk.firstFile?_error hfirst)
  next path hf =>
  obtain ⟨hm, hplace⟩ := moduleFile_cases hf
  split at h
  next => cases h
  next e hne hr =>
    cases h
    rcases Disk.readText_error_cases hr with hfault | ⟨rfl, hd⟩
    · cases hfault with
      | refused fault => exact absurd rfl (hne fault path)
      | unnameable hn =>
        rcases hplace with hfile | rfl
        · rw [Disk.hasNul_of_isFile hfile] at hn
          cases hn
        · exact .inr (.inl ⟨rfl, hn⟩)
    · exact .inr (.inr ⟨rfl, path, hm, hd⟩)
  next =>
    rw [parseModule] at h
    split at h <;> cases h

end Document

end Markup
