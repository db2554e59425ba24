/-
An attempt: the input is expanded, and its output handed over.

A run of the command makes one attempt, and a look of a watch makes the same one
(`attempt`); they differ in what they say of it. An output is printed, or written to
one file and not printed (`handed`). Nothing is handed over before all of the input
has been expanded. So whatever goes wrong before that, no file has changed and nothing
has been printed but the help that was asked for. What goes wrong later breaks the
output off: a file that is written has been emptied by then, so it has lost what it
held (`run_all_or_nothing`).
-/
import Mathlib.Data.List.Forall2
import Markup.CommandLine.Watch
import Markup.Proofs.DiskWrites
import Markup.Proofs.ResolvedOptions

namespace Markup.CommandLine

open Watch

/-! ## One attempt -/

/-- How an attempt ends, as a run tells it and as a watch does, behind an outline. -/
inductive Attempt (host : Host) (o : Options) (disk : Disk) (now : BuiltIn.Moment) (outline : String) :
    Outcome → Except Crash Effect → Prop where
  | delivered {text stdout next} : (compileFile host o disk now).2 = .ok text →
      emit host o disk text = ⟨stdout, next, .ok ()⟩ →
      Attempt host o disk now outline (.finished 0 ⟨stdout, outline, next⟩)
        (.ok ⟨stdout, outline ++ "Expanded " ++ o.input.text ++ "\n", next⟩)
  | wrong {e source} : (compileFile host o disk now).2 = .error (.text e source) →
      Attempt host o disk now outline
        (.finished 1 ⟨"", outline ++ renderError e source o.input.text ++ "\n", disk⟩)
        (.ok ⟨"", outline ++ renderError e source o.input.text ++ "\n", disk⟩)
  | unread {fault path} : (compileFile host o disk now).2 = .error (.refused fault path) →
      Attempt host o disk now outline
        (.finished 1 ⟨"", outline ++ "error: could not read " ++ o.input.text ++ ": " ++ fault.text ++ "\n", disk⟩)
        (.ok ⟨"", outline ++ faultText fault (some path), disk⟩)
  | unopened {text stdout next fault path} : (compileFile host o disk now).2 = .ok text →
      emit host o disk text = ⟨stdout, next, .error (.unopened (.refused fault path))⟩ →
      Attempt host o disk now outline
        (.finished 1 ⟨stdout,
          outline ++ "error: could not write " ++ o.outputName ++ ": " ++ fault.text ++ "\n", next⟩)
        (.ok ⟨stdout, outline ++ faultText fault (some path), next⟩)
  | broken {text stdout next fault} : (compileFile host o disk now).2 = .ok text →
      emit host o disk text = ⟨stdout, next, .error (.broken fault)⟩ →
      Attempt host o disk now outline
        (.finished 1 ⟨stdout,
          outline ++ "error: could not write " ++ o.outputName ++ ": " ++ fault.text ++ "\n", next⟩)
        (.ok ⟨stdout, outline ++ faultText fault none, next⟩)
  | uncompiled {cause} : (compileFile host o disk now).2 = .error (.crash cause) →
      Attempt host o disk now outline (.crashed cause ⟨"", outline, disk⟩) (.error cause)
  | unnamed {text stdout next e} : (compileFile host o disk now).2 = .ok text →
      emit host o disk text = ⟨stdout, next, .error (.unopened e)⟩ → (∀ fault path, e ≠ .refused fault path) →
      Attempt host o disk now outline (.crashed (.disk e) ⟨stdout, outline, next⟩) (.error (.disk e))
  | unencodable {text stdout next} : (compileFile host o disk now).2 = .ok text →
      emit host o disk text = ⟨stdout, next, .error .unencodable⟩ →
      Attempt host o disk now outline (.crashed .unencodable ⟨stdout, outline, next⟩) (.error .unencodable)

/-- A run and a look make the same attempt. -/
theorem attempt (host : Host) (o : Options) (disk : Disk) (now : BuiltIn.Moment) :
    Attempt host o disk now (compileFile host o disk now).1 (runOnce host o disk now) (refresh host o disk now) := by
  simp only [runOnce, refresh]
  cases hc : (compileFile host o disk now).2 with
  | error e =>
    cases e with
    | crash cause => exact .uncompiled hc
    | refused fault path => exact .unread hc
    | text e source => exact .wrong hc
  | ok text =>
    simp only
    cases hgiven : emit host o disk text with
    | mk stdout next result =>
    cases result with
    | ok => exact .delivered hc hgiven
    | error e =>
      cases e with
      | unopened e =>
        cases e with
        | refused fault path => exact .unopened hc hgiven
        | unnameable | undecodable => exact .unnamed hc hgiven fun _ _ hr => by cases hr
      | broken fault => exact .broken hc hgiven
      | unencodable => exact .unencodable hc hgiven

section

variable {host : Host} {o : Options} {disk : Disk} {now : BuiltIn.Moment}

theorem attempt_of_runOnce {outcome : Outcome} (h : runOnce host o disk now = outcome) :
    ∃ told, Attempt host o disk now (compileFile host o disk now).1 outcome told :=
  ⟨_, h ▸ attempt host o disk now⟩

theorem attempt_of_refresh {told : Except Crash Effect} (h : refresh host o disk now = told) :
    ∃ outcome, runOnce host o disk now = outcome ∧
      Attempt host o disk now (compileFile host o disk now).1 outcome told :=
  ⟨_, rfl, h ▸ attempt host o disk now⟩

end

/-! ## Handing over -/

/-- How an output is handed over: printed, and the disk stays as it was; or written to the output file. -/
inductive Handed (host : Host) (o : Options) (disk : Disk) (text : String) : Handover → Prop where
  | printed : o.output = none → text.toList.any host.unprintable = false → host.breaks text = none →
      Handed host o disk text ⟨text, disk, .ok ()⟩
  | unprintable : o.output = none → text.toList.any host.unprintable = true →
      Handed host o disk text ⟨"", disk, .error .unencodable⟩
  | printedFront {b} : o.output = none → host.breaks text = some b →
      Handed host o disk text ⟨.ofList (text.toList.take b.written), disk, .error (.broken b.fault)⟩
  | written {path result next} : o.output = some path → disk.Written host.unencodable path text result next →
      Handed host o disk text ⟨"", next, result⟩

theorem handed (host : Host) (o : Options) (disk : Disk) (text : String) :
    Handed host o disk text (emit host o disk text) := by
  rw [emit]
  split
  next ho =>
    rw [Host.print]
    by_cases hu : text.toList.any host.unprintable = true
    · rw [if_pos hu]
      exact .unprintable ho hu
    · rw [if_neg hu]
      cases hb : host.breaks text with
      | none => exact .printed ho (by simpa using hu) hb
      | some b => exact .printedFront ho hb
  next path ho => exact .written ho (disk.written host.unencodable path text)

/-- An output that has been handed over as a whole: it is printed, and the disk stays as it was; or it
stands in the output file, nothing is printed, and no other file changes. -/
inductive Delivered (o : Options) (disk : Disk) (text : String) : Effect → Prop where
  | printed {stderr} : o.output = none → Delivered o disk text ⟨text, stderr, disk⟩
  | written {path l stderr next} : o.output = some path → disk.locate path = .ok l →
      disk.Writes next l text.toUTF8 → next.bytesAt? path = some text.toUTF8 →
      Delivered o disk text ⟨"", stderr, next⟩

/-- An output that breaks off: the front of it is printed, and the disk stays as it was; or the output file
has the front of it, or nothing if it has a character that no file can hold, nothing is printed, and no other
file changes. -/
inductive BrokenOff (host : Host) (o : Options) (disk : Disk) (text : String) : Effect → Prop where
  | printed {b stderr} : o.output = none → host.breaks text = some b →
      BrokenOff host o disk text ⟨.ofList (text.toList.take b.written), stderr, disk⟩
  | written {path l b stderr next} : o.output = some path → disk.locate path = .ok l →
      disk.breaks l text.toUTF8 = some b → disk.Writes next l (text.toUTF8.extract 0 b.written) →
      next.bytesAt? path = some (text.toUTF8.extract 0 b.written) → BrokenOff host o disk text ⟨"", stderr, next⟩
  | emptied {path l stderr next} : o.output = some path → disk.locate path = .ok l →
      text.toList.any host.unencodable = true → disk.Writes next l .empty →
      next.bytesAt? path = some .empty → BrokenOff host o disk text ⟨"", stderr, next⟩

section

variable {host : Host} {o : Options} {disk next : Disk} {text stdout : String}

theorem delivered_of_emit (h : emit host o disk text = ⟨stdout, next, .ok ()⟩) (stderr : String) :
    Delivered o disk text ⟨stdout, stderr, next⟩ := by
  have hgiven := handed host o disk text
  rw [h] at hgiven
  cases hgiven with
  | printed ho => exact .printed ho
  | written ho hwritten =>
    cases hwritten with
    | whole hl hw => exact .written ho hl hw (Disk.bytesAt?_of_writes hl hw)

/-- An output that is not handed over as a whole has broken off, or has not been begun. -/
theorem brokenOff_of_emit {e : Disk.WriteError} (h : emit host o disk text = ⟨stdout, next, .error e⟩)
    (stderr : String) : next = disk ∧ stdout = "" ∨ BrokenOff host o disk text ⟨stdout, stderr, next⟩ := by
  have hgiven := handed host o disk text
  rw [h] at hgiven
  cases hgiven with
  | unprintable => exact .inl ⟨rfl, rfl⟩
  | printedFront ho hb => exact .inr (.printed ho hb)
  | written ho hwritten =>
    cases hwritten with
    | unopened => exact .inl ⟨rfl, rfl⟩
    | unencodable hu hl hw => exact .inr (.emptied ho hl hu hw (Disk.bytesAt?_of_writes hl hw))
    | broken hb hl hw => exact .inr (.written ho hl hb hw (Disk.bytesAt?_of_writes hl hw))

end

/-- A single run hands its output over, or it leaves the disk as it was and prints none, or its output
breaks off. -/
theorem runOnce_cases (host : Host) (o : Options) (disk : Disk) (now : BuiltIn.Moment) :
    (∃ text effect, runOnce host o disk now = .finished 0 effect ∧ (compileFile host o disk now).2 = .ok text ∧
        Delivered o disk text effect) ∨
      ∃ effect, (runOnce host o disk now = .finished 1 effect ∨
          ∃ cause, runOnce host o disk now = .crashed cause effect) ∧
        (effect.disk = disk ∧ effect.stdout = "" ∨
          ∃ text, (compileFile host o disk now).2 = .ok text ∧ BrokenOff host o disk text effect) := by
  generalize hone : runOnce host o disk now = outcome
  obtain ⟨told, hattempt⟩ := attempt_of_runOnce hone
  cases hattempt with
  | delivered hc he => exact .inl ⟨_, _, rfl, hc, delivered_of_emit he _⟩
  | wrong | unread => exact .inr ⟨_, .inl rfl, .inl ⟨rfl, rfl⟩⟩
  | unopened hc he | broken hc he =>
    exact .inr ⟨_, .inl rfl, (brokenOff_of_emit he _).imp_right fun hb => ⟨_, hc, hb⟩⟩
  | uncompiled => exact .inr ⟨_, .inr ⟨_, rfl⟩, .inl ⟨rfl, rfl⟩⟩
  | unnamed hc he _ | unencodable hc he =>
    exact .inr ⟨_, .inr ⟨_, rfl⟩, (brokenOff_of_emit he _).imp_right fun hb => ⟨_, hc, hb⟩⟩

/-! ## A run -/

/-- Whether a command line asks for help or for the version. -/
def AsksForHelp (words : List String) : Prop :=
  ∃ args, Arguments.ofWords words = .ok args ∧ (args.help = true ∨ args.version = true)

/-- Whether a command line stands for options, and their input has an output. -/
def Compiles (host : Host) (words : List String) (disk : Disk) (now : BuiltIn.Moment) (o : Options)
    (text : String) : Prop :=
  ∃ args, Arguments.ofWords words = .ok args ∧ Options.resolve host disk args = .ok o ∧
    (compileFile host o disk now).2 = .ok text

/-- A run that is not to watch ends with 0 exactly where it hands over the output of its whole input, as
it has been asked to: all of it has been printed, and no file has changed, or all of it is in the output
file, nothing has been printed, and no other file has changed. If it ends in any other way, also at once,
the disk is as it was, and nothing has been printed unless help was asked for; or there was an output, and
it broke off. -/
theorem run_all_or_nothing (host : Host) (words : List String) (disk : Disk) (now : BuiltIn.Moment)
    (hw : ∀ args, Arguments.ofWords words = .ok args → args.watch = false) :
    match run host words disk now with
    | .finished 0 effect => ∃ o text, Compiles host words disk now o text ∧ Delivered o disk text effect
    | .finished (_ + 1) effect => effect.disk = disk ∧ (effect.stdout = "" ∨ AsksForHelp words) ∨
        ∃ o text, Compiles host words disk now o text ∧ BrokenOff host o disk text effect
    | .crashed _ effect => effect.disk = disk ∧ effect.stdout = "" ∨
        ∃ o text, Compiles host words disk now o text ∧ BrokenOff host o disk text effect
    | .watching _ => False := by
  rw [run]
  cases ha : Arguments.ofWords words with
  | error e => exact .inl ⟨rfl, .inl rfl⟩
  | ok args =>
  simp only [runArguments]
  by_cases hh : args.help = true
  · rw [if_pos hh]
    exact .inl ⟨rfl, .inr ⟨args, ha, .inl hh⟩⟩
  rw [if_neg hh]
  by_cases hv : args.version = true
  · rw [if_pos hv]
    exact .inl ⟨rfl, .inr ⟨args, ha, .inr hv⟩⟩
  rw [if_neg hv]
  by_cases hi : args.input.isNone = true
  · rw [if_pos hi]
    exact .inl ⟨rfl, .inl rfl⟩
  rw [if_neg hi]
  cases hr : Options.resolve host disk args with
  | error e => cases e <;> exact .inl ⟨rfl, by simp⟩
  | ok o =>
  have hwatch : o.watch = false := (Options.watch_of_resolve hr).trans (hw args ha)
  simp only [hwatch, Bool.false_eq_true, if_false]
  rcases runOnce_cases host o disk now with ⟨text, effect, he, hc, hd⟩ | ⟨effect, he | ⟨cause, he⟩, hundone⟩
  · rw [he]
    exact ⟨o, text, ⟨args, ha, hr, hc⟩, hd⟩
  · rw [he]
    exact hundone.imp (fun h => ⟨h.1, .inl h.2⟩) fun ⟨text, hc, hb⟩ => ⟨o, text, ⟨args, ha, hr, hc⟩, hb⟩
  · rw [he]
    exact hundone.imp_right fun ⟨text, hc, hb⟩ => ⟨o, text, ⟨args, ha, hr, hc⟩, hb⟩

/-- A variable of the command line is used in a text whose output is written to a file, with outlines. -/
theorem run_all_or_nothing_written :
    let words := ["d.write", "-oout", "-Dv=1|", "--debug"]
    let disk : Disk := .ofEntries [(⟨.above 0, ["d.write"]⟩, ⟨.file "(. #v)".toUTF8, 1⟩)] 1
    let o : Options := ⟨⟨.none, ["d.write"]⟩, some ⟨.none, ["out"]⟩, ⟨[("v", "1|")]⟩, [], [], false, true⟩
    Compiles (.roomy 9) words disk default o "1|\n" ∧
      ∃ effect, run (.roomy 9) words disk default = .finished 0 effect ∧ Delivered o disk "1|\n" effect := by
  intro words disk o
  have ha : Arguments.ofWords words =
      .ok ⟨some "d.write", some "out", [some "v=1|"], [], none, false, false, false, true⟩ := rfl
  have hr : Options.resolve (.roomy 9) disk
      ⟨some "d.write", some "out", [some "v=1|"], [], none, false, false, false, true⟩ = .ok o := rfl
  have hc : (compileFile (.roomy 9) o disk default).2 = .ok "1|\n" := by decide +kernel
  have hw : ∀ other, Arguments.ofWords words = .ok other → other.watch = false := by
    intro other ho
    rw [← Except.ok.inj (ha.symm.trans ho)]
  have hdone : (run (.roomy 9) words disk default matches .finished 0 _) = true := by decide +kernel
  have hrun := run_all_or_nothing (.roomy 9) words disk default hw
  refine ⟨⟨_, ha, hr, hc⟩, ?_⟩
  generalize run (.roomy 9) words disk default = outcome at hdone hrun
  split at hdone
  next effect =>
    obtain ⟨o', text, ⟨args, ha', hr', hc'⟩, hd⟩ := hrun
    obtain rfl := Except.ok.inj (ha.symm.trans ha')
    obtain rfl := Except.ok.inj (hr.symm.trans hr')
    obtain rfl := Except.ok.inj (hc.symm.trans hc')
    exact ⟨effect, rfl, hd⟩
  next => cases hdone

/-- A run loses what its output file held: where a variable of the command line has a character that no file
can hold, the file is empty when the run ends at once; and where there is no room on the disk behind the first
byte of the output, the file has that byte when the run ends with 1. -/
theorem run_empties_output :
    let path : Path := ⟨.none, ["out"]⟩
    let disk : Disk := .ofEntries [(⟨.above 0, ["d.write"]⟩, ⟨.file "#v".toUTF8, 1⟩),
      (⟨.above 0, ["out"]⟩, ⟨.file "old".toUTF8, 1⟩)] 1
    let strict : Host := { Host.roomy 9 with unencodable := (· = '\u00ff') }
    let small : Disk := { disk with breaks := fun _ _ => some ⟨1, .noSpace⟩ }
    disk.bytesAt? path = some "old".toUTF8 ∧
      (match run strict ["d.write", "-oout", "-Dv=\u00ff"] disk default with
        | .crashed .unencodable ⟨_, _, next⟩ => next.bytesAt? path
        | _ => none) = some .empty ∧
      (match run (.roomy 9) ["d.write", "-oout", "-Dv=1"] small default with
        | .finished 1 ⟨_, _, next⟩ => next.bytesAt? path
        | _ => none) = some "1".toUTF8 := by
  decide +kernel

end Markup.CommandLine
