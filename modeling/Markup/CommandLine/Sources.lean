/-
The files that a run looks at.

They are the config, the input and, for every import of a file that stands
anywhere in a text, the places where that module may be. Which they are
shows only as they are read: the config names modules, and a module's own
text may hold imports. So `sources` tells them as far as the files known so
far do; a disk that has what is at all of them is enough for a run.
-/
import Markup.CommandLine.Run

namespace Markup

mutual

/-- The names of the modules that a node imports from files, at any depth. -/
def Node.fileModules : Node → List String
  | .use name builtIn _ => if builtIn then [] else [name]
  | .call _ groups _ => Group.fileModulesAll groups
  | .define _ _ body _ => Node.fileModulesAll body
  | .bind _ _ value _ => Node.fileModulesAll value
  | .text .. | .number .. | .reference .. | .stray _ => []

/-- The names of the modules that nodes import from files. -/
def Node.fileModulesAll : List Node → List String
  | [] => []
  | node :: rest => node.fileModules ++ Node.fileModulesAll rest

/-- The names of the modules that a group imports from files. -/
def Group.fileModules : Group → List String
  | ⟨_, values, _⟩ => Node.fileModulesAll values

/-- The names of the modules that groups import from files. -/
def Group.fileModulesAll : List Group → List String
  | [] => []
  | group :: rest => group.fileModules ++ Group.fileModulesAll rest

end

namespace CommandLine

/-- The names of the modules that the text of a file imports from files. -/
def importsOf (disk : Disk) (path : Path) : List String :=
  match disk.readText path with
  | .error _ => []
  | .ok text =>
    match Node.ofText text with
    | .error _ => []
    | .ok nodes => Node.fileModulesAll nodes

/-- The paths that a run looks at, as far as the files at the paths already known tell. -/
def sources (host : Host) (args : Arguments) (disk : Disk) (known : List Path) : List Path :=
  match args.input with
  | none => []
  | some input =>
    Options.configFile (.ofText input) args.config ::
      match Options.resolve host disk args with
      | .error _ => []
      | .ok o =>
        let doc := (o.setting host default).document ""
        o.input :: (o.modules ++ known.flatMap (importsOf disk)).flatMap doc.moduleFiles

end CommandLine

end Markup
