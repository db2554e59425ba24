/-
What the command line says about itself.
-/
namespace Markup.CommandLine

/-- The name of the command. -/
def commandName : String := "writ"

/-- The version of the language. -/
def version : String := "0.1.0"

/-- How the command is called. -/
def usage : String := String.join ([
  "usage: writ [-h] [-v] [-o OUTPUT] [-D NAME=VALUE] [-I DIR] [--config FILE]",
  "            [--watch] [--debug]",
  "            [input]"].map (· ++ "\n"))

/-- What the arguments mean. -/
def help : String := usage ++ String.join ([
  "",
  "writ 0.1.0 markup expander",
  "",
  "positional arguments:",
  "  input                 Input .write file",
  "",
  "options:",
  "  -h, -help, --help     Show this help and exit",
  "  -v, -version, --version",
  "                        Show version and exit",
  "  -o OUTPUT, --output OUTPUT",
  "                        Output file (default: stdout)",
  "  -D NAME=VALUE, --define NAME=VALUE",
  "                        Predefine a variable (repeatable)",
  "  -I DIR, --module-path DIR",
  "                        Extra directory searched for .write modules",
  "                        (repeatable)",
  "  --config FILE         Config file (default: auto-discover writ.toml)",
  "  --watch               Watch for changes and re-expand",
  "  --debug               Dump tokens and tree to stderr"].map (· ++ "\n"))

end Markup.CommandLine
