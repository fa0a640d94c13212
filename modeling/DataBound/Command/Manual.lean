-- SUMMARY: The manual pages of the program and of its commands.
import DataBound.Command.Request

/-! # Manual pages

`Topic.page` says how the program or one of its commands is used. -/

namespace DataBound

def versionText : String := "viewbind 0.1.0\n"

namespace Topic

def purpose : Topic → String
  | .program => "Viewbind - binding paths and view ASTs for data-bound content"
  | .command .resolve => "Resolve a binding to its canonical path"
  | .command .tree => "Print the grammar AST of a binding"
  | .command .view => "Parse a JSON or YAML view and print its node tree"
  | .help => "Print this message or the help of the given subcommand(s)"

def usage : Topic → String
  | .program => "viewbind [OPTIONS] <COMMAND>"
  | .command .resolve => "viewbind resolve [OPTIONS] <BINDING>"
  | .command .tree => "viewbind ast [OPTIONS] <BINDING>"
  | .command .view => "viewbind view [OPTIONS] <FILE>"
  | .help => "viewbind help [COMMAND]..."

/-- The line about the option for the settings file. -/
def settingsLine : String :=
  "      --config <CONFIG>  Config file (defaults to ~/.config/viewbind/config.toml)\n"

/-- The lines about the flags that all commands share. -/
def flagLines : String :=
  "  -v, --verbose          Log at debug level\n" ++
  "  -h, --help             Print help\n"

def details : Topic → String
  | .program =>
    "Commands:\n" ++
    "  resolve  " ++ purpose (.command .resolve) ++ "\n" ++
    "  ast      " ++ purpose (.command .tree) ++ "\n" ++
    "  view     " ++ purpose (.command .view) ++ "\n" ++
    "  help     " ++ purpose .help ++ "\n\n" ++
    "Options:\n" ++ settingsLine ++ flagLines ++
    "  -V, --version          Print version\n"
  | .command .resolve =>
    "Arguments:\n" ++
    "  <BINDING>  Raw binding, e.g. 'items[name=\"x\"].value'\n\n" ++
    "Options:\n" ++ settingsLine ++
    "  -d, --data <DATA>      JSON or YAML data file to resolve against\n" ++
    "      --read-only        Don't record query misses in the data\n" ++ flagLines
  | .command .tree =>
    "Arguments:\n" ++
    "  <BINDING>  \n\n" ++
    "Options:\n" ++ settingsLine ++ flagLines
  | .command .view =>
    "Arguments:\n" ++
    "  <FILE>  \n\n" ++
    "Options:\n" ++ settingsLine ++
    "  -d, --data <DATA>      Data used by templates and static switches\n" ++ flagLines
  | .help =>
    "Arguments:\n" ++
    "  [COMMAND]...  Print help for the subcommand(s)\n"

def page (topic : Topic) : String :=
  topic.purpose ++ "\n\nUsage: " ++ topic.usage ++ "\n\n" ++ topic.details

end Topic

end DataBound
