import TileAtlas.Command.Options
import TileAtlas.Command.Quoted
import TileAtlas.Pass.Basic
/-!
# Why a command fails
-/
namespace TileAtlas

inductive CommandError where
  | usage
  | missing (command : CommandName) (option : String)
  | tileLevel (source : TileLevelError)
  | logFilter (filter : String)
  /-- A path does not name a file. -/
  | noFile (option path : String)
  /-- Nothing can be found out about a path. -/
  | inspect (option path reason : String)
  | createDirectory (path reason : String)
  | openStore (path reason : String)
  | writeStore (source : StoreError)
  | readChangeset (path reason : String)
  | parseChangeset (path : String)
  | update (source : UpdateError)
  | pass (source : PassError)
  | index (source : IndexError)
  | inconsistent (issues : Nat)
deriving DecidableEq

namespace CommandError

/-- A name in capital letters, with underscores for hyphens. -/
def variablePart (name : String) : String :=
  String.ofList (name.toList.map fun c => if c = '-' then '_' else c.toUpper)

/-- The environment variable that stands for an option. -/
def environmentName (command : CommandName) (option : String) : String :=
  s!"OSMTILE_CMDS_{variablePart command.name}_{variablePart option}"

def message : CommandError → String
  | usage => "the command line does not name a command with its options"
  | missing command option => s!"missing {option} (set --{option} or {environmentName command option})"
  | tileLevel e => e.message
  | logFilter filter => s!"invalid log level {Quoted.text filter}"
  | noFile option path => s!"{option} path {Quoted.text path} does not exist or is not a file"
  | inspect option path reason => s!"failed to inspect {option} path {Quoted.text path}: {reason}"
  | createDirectory path reason =>
    s!"failed to create the directory for store {Quoted.text path}: {reason}"
  | openStore path reason => s!"failed to open store {Quoted.text path}: {reason}"
  | writeStore e => s!"failed to write store: {e.message}"
  | readChangeset path reason => s!"failed to read changeset {Quoted.text path}: {reason}"
  | parseChangeset path => s!"failed to parse changeset {Quoted.text path}"
  | update e => e.message
  | pass e => e.message
  | index e => e.message
  | inconsistent issues => s!"index is inconsistent: {issues} issues found"

end CommandError
end TileAtlas
