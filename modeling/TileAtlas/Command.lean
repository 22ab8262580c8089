import TileAtlas.Command.Directory
import TileAtlas.Command.Error
import TileAtlas.Command.LogFilter
import TileAtlas.Command.Report
import TileAtlas.Pass.References
import TileAtlas.Store.File
/-!
# Commands

A command reads a command line, opens the store that it names, and prints one document or fails.
What a command did to the store before it failed stays done.
-/
namespace TileAtlas

/-- What a command prints; verifying may print and fail. -/
structure Reply where
  output : Json
  failure : Option CommandError := none

/-- A command works on a directory and may fail on the way. -/
abbrev Run (α : Type) := ExceptT CommandError (StateM Directory) α

namespace Run

def of (r : Except CommandError α) : Run α := ExceptT.mk (pure r)

def directory : Run Directory := ExceptT.mk fun d => (.ok d, d)

def setDirectory (d : Directory) : Run Unit := ExceptT.mk fun _ => (.ok (), d)

end Run

namespace Command

/-! ## Options -/

def required (command : CommandName) (name : String) (value : Option α) : Except CommandError α :=
  match value with
  | some a => .ok a
  | none => .error (.missing command name)

def requiredText (l : CommandLine) (name : String) : Except CommandError String :=
  required l.command name (l.options.text? name)

def requiredNumber (l : CommandLine) (name : String) : Except CommandError Int :=
  required l.command name (l.options.number? name)

def levelOf (o : Options) : Except CommandError TileLevel :=
  match o.number? "tile-level" with
  | none => .ok .finest
  | some n => (TileLevel.ofNat n.toNat).mapError .tileLevel

/-- The settings that options make. -/
def configOf (o : Options) : Except CommandError IndexConfig := do
  return {
    tileLevel := ← levelOf o
    inlineLimit := ((o.number? "inline-limit").map Int.toNat).getD StorageForm.defaultInlineLimit
    referenceLayout := if o.has "legacy-references" then .legacy else .merged
    strictModify := o.has "strict-modify" }

/-! ## Files -/

/-- A path given by an option must name a file. -/
def requireFile (option path : String) : Run Unit := do
  match (← Run.directory).isFile path with
  | .ok true => return ()
  | .ok false => throw (.noFile option path)
  | .error reason => throw (.inspect option path reason)

def save (path : String) (store : Store) : Run Unit := do
  match store with
  | .flat s => Run.setDirectory ((← Run.directory).write path (StoreFile.encode s.contents))
  | .segmented _ => return ()

/-- Open the store at a path, a new one where there is none. -/
def openStore (path : String) (config : IndexConfig) : Run Atlas := do
  let contents ← match (← Run.directory).entryAt path with
    | none => pure Contents.empty
    | some .directory =>
      throw (.openStore path s!"failed to open store at {path}: unable to open database file: {path}")
    | some (.file content) =>
      match StoreFile.decode? content with
      | some s => pure s
      | none => throw (.openStore path "file is not a database")
  let store := Store.flat ⟨contents, true⟩
  save path store
  return ⟨store, config⟩

/-- Open a store that must be there. -/
def openExisting (path : String) (config : IndexConfig) : Run Atlas := do
  requireFile "store" path
  openStore path config

/-- Open a store, making it and the directories above it if they are missing. -/
def openOrCreate (path : String) (config : IndexConfig) : Run Atlas := do
  match (← Run.directory).makeParents path with
  | .ok d => Run.setDirectory d
  | .error reason => throw (.createDirectory path reason)
  openStore path config

def readChangeset (path : String) : Run Changeset := do
  requireFile "changeset" path
  match (← Run.directory).entryAt path with
  | some (.file content) =>
    match Bytes.toString? content with
    | none => throw (.readChangeset path "stream did not contain valid UTF-8")
    | some text =>
      match Changeset.ofText? text with
      | some c => return c
      | none => throw (.parseChangeset path)
  | _ => throw (.noFile "changeset" path)

/-- Do a pass and keep what it wrote, even if it failed. -/
def doPass (path : String) (pass : Atlas → Except PassError α × Atlas) (a : Atlas) :
    Run (α × Atlas) := do
  let (result, a) := pass a
  save path a.store
  let value ← Run.of (result.mapError .pass)
  return (value, a)

/-! ## The commands -/

def apply (l : CommandLine) : Run Reply := do
  let path ← Run.of (requiredText l "store")
  let changesetPath ← Run.of (requiredText l "changeset")
  let config ← Run.of (configOf l.options)
  let changeset ← readChangeset changesetPath
  let a ← openOrCreate path config
  let (report, a) ← Run.of ((a.apply changeset).mapError .update)
  save path a.store
  return { output := Report.ofUpdate report }

def stats (l : CommandLine) : Run Reply := do
  let path ← Run.of (requiredText l "store")
  let a ← openExisting path {}
  let found ← Run.of (a.stats.mapError .pass)
  let state ← Run.of (a.replication.mapError .index)
  return { output := Report.ofStats found state }

def tile (l : CommandLine) : Run Reply := do
  let path ← Run.of (requiredText l "store")
  let x ← Run.of (requiredNumber l "tile-x")
  let y ← Run.of (requiredNumber l "tile-y")
  let a ← openExisting path {}
  let entries ← Run.of ((a.tileEntries x y).mapError .index)
  return { output := .ofList Report.ofTileEntry entries }

/-- Both passes run unless one is asked for. -/
def rebuild (l : CommandLine) : Run Reply := do
  let path ← Run.of (requiredText l "store")
  let config ← Run.of (configOf l.options)
  let a ← openExisting path config
  let both := !l.options.has "references" && !l.options.has "tiles"
  let (references, a) ←
    if both || l.options.has "references" then do
      let (n, a) ← doPass path Atlas.recomputeReferences a
      pure (some n, a)
    else pure (none, a)
  let tiles ←
    if both || l.options.has "tiles" then some <$> (·.1) <$> doPass path Atlas.rebuildTiles a
    else pure none
  return { output := Report.ofRebuild references tiles }

def verify (l : CommandLine) : Run Reply := do
  let path ← Run.of (requiredText l "store")
  let config ← Run.of (configOf l.options)
  let a ← openExisting path config
  let report ← Run.of (a.verify.mapError .pass)
  return {
    output := Report.ofVerify report
    failure := if report.isConsistent then none else some (.inconsistent report.issues.length) }

def dirty (l : CommandLine) : Run Reply := do
  let path ← Run.of (requiredText l "store")
  let a ← openExisting path {}
  let tiles ← Run.of (a.dirtyTiles.mapError .index)
  if l.options.has "clear" then
    save path (← Run.of (a.clearDirtyTiles.mapError .writeStore)).store
  return { output := Report.tiles tiles }

def byName : CommandName → CommandLine → Run Reply
  | .apply => apply
  | .stats => stats
  | .tile => tile
  | .rebuild => rebuild
  | .verify => verify
  | .dirty => dirty

def ofLine (l : CommandLine) : Run Reply := do
  match l.logFilter with
  | some filter => unless LogFilter.isWellFormed filter do throw (.logFilter filter)
  | none => pure ()
  byName l.command l

/-- Do what a command line says; also the directory afterwards. -/
def run (args : List String) (d : Directory) : Except CommandError Reply × Directory :=
  match CommandLine.parse? args with
  | some l => (ExceptT.run (ofLine l)).run d
  | none => (.error .usage, d)

end Command
end TileAtlas
