import TileAtlas.Command
import TileAtlas.Json.Pretty
/-!
# The program

The files that a command line names are read beforehand, and what the command did to them is written
back, so that the command itself only ever sees their contents.
-/
open TileAtlas

/-- What there is at a path. -/
def lookAt (path : String) : IO (Option FileEntry) := do
  try
    return some (.file (← IO.FS.readBinFile path).toList)
  catch
    | .noFileOrDirectory .. => return none
    | .inappropriateType .. => return some .directory
    | e => throw e

/-- Take note of what there is at a place and above it. -/
def noteAt (d : Directory) (path : String) : IO Directory := do
  let mut d := d
  for place in Directory.above (Directory.placeOf path) ++ [Directory.placeOf path] do
    if let some entry ← lookAt (String.intercalate "/" place) then
      d := d.insert place entry
  return d

/-- Make the directories and write the files that were not there before. -/
def writeBack (before after : Directory) : IO Unit := do
  for (place, entry) in after.toList do
    let path := String.intercalate "/" place
    match before[place]?, entry with
    | none, .directory => IO.FS.createDirAll path
    | some (.file old), .file new =>
      unless old = new do IO.FS.writeBinFile path ⟨new.toArray⟩
    | _, .file new => IO.FS.writeBinFile path ⟨new.toArray⟩
    | _, .directory => pure ()

def main (args : List String) : IO UInt32 := do
  let paths := match CommandLine.parse? args with
    | some l => ["store", "changeset"].filterMap l.options.text?
    | none => []
  let before ← paths.foldlM noteAt ∅
  let (result, after) := Command.run args before
  writeBack before after
  let failure ← match result with
    | .ok reply =>
      IO.println reply.output.pretty
      pure reply.failure
    | .error e => pure (some e)
  match failure with
  | none => return 0
  | some e =>
    IO.eprintln s!"osmtile: {e.message}"
    return 1
