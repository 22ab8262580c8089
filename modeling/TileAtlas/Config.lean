import TileAtlas.Feature
import TileAtlas.Json.Parse
import TileAtlas.Tile.Level
/-!
# Settings of an index

A settings document is an object or an array; what it leaves out has its default.
-/
namespace TileAtlas

/-- How the references between elements are kept. -/
inductive ReferenceLayout where
  /-- One counted set for each element that is referred to. -/
  | merged
  /-- One key for each reference. -/
  | legacy
deriving DecidableEq

namespace ReferenceLayout

def name : ReferenceLayout → String
  | merged => "merged"
  | legacy => "legacy"

def ofName? (s : String) : Option ReferenceLayout := [merged, legacy].find? (·.name = s)

end ReferenceLayout

structure IndexConfig where
  tileLevel : TileLevel := .finest
  /-- The longest feature that is repeated in several tiles. -/
  inlineLimit : Nat := StorageForm.defaultInlineLimit
  referenceLayout : ReferenceLayout := .merged
  /-- Whether a deleted element may not be modified. -/
  strictModify : Bool := false
deriving DecidableEq

namespace IndexConfig

/-- A field that may be left out. -/
def fieldOr (a : α) (read : Json → Option α) : Option Json → Option α
  | none => some a
  | some j => read j

def levelOf? (j : Json) : Option TileLevel := do
  match TileLevel.ofNat (← j.natUpTo? 255) with
  | .ok l => some l
  | .error _ => none

def layoutOf? (j : Json) : Option ReferenceLayout := do ReferenceLayout.ofName? (← j.choice?)

def ofJson? (j : Json) : Option IndexConfig := do
  match ← j.record? ["tile_level", "inline_limit", "reference_layout", "strict_modify"] with
  | [level, limit, layout, strict] =>
    return {
      tileLevel := ← fieldOr .finest levelOf? level
      inlineLimit := ← fieldOr StorageForm.defaultInlineLimit Json.word? limit
      referenceLayout := ← fieldOr .merged layoutOf? layout
      strictModify := ← fieldOr false Json.bool? strict }
  | _ => none

def ofText? (s : String) : Option IndexConfig := do ofJson? (← Json.parse? s)

def toJson (c : IndexConfig) : Json :=
  .object
    [("tile_level", .ofNat c.tileLevel.val), ("inline_limit", .ofNat c.inlineLimit),
      ("reference_layout", .text c.referenceLayout.name), ("strict_modify", .bool c.strictModify)]

end IndexConfig
end TileAtlas
