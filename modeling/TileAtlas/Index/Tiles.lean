import TileAtlas.Index.Error
import TileAtlas.Tile.Position
/-!
# Stored tiles

A **membership** is an element in a tile: it holds the element's feature, or nothing, which marks a
feature that is kept once for all tiles.  Beside the memberships the index keeps, for every
element, the number and the list of its tiles.

Tiles whose contents changed are flagged until someone has dealt with them.
-/
namespace TileAtlas

/-- The tile that a key names. -/
def Column.tileOf (c : Column) (key : Bytes) : Except IndexError TilePosition :=
  match TilePosition.ofKey? key with
  | some t => .ok t
  | none => .error (.corrupt c .tileKey)

/-! ## Flagged tiles -/

namespace DirtyTiles

def mark (t : TilePosition) : Op := .put .dirtyTiles t.key []

def clear : Op := .deleteRange .dirtyTiles .all

def contains (r : Reader) (t : TilePosition) : Except IndexError Bool := do
  return (← asking (r.get .dirtyTiles t.key)).isSome

def list (r : Reader) : Except IndexError (List TilePosition) := do
  (← asking (r.scan .dirtyTiles .all .ascending)).mapM fun p => Column.dirtyTiles.tileOf p.1

def count (r : Reader) : Except IndexError Nat := do
  return (← asking (r.scan .dirtyTiles .all .ascending)).length

end DirtyTiles

/-! ## Memberships -/

/-- An element in a tile. -/
structure Membership where
  tile : TilePosition
  id : ElementId
deriving DecidableEq

namespace Membership

/-- Tile, then element: the memberships of a tile stand together, by element. -/
def key (m : Membership) : Bytes := m.tile.key ++ m.id.key

def ofKey (key : Bytes) : Except IndexError Membership :=
  if key.length ≠ 16 then .error (.corrupt .tiles .membershipKey)
  else do return ⟨← Column.tiles.tileOf (key.take 8), ← Column.tiles.elementOf (key.drop 8)⟩

/-- Put an element into tiles. -/
def add (tiles : List TilePosition) (id : ElementId) (payload : Bytes) : List Op :=
  tiles.flatMap fun t => [.put .tiles (key ⟨t, id⟩) payload, DirtyTiles.mark t]

/-- Take an element out of tiles. -/
def remove (tiles : List TilePosition) (id : ElementId) : List Op :=
  tiles.flatMap fun t => [.delete .tiles (key ⟨t, id⟩), DirtyTiles.mark t]

/-- Take everything out of a tile. -/
def removeAll (t : TilePosition) : List Op :=
  [.deleteRange .tiles (.beginningWith t.key), DirtyTiles.mark t]

/-- The elements in a tile, ascending, and what the tile holds of them. -/
def inTile (r : Reader) (t : TilePosition) : Except IndexError (List (ElementId × Bytes)) := do
  (← asking (r.scan .tiles (.beginningWith t.key) .ascending)).mapM fun p => do
    return (← Column.tiles.elementOf (p.1.drop 8), p.2)

end Membership

/-! ## The tiles of an element -/

namespace TileCounts

def set (id : ElementId) (n : Nat) : Op := .put .tileCounts id.key (Counter.encode (UInt64.ofNat n))

def change (id : ElementId) (delta : Int) : Op := .merge .tileCounts id.key (Counter.operand delta)

def delete (id : ElementId) : Op := .delete .tileCounts id.key

def read (value : Bytes) : Except IndexError UInt64 :=
  match Counter.decode .counterValue value with
  | .ok n => .ok n
  | .error _ => .error (.corrupt .tileCounts .tileCount)

def readStored : Option Bytes → Except IndexError UInt64
  | none => .ok 0
  | some value => read value

/-- The number of tiles of an element; none if nothing is stored. -/
def get (r : Reader) (id : ElementId) : Except IndexError UInt64 := do
  readStored (← asking (r.get .tileCounts id.key))

def getMany (r : Reader) (ids : List ElementId) : Except IndexError (List UInt64) := do
  (← asking (r.getMany .tileCounts (ids.map (·.key)))).mapM readStored

end TileCounts

namespace ElementTiles

def set (id : ElementId) (tiles : TileSet) : Op :=
  .put .elementTiles id.key (tiles.toList.flatMap (·.key))

def delete (id : ElementId) : Op := .delete .elementTiles id.key

def read (value : Bytes) : Except IndexError TileSet := do
  if value.length % 8 ≠ 0 then throw (.corrupt .elementTiles .tileList)
  let tiles ← (Bytes.pieces 8 (value.length / 8) value).mapM Column.elementTiles.tileOf
  return .ofList tiles

def readStored : Option Bytes → Except IndexError TileSet
  | none => .ok ∅
  | some value => read value

/-- The tiles of an element; none if nothing is stored. -/
def get (r : Reader) (id : ElementId) : Except IndexError TileSet := do
  readStored (← asking (r.get .elementTiles id.key))

end ElementTiles

/-! ## Features kept once -/

namespace ExternalFeature

def put (id : ElementId) (payload : Bytes) : Op := .put .external id.key payload

def delete (id : ElementId) : Op := .delete .external id.key

def get (r : Reader) (id : ElementId) : Except IndexError (Option Bytes) :=
  asking (r.get .external id.key)

end ExternalFeature

/-- The feature that a membership stands for: its own payload, or what is kept outside. -/
def Membership.resolve (r : Reader) (id : ElementId) (payload : Bytes) :
    Except IndexError (Option Bytes) :=
  if payload.isEmpty then ExternalFeature.get r id else .ok (some payload)

end TileAtlas
