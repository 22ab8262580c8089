import TileAtlas.Pass.Stats
/-!
# Looking into an index

What a tile holds of each element in it, and which tiles are flagged.  Listing flagged tiles and
taking the flags away are two accesses to the store, and others may come between them.
-/
namespace TileAtlas

/-- What a tile holds of an element. -/
structure TileEntry where
  id : ElementId
  form : StorageForm
  /-- The length of the feature, wherever it is kept. -/
  length : Nat
  /-- The geometry of the feature, if it can be read. -/
  geometry : Option Geometry

namespace TileEntry

def ofMembership (r : Reader) (id : ElementId) (payload : Bytes) : Except IndexError TileEntry := do
  let feature ← Membership.resolve r id payload
  return {
    id := id
    form := if payload.isEmpty then .reference else .inline
    length := feature.elim 0 List.length
    geometry := feature.bind fun bytes => (Feature.decode bytes).toOption.map (·.geometry) }

/-- The name of a form among the entries of a tile. -/
def formName : StorageForm → String
  | .inline => "inline"
  | .reference => "reference"

end TileEntry

namespace Atlas

/-- The elements in the tile of a column and a row, ascending. -/
def tileEntries (a : Atlas) (x y : Int) : Except IndexError (List TileEntry) := do
  let found ← Membership.inTile a.store.reader (.ofCoords x y)
  found.mapM fun e => TileEntry.ofMembership a.store.reader e.1 e.2

/-- The flagged tiles, ascending. -/
def dirtyTiles (a : Atlas) : Except IndexError (List TilePosition) := DirtyTiles.list a.store.reader

/-- Take the flags of all tiles away. -/
def clearDirtyTiles (a : Atlas) : Except StoreError Atlas := do
  return { a with store := ← a.store.write [DirtyTiles.clear] }

def replication (a : Atlas) : Except IndexError ReplicationState :=
  ReplicationState.read a.store.reader

end Atlas
end TileAtlas
