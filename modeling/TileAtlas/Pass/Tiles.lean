import TileAtlas.Pass.Basic
/-!
# Rebuilding tiles

The columns that tell where elements stand are emptied, and every element is placed again.  The
tiles that held something before are flagged along with those that do now.
-/
namespace TileAtlas

/-- What a rebuild found and wrote. -/
structure TileRebuild where
  elements : Nat := 0
  /-- The elements that stand in a tile. -/
  features : Nat := 0
  memberships : Nat := 0
deriving DecidableEq

namespace TileRebuild

def combine (a b : TileRebuild) : TileRebuild :=
  ⟨a.elements + b.elements, a.features + b.features, a.memberships + b.memberships⟩

/-- The contribution of one element. -/
def ofPlacement (p : Option Placement) : TileRebuild :=
  let tiles := p.elim 0 (·.tiles.size)
  ⟨1, if 0 < tiles then 1 else 0, tiles⟩

def sum (parts : List TileRebuild) : TileRebuild := parts.foldl combine {}

end TileRebuild

namespace Pass

/-- The columns that tell where elements stand. -/
def tileColumns : List Column := [.tiles, .tileCounts, .elementTiles, .external]

/-- The tiles of every element that has some. -/
def recordedTiles (s : Snapshot) : Except IndexError (List TilePosition) := do
  let sets ← (s.pairsFrom .elementTiles []).mapM fun p => ElementTiles.read p.2
  return sets.flatMap (·.toList)

def clearTileOps (old : List TilePosition) : List Op :=
  old.map DirtyTiles.mark ++ tileColumns.map fun c => .deleteRange c .all

/-- Place an element: what this adds to the summary, and the writes. -/
def placeElement (config : IndexConfig) (r : Reader) (e : Element) :
    Except IndexError (TileRebuild × List Op) := do
  let placement ← config.place r e
  return (.ofPlacement placement, Placement.write e.id placement)

/-- Place the elements of a piece. -/
def placePiece (config : IndexConfig) (r : Reader) (p : Piece) : Pass TileRebuild := do
  let placed ← ofIndex (p.mapElements (placeElement config r))
  write (placed.flatMap (·.2))
  return .sum (placed.map (·.1))

def rebuildTiles (config : IndexConfig) (divide : Division) : Pass TileRebuild := do
  let before ← snapshot
  write (clearTileOps (← ofIndex (recordedTiles before)))
  let now ← snapshot
  let piece ← elements now
  return .sum (← each (placePiece config now.reader) (divide piece))

end Pass

/-- Empty the tiles and place every element again. -/
def Atlas.rebuildTiles (a : Atlas) : Except PassError TileRebuild × Atlas :=
  (Pass.rebuildTiles a.config .whole).runOn a

end TileAtlas
