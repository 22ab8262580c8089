import TileAtlas.Geometry
import TileAtlas.Planar.Relation
import TileAtlas.Tile.Block
/-!
# The tiles of a geometry

A place belongs to the tile that holds it.  A path belongs to the tiles whose inside it meets; a
segment that runs along the grid meets none, and belongs to the tiles that hold its ends.  A shape
belongs to the tiles whose inside its outer ring overlaps and that no hole covers.

The tiles of a shape are found by descending through quadrants: a block that the outer ring misses
or a hole covers is dropped whole, a block that the outer ring covers and the holes miss is taken
whole, and any other block of several tiles is split.  `eachTile` says the same tile by tile.
-/
namespace TileAtlas

/-- How a region lies to rectangles. -/
structure Region where
  overlaps : Rect → Bool
  covers : Rect → Bool

def Region.ofRing (r : Ring) : Region := ⟨Planar.overlaps r, Planar.covers r⟩

/-- A shape as the regions of its rings. -/
structure ShapeRegion where
  outer : Region
  holes : List Region

namespace ShapeRegion

def ofShape (s : Shape) : ShapeRegion :=
  ⟨.ofRing (.ofPoints s.outer), s.holes.map fun h => .ofRing (.ofPoints h)⟩

/-- Whether the shape has the inside of a rectangle among its own. -/
def hasTile (s : ShapeRegion) (r : Rect) : Bool :=
  s.outer.overlaps r && !s.holes.any (·.covers r)

/-- Whether every tile of the rectangle is the shape's. -/
def hasAll (s : ShapeRegion) (r : Rect) : Bool :=
  s.outer.covers r && !s.holes.any (·.overlaps r)

end ShapeRegion

theorem TileBlock.volume_lt_of_mem_quadrants {b q : TileBlock} (hb : ¬ b.IsEmpty)
    (hn : b.tileCount ≠ 1) (hq : q ∈ b.quadrants) : q.volume < b.volume := by
  simp only [IsEmpty, not_or, Int.not_le] at hb
  obtain ⟨hx, hy⟩ := hb
  have hx2 : b.sizeX.tdiv 2 = b.sizeX / 2 := Int.tdiv_eq_ediv_of_nonneg (by omega)
  have hy2 : b.sizeY.tdiv 2 = b.sizeY / 2 := Int.tdiv_eq_ediv_of_nonneg (by omega)
  have hlt : ∀ {a c m n : Nat}, a ≤ m → c ≤ n → 0 < m → 0 < n → (a < m ∨ c < n) →
      a * c < m * n := by
    intro a c m n ham hcn hm hn h
    rcases h with h | h
    · exact Nat.lt_of_le_of_lt (Nat.mul_le_mul_left a hcn) (Nat.mul_lt_mul_of_pos_right h hn)
    · exact Nat.lt_of_le_of_lt (Nat.mul_le_mul_right c ham) (Nat.mul_lt_mul_of_pos_left h hm)
  have hne : 1 < b.sizeX ∨ 1 < b.sizeY := by
    rcases Int.lt_or_le 1 b.sizeX with h | h
    · exact .inl h
    · right
      have h1 : b.sizeX = 1 := by omega
      simp only [tileCount, h1, Int.one_mul] at hn
      omega
  simp only [quadrants, hx2, hy2, List.mem_cons, List.not_mem_nil, or_false] at hq
  rcases hq with rfl | rfl | rfl | rfl <;> simp only [volume] <;> apply hlt <;> omega

/-- The tiles that quadrant descent keeps. -/
def descend (level : TileLevel) (s : ShapeRegion) (b : TileBlock) : List TilePosition :=
  if _hb : b.IsEmpty then []
  else
    let rect := level.blockRect b
    if !s.outer.overlaps rect then []
    else if s.holes.any (·.covers rect) then []
    else if _hn : b.tileCount = 1 then [.ofCoords b.baseX b.baseY]
    else if s.hasAll rect then b.tiles
    else b.quadrants.attach.flatMap fun q => descend level s q.1
termination_by b.volume
decreasing_by exact TileBlock.volume_lt_of_mem_quadrants _hb _hn q.2

/-- The tiles of a block that are the shape's, each tested alone. -/
def eachTile (level : TileLevel) (s : ShapeRegion) (b : TileBlock) : List TilePosition :=
  (b.coords.filter fun c => s.hasTile (level.blockRect (.single c.1 c.2))).map
    fun c => .ofCoords c.1 c.2

namespace Shape

/-- The tiles of a shape, by descent from the block around its outer ring. -/
def tiles (s : Shape) (level : TileLevel) : List TilePosition :=
  match s.bounds? with
  | none => []
  | some b => descend level (.ofShape s) (.covering level b)

/-- The tiles of a shape, each tested alone. -/
def tilesOneByOne (s : Shape) (level : TileLevel) : List TilePosition :=
  match s.bounds? with
  | none => []
  | some b => eachTile level (.ofShape s) (.covering level b)

end Shape

/-- The tiles whose inside a segment meets. -/
def crossedTiles (level : TileLevel) (a b : Point) : List TilePosition :=
  let block := TileBlock.covering level ((Bounds.ofPoint a).union (.ofPoint b))
  (block.coords.filter fun c =>
    (level.blockRect (.single c.1 c.2)).meetsInside a.coord b.coord).map fun c => .ofCoords c.1 c.2

def segmentTiles (level : TileLevel) (a b : Point) : List TilePosition :=
  match crossedTiles level a b with
  | [] => [level.tileOf a, level.tileOf b]
  | ts => ts

def lineTiles (level : TileLevel) : List Point → List TilePosition
  | [] => []
  | [p] => [level.tileOf p]
  | ps => (ps.zip ps.tail).flatMap fun s => segmentTiles level s.1 s.2

/-- The exact set of tiles that a geometry belongs to. -/
def Geometry.tileSet (g : Geometry) (level : TileLevel) : TileSet :=
  .ofList <| match g with
    | point p => [level.tileOf p]
    | multiPoint ps => ps.map level.tileOf
    | line ps => lineTiles level ps
    | area shapes => shapes.flatMap (·.tiles level)

end TileAtlas
