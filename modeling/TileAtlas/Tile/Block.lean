import TileAtlas.Planar.Basic
import TileAtlas.Tile.Position
/-!
# Blocks of tiles

A block is a rectangle of tiles.  Halving both sides of a block splits it into quadrants; the lower
half of an odd side gets the middle row or column.
-/
namespace TileAtlas

structure TileBlock where
  baseX : Int
  baseY : Int
  sizeX : Int
  sizeY : Int
deriving DecidableEq

namespace TileBlock

/-- The block of one tile. -/
def single (x y : Int) : TileBlock := ⟨x, y, 1, 1⟩

/-- The tiles that some bounds touch. -/
def covering (level : TileLevel) (b : Bounds) : TileBlock :=
  let baseX := level.tileCoord b.minX
  let baseY := level.tileCoord b.minY
  ⟨baseX, baseY, level.tileCoord b.maxX - baseX + 1, level.tileCoord b.maxY - baseY + 1⟩

def tileCount (b : TileBlock) : Int := b.sizeX * b.sizeY

def IsEmpty (b : TileBlock) : Prop := b.sizeX ≤ 0 ∨ b.sizeY ≤ 0

instance (b : TileBlock) : Decidable b.IsEmpty := inferInstanceAs (Decidable (_ ∨ _))

/-- `size` numbers from `base` upwards. -/
def span (base size : Int) : List Int := (List.range size.toNat).map fun i => base + Int.ofNat i

/-- Columns and rows of the tiles, row by row. -/
def coords (b : TileBlock) : List (Int × Int) :=
  (span b.baseY b.sizeY).flatMap fun y => (span b.baseX b.sizeX).map fun x => (x, y)

def tiles (b : TileBlock) : List TilePosition := b.coords.map fun c => .ofCoords c.1 c.2

/-- The four quadrants: lower left, lower right, upper left, upper right.  A side of one tile has
an empty upper half. -/
def quadrants (b : TileBlock) : List TileBlock :=
  let lowX := b.sizeX - b.sizeX.tdiv 2
  let lowY := b.sizeY - b.sizeY.tdiv 2
  let highX := b.sizeX - lowX
  let highY := b.sizeY - lowY
  [⟨b.baseX, b.baseY, lowX, lowY⟩,
   ⟨b.baseX + lowX, b.baseY, highX, lowY⟩,
   ⟨b.baseX, b.baseY + lowY, lowX, highY⟩,
   ⟨b.baseX + lowX, b.baseY + lowY, highX, highY⟩]

theorem mem_span {base size x : Int} : x ∈ span base size ↔ base ≤ x ∧ x < base + size := by
  simp only [span, List.mem_map, List.mem_range]
  constructor
  · rintro ⟨i, hi, rfl⟩; simp only [Int.ofNat_eq_natCast]; omega
  · rintro ⟨h1, h2⟩
    exact ⟨(x - base).toNat, by omega, by simp only [Int.ofNat_eq_natCast]; omega⟩

theorem mem_coords {b : TileBlock} {x y : Int} :
    (x, y) ∈ b.coords ↔
      (b.baseX ≤ x ∧ x < b.baseX + b.sizeX) ∧ (b.baseY ≤ y ∧ y < b.baseY + b.sizeY) := by
  simp only [coords, List.mem_flatMap, List.mem_map, mem_span, Prod.mk.injEq]
  constructor
  · rintro ⟨y', hy, x', hx, rfl, rfl⟩; exact ⟨hx, hy⟩
  · rintro ⟨hx, hy⟩; exact ⟨y, hy, x, hx, rfl, rfl⟩

/-- The number of tiles, as a measure: a quadrant of a block of several tiles has fewer. -/
def volume (b : TileBlock) : Nat := b.sizeX.toNat * b.sizeY.toNat

end TileBlock

/-- The rectangle that a block covers. -/
def TileLevel.blockRect (level : TileLevel) (b : TileBlock) : Rect :=
  let size := level.tileSize
  .spanning ⟨b.baseX * size, b.baseY * size⟩
    ⟨(b.baseX + b.sizeX) * size, (b.baseY + b.sizeY) * size⟩

end TileAtlas
