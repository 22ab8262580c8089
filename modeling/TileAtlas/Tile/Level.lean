import TileAtlas.Point
/-!
# Levels of the tile grid

At level 0 a degree holds sixty-four tiles along each axis, and every further level doubles the
width of a tile.  Level 14 is the last: one of its tiles spans the globe.
-/
namespace TileAtlas

structure TileLevel where
  val : Nat
  le_max : val ≤ 14 := by decide
deriving DecidableEq

/-- A level above the last one. -/
structure TileLevelError where
  level : Nat
deriving DecidableEq

def TileLevelError.message (e : TileLevelError) : String :=
  s!"tile level {e.level} exceeds the maximum of 14"

namespace TileLevel

def finest : TileLevel := ⟨0, by decide⟩

def ofNat (n : Nat) : Except TileLevelError TileLevel :=
  if h : n ≤ 14 then .ok ⟨n, h⟩ else .error ⟨n⟩

/-- Tiles along one degree at the finest level. -/
def tilesPerDegree : Int := 64

/-- The width of a tile in units of a point. -/
def tileSize (level : TileLevel) : Int := Point.unitsPerDegree / tilesPerDegree * (1 <<< level.val : Nat)

/-- The column or row of the tile that holds a coordinate; tiles own their lower edges. -/
def tileCoord (level : TileLevel) (c : Int) : Int := c / level.tileSize

theorem tileSize_pos (level : TileLevel) : 0 < level.tileSize := by
  have : 0 < 1 <<< level.val := by
    rw [Nat.shiftLeft_eq, Nat.one_mul]
    exact Nat.two_pow_pos _
  unfold tileSize Point.unitsPerDegree tilesPerDegree
  omega

/-- A coordinate lies between the lower edge of its tile and the lower edge of the next. -/
theorem tileCoord_spec (level : TileLevel) (c : Int) :
    level.tileCoord c * level.tileSize ≤ c ∧ c < (level.tileCoord c + 1) * level.tileSize := by
  have hs := level.tileSize_pos
  constructor
  · exact Int.ediv_mul_le c (Int.ne_of_gt hs)
  · exact Int.lt_ediv_add_one_mul_self c hs

theorem tileCoord_mono (level : TileLevel) {a b : Int} (h : a ≤ b) :
    level.tileCoord a ≤ level.tileCoord b :=
  Int.ediv_le_ediv level.tileSize_pos h

end TileLevel
end TileAtlas
