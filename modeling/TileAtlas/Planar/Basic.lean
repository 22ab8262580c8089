import TileAtlas.Point
/-!
# The plane of whole numbers

Every coordinate is a whole number, so which side of a line a point lies on is decided exactly.
-/
namespace TileAtlas

structure Coord where
  x : Int
  y : Int
deriving DecidableEq

def Point.coord (p : Point) : Coord := ⟨p.x.toInt, p.y.toInt⟩

/-- A rectangle with sides along the axes. -/
structure Rect where
  minX : Int
  minY : Int
  maxX : Int
  maxY : Int
deriving DecidableEq

namespace Planar

/-- Twice the signed area of a triangle: positive when `c` lies to the left of the way from `a` to
`b`, zero when the three are in line. -/
def cross (a b c : Coord) : Int := (b.x - a.x) * (c.y - a.y) - (c.x - a.x) * (b.y - a.y)

/-- Whether `p` lies on the segment from `a` to `b`, its ends included. -/
def onSegment (a b p : Coord) : Bool :=
  cross a b p == 0 && min a.x b.x ≤ p.x && p.x ≤ max a.x b.x && min a.y b.y ≤ p.y && p.y ≤ max a.y b.y

def oppositeSides (m n : Int) : Bool := (0 < m && n < 0) || (m < 0 && 0 < n)

/-- Whether two segments cross at a point that is an end of neither. -/
def crossProperly (a b c d : Coord) : Bool :=
  oppositeSides (cross a b c) (cross a b d) && oppositeSides (cross c d a) (cross c d b)

end Planar

namespace Rect

/-- The rectangle between two opposite corners, whichever they are. -/
def spanning (a b : Coord) : Rect := ⟨min a.x b.x, min a.y b.y, max a.x b.x, max a.y b.y⟩

/-- The corners against the clock, from the lower right one. -/
def corners (r : Rect) : List Coord :=
  [⟨r.maxX, r.minY⟩, ⟨r.maxX, r.maxY⟩, ⟨r.minX, r.maxY⟩, ⟨r.minX, r.minY⟩]

/-- Whether a segment has a point strictly inside the rectangle.  Two convex sets miss each other
when a line with the direction of one of their edges separates them; the edges here are the
rectangle's and the segment itself. -/
def meetsInside (r : Rect) (a b : Coord) : Bool :=
  let sides := r.corners.map (Planar.cross a b)
  (r.minX < max a.x b.x && min a.x b.x < r.maxX && r.minY < max a.y b.y && min a.y b.y < r.maxY)
    && (a == b || (sides.any (0 < ·) && sides.any (· < 0)))

def touches (r s : Rect) : Bool :=
  r.minX ≤ s.maxX && s.minX ≤ r.maxX && r.minY ≤ s.maxY && s.minY ≤ r.maxY

end Rect
end TileAtlas
