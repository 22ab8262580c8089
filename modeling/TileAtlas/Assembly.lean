import TileAtlas.Assembly.AreaTags
import TileAtlas.Assembly.Stitch
import TileAtlas.Planar.Ring
/-!
# Assembling geometries

A way becomes an area when it is closed and its tags say so, and a line otherwise.  A relation
becomes an area when its member ways stitch into rings: the outer ones make shapes, and each inner
one is a hole of the first shape that encloses it.  What does not assemble has no geometry.
-/
namespace TileAtlas

/-- A way that is a member of a relation. -/
structure MemberWay where
  role : String
  points : List Point

/-- Whether every vertex of a ring lies in the shape's outer ring or on it. -/
def Shape.encloses (s : Shape) (ring : Path) : Bool :=
  let outer := Ring.ofPoints s.outer
  ring.all fun p => outer.locate p.coord != .outside

namespace Assembly

/-- The geometry of a way through some points. -/
def ofWay? (tags : Tags) (points : List Point) : Option Geometry :=
  if 4 ≤ points.length && Path.isClosed points && tags.isWayArea then some (.area [{ outer := points }])
  else if 2 ≤ points.length then some (.line points)
  else none

/-- Add a hole to the first shape that encloses it. -/
def addHole (shapes : List Shape) (hole : Path) : List Shape :=
  match shapes.findIdx? (·.encloses hole) with
  | some i => shapes.modify i fun s => { s with holes := s.holes ++ [hole] }
  | none => shapes

/-- Members with other roles than these have no part in the area. -/
def outerRoles : List String := ["outer", ""]

def innerRole : String := "inner"

/-- The geometry of a relation with some member ways. -/
def ofRelation? (tags : Tags) (members : List MemberWay) : Option Geometry :=
  if tags.isRelationArea then do
    let outer ← Stitch.rings? ((members.filter (outerRoles.contains ·.role)).map (·.points))
    let inner ← Stitch.rings? ((members.filter (·.role == innerRole)).map (·.points))
    if outer.isEmpty then none
    else some (.area (inner.foldl addHole (outer.map fun ring => { outer := ring })))
  else none

end Assembly
end TileAtlas
