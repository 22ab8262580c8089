import TileAtlas.Point
/-!
# Geometries

What a feature looks like: places, a path, or areas.  An area is a list of shapes, each an outer
ring with the rings of its holes; a ring repeats its first point at its end.
-/
namespace TileAtlas

structure Shape where
  outer : List Point
  holes : List (List Point) := []
deriving DecidableEq

inductive Geometry where
  | point (p : Point)
  | multiPoint (ps : List Point)
  | line (ps : List Point)
  | area (shapes : List Shape)
deriving DecidableEq

/-- Holes lie within their outer ring. -/
def Shape.bounds? (s : Shape) : Option Bounds := Bounds.ofPoints? s.outer

/-- The bounds around a list of bounds. -/
def Bounds.unionAll? : List Bounds → Option Bounds
  | [] => none
  | b :: bs => some (bs.foldl union b)

namespace Geometry

def bounds? : Geometry → Option Bounds
  | point p => some (.ofPoint p)
  | multiPoint ps => Bounds.ofPoints? ps
  | line ps => Bounds.ofPoints? ps
  | area shapes => Bounds.unionAll? (shapes.filterMap Shape.bounds?)

def kindName : Geometry → String
  | point _ => "point"
  | multiPoint _ => "multipoint"
  | line _ => "line"
  | area _ => "area"

end Geometry
end TileAtlas
