import TileAtlas.Binary64
/-!
# Points and bounds

A location is a pair of whole numbers: degrees times ten million, so comparing and subtracting
coordinates is exact.  A coordinate fits in 32 bits, and so do the degrees of the globe.
-/
namespace TileAtlas

structure Point where
  x : Int32
  y : Int32
deriving DecidableEq

/-- Longitude or latitude lies off the globe, or is no number. -/
structure PointError where
  lon : Float
  lat : Float
deriving DecidableEq

def PointError.message (e : PointError) : String :=
  s!"coordinate ({(Binary64.ofFloat e.lon).text}, {(Binary64.ofFloat e.lat).text}) is outside the valid range"

namespace Point

def unitsPerDegree : Int := 10000000

/-- Degrees as whole units, to the nearest one. -/
def unitsOf (degrees : Float) : Int32 :=
  match (Binary64.ofFloat (degrees * 10000000.0)).round? with
  | some n => Int32.ofInt n
  | none => 0

def ofDegrees (lon lat : Float) : Except PointError Point :=
  if (-180.0 ≤ lon ∧ lon ≤ 180.0) ∧ (-90.0 ≤ lat ∧ lat ≤ 90.0) then
    .ok ⟨unitsOf lon, unitsOf lat⟩
  else .error ⟨lon, lat⟩

def lon (p : Point) : Float := Float.ofInt p.x.toInt / 10000000.0

def lat (p : Point) : Float := Float.ofInt p.y.toInt / 10000000.0

end Point

/-- The smallest rectangle around some points, edges included. -/
structure Bounds where
  minX : Int
  minY : Int
  maxX : Int
  maxY : Int
deriving DecidableEq

namespace Bounds

def ofPoint (p : Point) : Bounds := ⟨p.x.toInt, p.y.toInt, p.x.toInt, p.y.toInt⟩

def union (a b : Bounds) : Bounds :=
  ⟨min a.minX b.minX, min a.minY b.minY, max a.maxX b.maxX, max a.maxY b.maxY⟩

/-- The bounds of a non-empty list of points. -/
def ofPoints? : List Point → Option Bounds
  | [] => none
  | p :: ps => some (ps.foldl (fun b q => b.union (ofPoint q)) (ofPoint p))

def contains (b : Bounds) (p : Point) : Prop :=
  b.minX ≤ p.x.toInt ∧ p.x.toInt ≤ b.maxX ∧ b.minY ≤ p.y.toInt ∧ p.y.toInt ≤ b.maxY

end Bounds
end TileAtlas
