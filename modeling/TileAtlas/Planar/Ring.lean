import TileAtlas.Planar.Basic
/-!
# Rings

A ring is a closed path.  A point off the path is inside when the path winds around it.  A ring
that does not cross itself has its inside on one hand all along; which hand is decided at the
ring's least vertex, where the path turns around everything else.
-/
namespace TileAtlas

inductive Location where
  | inside
  | boundary
  | outside
deriving DecidableEq, Repr

/-- The vertices of a closed path, the first one again at the end, no two neighbours equal. -/
structure Ring where
  vertices : List Coord

namespace Ring

/-- Drop each vertex that equals the one before it. -/
def dropRepeats : List Coord → List Coord
  | a :: b :: rest => if a = b then dropRepeats (b :: rest) else a :: dropRepeats (b :: rest)
  | cs => cs

/-- Close a path by going back to where it began. -/
def close (cs : List Coord) : List Coord :=
  match cs.head?, cs.getLast? with
  | some a, some b => if a = b then cs else cs ++ [a]
  | _, _ => cs

def ofPoints (ps : List Point) : Ring := ⟨dropRepeats (close (ps.map Point.coord))⟩

def segments (r : Ring) : List (Coord × Coord) := r.vertices.zip r.vertices.tail

def box? (r : Ring) : Option Rect :=
  match r.vertices with
  | [] => none
  | c :: cs => some (cs.foldl
      (fun b p => ⟨min b.minX p.x, min b.minY p.y, max b.maxX p.x, max b.maxY p.y⟩)
      ⟨c.x, c.y, c.x, c.y⟩)

/-- How a segment changes the winding around `p`, counted on the ray to the right of `p`. -/
def turn (p : Coord) (s : Coord × Coord) : Int :=
  let (a, b) := s
  if a.y ≤ p.y then (if p.y < b.y && 0 < Planar.cross a b p then 1 else 0)
  else if b.y ≤ p.y && Planar.cross a b p < 0 then -1 else 0

def winding (r : Ring) (p : Coord) : Int := r.segments.foldl (fun n s => n + turn p s) 0

def locate (r : Ring) (p : Coord) : Location :=
  if r.vertices = [p] || r.segments.any (fun s => Planar.onSegment s.1 s.2 p) then .boundary
  else if r.winding p = 0 then .outside else .inside

/-- The number of dimensions that the vertices span, up to two: a single place has none, a path
between two places has one. -/
def dimension (r : Ring) : Nat :=
  match r.vertices with
  | [] => 0
  | c :: cs =>
    match cs.find? (· ≠ c) with
    | none => 0
    | some d => if cs.any fun e => e ≠ c && e ≠ d then 2 else 1

def leftOf (a b : Coord) : Bool := a.x < b.x || (a.x == b.x && a.y < b.y)

/-- The position of the least vertex, ordered by `x`, then by `y`. -/
def leastIndex (cs : List Coord) : Nat :=
  (cs.foldl (fun (best : Option (Coord × Nat) × Nat) c =>
    match best.1 with
    | none => (some (c, best.2), best.2 + 1)
    | some (d, i) => (if leftOf c d then some (c, best.2) else some (d, i), best.2 + 1))
    (none, 0)).1.elim 0 (·.2)

/-- Whether the inside is to the left of the path: the path turns left at its least vertex. -/
def insideOnLeft (r : Ring) : Bool :=
  let cycle := r.vertices.dropLast
  let i := leastIndex cycle
  match cycle[i]?, cycle[(i + 1) % cycle.length]?, cycle[(i + cycle.length - 1) % cycle.length]? with
  | some least, some next, some previous => 0 < Planar.cross previous least next
  | _, _, _ => false

def left (r : Ring) : Location := if r.insideOnLeft then .inside else .outside

def right (r : Ring) : Location := if r.insideOnLeft then .outside else .inside

end Ring
end TileAtlas
