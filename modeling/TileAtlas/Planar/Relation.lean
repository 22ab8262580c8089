import TileAtlas.Planar.Ring
/-!
# A ring beside a rectangle

Two regions relate by which of the nine pairs of places — inside, boundary or outside the one,
inside, boundary or outside the other — hold a common point.  A tile belongs to an area when the
pair (inside, inside) does.

The pairs are found where the two boundaries meet.  If they cross properly, all nine occur.
Otherwise they meet at vertices, and around each such place a **star** of rays leaves along both
boundaries: every ray, and the wedge on either hand of it, lies somewhere with respect to the ring
and somewhere with respect to the rectangle.  A boundary that meets the other nowhere lies on one
side of it as a whole.

A ring that crosses itself has no consistent inside.  Its sides are then still those of
`Ring.insideOnLeft`, all along.
-/
namespace TileAtlas

/-- A pair of places, with respect to the ring and with respect to the rectangle. -/
abbrev PlacePair := Location × Location

namespace Rect

def locate (r : Rect) (p : Coord) : Location :=
  if p.x < r.minX || r.maxX < p.x || p.y < r.minY || r.maxY < p.y then .outside
  else if r.minX < p.x && p.x < r.maxX && r.minY < p.y && p.y < r.maxY then .inside
  else .boundary

/-- The boundary of a rectangle, which has its inside on the left. -/
def ring (r : Rect) : Ring := ⟨r.corners ++ r.corners.take 1⟩

end Rect

namespace Planar

/-- A boundary leaving a place: the direction, and what is on either hand. -/
structure Ray where
  origin : Coord
  dx : Int
  dy : Int
  left : Location
  right : Location

def Ray.sameDirection (a b : Ray) : Bool :=
  a.dx * b.dy == a.dy * b.dx && 0 < a.dx * b.dx + a.dy * b.dy

def quadrant (r : Ray) : Nat :=
  if 0 ≤ r.dx then (if 0 ≤ r.dy then 0 else 3) else (if 0 ≤ r.dy then 1 else 2)

/-- Whether turning against the clock from due east meets `a` before `b`. -/
def Ray.before (a b : Ray) : Bool :=
  quadrant a < quadrant b || (quadrant a == quadrant b && 0 < a.dx * b.dy - a.dy * b.dx)

/-- A place where a boundary is broken: on which segment, and where.  A vertex belongs to the
segment that leaves it. -/
abbrev Stop := Nat × Coord

/-- Where two segments that do not cross properly meet: the ends of the one on the other. -/
def contacts (a b c d : Coord) : List Coord :=
  [a, b].filter (onSegment c d) ++ [c, d].filter (onSegment a b)

/-- The contacts as stops of segment `i`, from `a` to `b`. -/
def stopsOn (i : Nat) (b : Coord) (ps : List Coord) : List Stop :=
  ps.map fun p => if p = b then (i + 1, p) else (i, p)

def indexedSegments (r : Ring) : List (Nat × Coord × Coord) :=
  r.segments.zipIdx.map fun s => (s.2, s.1)

/-- The stops of `r` at its contacts with `s`, each once. -/
def stopsAlong (r s : Ring) : List Stop :=
  ((indexedSegments r).flatMap fun (i, a, b) =>
    s.segments.flatMap fun (c, d) =>
      if crossProperly a b c d then [] else stopsOn i b (contacts a b c d)).eraseDups

/-- The two ends of the path count as stops. -/
def withEnds (r : Ring) (stops : List Stop) : List Stop :=
  let ends := match r.vertices.head?, r.vertices.getLast? with
    | some a, some b => [(0, a), (r.vertices.length - 1, b)]
    | _, _ => []
  (stops ++ ends).eraseDups

def rayTo (p q : Coord) (left right : Location) : Ray := ⟨p, q.x - p.x, q.y - p.y, left, right⟩

/-- The rays that leave a stop, forwards and backwards.  Going backwards swaps the hands. -/
def raysAt (vertices : Array Coord) (left right : Location) (stop : Stop) : List Ray :=
  let (i, p) := stop
  let back := match vertices[i]? with
    | some v =>
      if v ≠ p then [rayTo p v right left]
      else match i with
        | 0 => []
        | j + 1 => (vertices[j]?.map fun u => rayTo p u right left).toList
    | none => []
  let forth := (vertices[i + 1]?.map fun u => rayTo p u left right).toList
  back ++ forth

def rays (r : Ring) (stops : List Stop) : List Ray :=
  let vertices := r.vertices.toArray
  stops.flatMap (raysAt vertices r.left r.right)

/-- Places on the ray itself and on either hand of it. -/
structure Flank where
  on : Location
  left : Location
  right : Location

def Flank.throughout (l : Location) : Flank := ⟨l, l, l⟩

/-- An odd number of passes of a boundary is boundary; an even number cancels to inside. -/
def boundaryIfOdd (n : Nat) : Location := if n % 2 = 1 then .boundary else .inside

/-- The inside wins where several rays run together. -/
def together (ls : List Location) : Location := if ls.contains .inside then .inside else .outside

/-- The ray of a star that turning clockwise from `d` meets first. -/
def previousRay (star : List Ray) (d : Ray) : Option Ray :=
  let latest (rs : List Ray) : Option Ray :=
    rs.foldl (fun best r => match best with
      | none => some r
      | some b => if b.before r then some r else some b) none
  match latest (star.filter (·.before d)) with
  | some r => some r
  | none => latest star

/-- Where a ray lies with respect to the boundary whose rays at the same place form a star; `alone`
answers when that boundary does not come by. -/
def flank (star : List Ray) (alone : Location) (d : Ray) : Flank :=
  let along := star.filter (·.sameDirection d)
  if along.isEmpty then
    match previousRay star d with
    | none => .throughout alone
    | some r =>
      .throughout (together ((star.filter (·.sameDirection r)).map (·.left)))
  else
    ⟨boundaryIfOdd along.length, together (along.map (·.left)), together (along.map (·.right))⟩

def flankPairs (a b : Flank) : List PlacePair := [(a.on, b.on), (a.left, b.left), (a.right, b.right)]

/-- The place of a contact on a boundary that passes it `n` times. -/
def contactPlace (r : Ring) (stops : List Stop) (alone : Coord → Location) (p : Coord) : Location :=
  if r.vertices.head? = some p then .boundary
  else
    match (stops.filter (·.2 = p)).length with
    | 0 => alone p
    | n => boundaryIfOdd n

/-- The pairs of places around the stops of both boundaries. -/
def starPairs (a : Ring) (r : Rect) : List PlacePair :=
  let b := r.ring
  let stopsA := stopsAlong a b
  let stopsB := stopsAlong b a
  let raysA := rays a (withEnds a stopsA)
  let raysB := rays b (withEnds b stopsB)
  let places := ((withEnds a stopsA ++ withEnds b stopsB).map (·.2)).eraseDups
  places.flatMap fun p =>
    let starA := raysA.filter (·.origin = p)
    let starB := raysB.filter (·.origin = p)
    let aloneA := if a.dimension = 2 then a.locate p else .outside
    (contactPlace a stopsA a.locate p, contactPlace b stopsB r.locate p) ::
      (starA ++ starB).flatMap fun d =>
        flankPairs (flank starA aloneA d) (flank starB (r.locate p) d)

def meetAnywhere (a b : Ring) : Bool :=
  a.segments.any fun s => b.segments.any fun t =>
    crossProperly s.1 s.2 t.1 t.2 || !(contacts s.1 s.2 t.1 t.2).isEmpty

/-- The pairs of places of two boundaries that meet nowhere. -/
def apartPairs (a : Ring) (r : Rect) : List PlacePair :=
  let ofRing := match a.vertices with
    | [] => []
    | c :: _ =>
      let l := r.locate c
      [(.boundary, l), (a.left, l), (a.right, l)]
  let ofRect := match r.corners with
    | [] => []
    | c :: _ =>
      let l := if a.dimension = 0 then .outside else a.locate c
      [(l, .boundary), (l, .inside), (l, .outside)]
  ofRing ++ ofRect

/-- The pairs that a proper crossing brings: all nine for regions, and those of a line through a
rectangle when the ring is no more than a line. -/
def crossingPairs (a : Ring) : List PlacePair :=
  if a.dimension = 2 then
    [.inside, .boundary, .outside].flatMap fun l => [.inside, .boundary, .outside].map (l, ·)
  else [(.inside, .inside), (.inside, .boundary), (.inside, .outside)]

/-- The pairs of places of a ring and a rectangle that hold a common point. -/
def relate (a : Ring) (r : Rect) : List PlacePair :=
  match a.box? with
  | none => []
  | some box =>
    if !box.touches r then []
    else
      let crossing := a.segments.any fun s =>
        r.ring.segments.any fun t => crossProperly s.1 s.2 t.1 t.2
      (if crossing then crossingPairs a else [])
        ++ (if meetAnywhere a r.ring then [] else apartPairs a r)
        ++ starPairs a r

/-- Whether the insides of a ring and a rectangle have a point in common. -/
def overlaps (a : Ring) (r : Rect) : Bool := (relate a r).contains (.inside, .inside)

/-- Whether a ring's region holds a rectangle: they overlap, and nothing of the rectangle is
outside. -/
def covers (a : Ring) (r : Rect) : Bool :=
  let pairs := relate a r
  pairs.contains (.inside, .inside) && !pairs.contains (.outside, .inside)
    && !pairs.contains (.outside, .boundary)

end Planar
end TileAtlas
