import TileAtlas.Geometry
import TileAtlas.Tile.Level
/-!
# Thinning lines and rings

A line is thinned for display by dropping, again and again, the vertex whose triangle with its two
neighbours is smallest, the first of several such.  Dropping ends when the segments are long enough
on average for the tiles of the level, or when few vertices remain; the two ends of a line never
move.

`thin` does this with a queue of triangles.  A triangle goes stale when a neighbour of its vertex is
dropped, and is skipped when its turn comes.  `thinNaively` measures every triangle anew each time.
Both take the measures as a parameter: nothing about them depends on how areas and lengths are
computed, only on the order of the areas.
-/
namespace TileAtlas

/-- What thinning measures: areas of triangles, in an order, and the total length of a line. -/
structure ThinningMeasure (A L : Type) where
  area : Point → Point → Point → A
  areaLE : A → A → Bool
  /-- The total length of a line. -/
  total : List Point → L
  /-- The total length without the middle one of three neighbours. -/
  shortcut : L → Point → Point → Point → L
  /-- Whether that many segments of that total length are long enough on average. -/
  longEnough : L → Nat → Bool

namespace Thinning

variable {A L : Type}

/-- A triangle in the queue: its area, its vertex, and how often the vertex had been measured
before. -/
structure Candidate (A : Type) where
  area : A
  index : Nat
  generation : Nat

/-- Smaller areas first, then lower indices. -/
def Candidate.le (m : ThinningMeasure A L) (a b : Candidate A) : Bool :=
  m.areaLE a.area b.area && (!m.areaLE b.area a.area || a.index ≤ b.index)

def enqueue (m : ThinningMeasure A L) (c : Candidate A) : List (Candidate A) → List (Candidate A)
  | [] => [c]
  | d :: ds => if c.le m d then c :: d :: ds else d :: enqueue m c ds

/-- A vertex that is still there knows its neighbours and how often it has been measured since the
start. -/
structure Link where
  before : Nat
  after : Nat
  generation : Nat

structure State (A L : Type) where
  /-- None for a dropped vertex. -/
  links : Array (Option Link)
  queue : List (Candidate A)
  length : L
  remaining : Nat

def start (m : ThinningMeasure A L) (points : Array Point) : State A L :=
  let n := points.size
  let candidates := (List.range n).filterMap fun i =>
    if i = 0 then none
    else
      match points[i - 1]?, points[i]?, points[i + 1]? with
      | some a, some b, some c => some ⟨m.area a b c, i, 0⟩
      | _, _, _ => none
  { links := (Array.range n).map fun i => some ⟨i - 1, min (i + 1) (n - 1), 0⟩
    queue := candidates.mergeSort (Candidate.le m)
    length := m.total points.toList
    remaining := n }

def State.link? (s : State A L) (i : Nat) : Option Link := s.links[i]?.join

/-- The triangle of a candidate is that of its vertex as it is now. -/
def State.isFresh (s : State A L) (c : Candidate A) : Bool :=
  (s.link? c.index).any (·.generation == c.generation)

/-- Measure a vertex again, unless it is an end of the line. -/
def State.remeasure (m : ThinningMeasure A L) (points : Array Point) (s : State A L) (i : Nat) :
    State A L :=
  if i = 0 || i + 1 = points.size then s
  else
    match s.link? i with
    | none => s
    | some l =>
      match points[l.before]?, points[i]?, points[l.after]? with
      | some a, some b, some c =>
        let g := l.generation + 1
        { s with
          links := s.links.setIfInBounds i (some { l with generation := g })
          queue := enqueue m ⟨m.area a b c, i, g⟩ s.queue }
      | _, _, _ => s

/-- Drop a vertex: its neighbours become neighbours of one another and are measured again. -/
def State.drop (m : ThinningMeasure A L) (points : Array Point) (s : State A L) (i : Nat)
    (l : Link) : State A L :=
  match points[l.before]?, points[i]?, points[l.after]? with
  | some a, some b, some c =>
    let links := (s.links.setIfInBounds i none)
    let links := links.modify l.before (·.map fun k => { k with after := l.after })
    let links := links.modify l.after (·.map fun k => { k with before := l.before })
    let s := { s with
      links := links, length := m.shortcut s.length a b c, remaining := s.remaining - 1 }
    (s.remeasure m points l.before).remeasure m points l.after
  | _, _, _ => s

/-- Whether thinning ends before another vertex is dropped. -/
def State.isDone (m : ThinningMeasure A L) (stop : Nat) (s : State A L) : Bool :=
  s.remaining < stop || m.longEnough s.length (s.remaining - 1)

/-- Drop at most `k` vertices. -/
def run (m : ThinningMeasure A L) (points : Array Point) (stop : Nat) :
    Nat → State A L → State A L
  | 0, s => s
  | k + 1, s =>
    match s.queue.dropWhile (!s.isFresh ·) with
    | [] => s
    | c :: queue =>
      let s := { s with queue := queue }
      if s.isDone m stop then s
      else
        match s.link? c.index with
        | none => s
        | some l => run m points stop k (s.drop m points c.index l)

end Thinning

open Thinning in
/-- The vertices that are left, by a queue of triangles; `stop` is the number below which none is
dropped. -/
def thin (m : ThinningMeasure A L) (stop : Nat) (points : List Point) : List Point :=
  let ps := points.toArray
  let s := run m ps stop (ps.size - 2) (start m ps)
  (points.zip s.links.toList).filterMap fun (p, l) => l.map fun _ => p

namespace Thinning

variable {A L : Type}

/-- The areas of the triangles at the inner vertices, with the position of each. -/
def triangles (m : ThinningMeasure A L) : Nat → List Point → List (A × Nat)
  | i, a :: b :: c :: rest => (m.area a b c, i + 1) :: triangles m (i + 1) (b :: c :: rest)
  | _, _ => []

/-- The first of the smallest. -/
def smallest (m : ThinningMeasure A L) : List (A × Nat) → Option (A × Nat)
  | [] => none
  | t :: ts =>
    match smallest m ts with
    | none => some t
    | some u => if m.areaLE t.1 u.1 then some t else some u

/-- Drop at most `k` vertices, measuring all triangles each time. -/
def runNaively (m : ThinningMeasure A L) (stop : Nat) : Nat → L → List Point → List Point
  | 0, _, ps => ps
  | k + 1, length, ps =>
    match smallest m (triangles m 0 ps) with
    | none => ps
    | some (_, i) =>
      if ps.length < stop || m.longEnough length (ps.length - 1) then ps
      else
        match ps[i - 1]?, ps[i]?, ps[i + 1]? with
        | some a, some b, some c =>
          runNaively m stop k (m.shortcut length a b c) (ps.eraseIdx i)
        | _, _, _ => ps

end Thinning

/-- The vertices that are left, measuring all triangles each time. -/
def thinNaively (m : ThinningMeasure A L) (stop : Nat) (points : List Point) : List Point :=
  Thinning.runNaively m stop (points.length - 2) (m.total points) points

/-! ## Measuring points -/

/-- The whole part of the square root of `n`, by binary digits from the `k`th down. -/
def sqrtBits (n : Nat) : Nat → Nat → Nat
  | 0, r => r
  | k + 1, r =>
    let t := r + 1 <<< k
    sqrtBits n k (if t * t ≤ n then t else r)

/-- The number nearest to the square root of `n`, for `n` below `2 ^ 80`.  The root is taken with
sixty binary places; a last bit tells whether anything is left. -/
def sqrtNearest (n : Nat) : Float :=
  let scaled := n <<< 120
  let r := sqrtBits scaled 101 0
  let sticky := if r * r = scaled then 0 else 1
  Float.ofNat (2 * r + sticky) / Float.ofNat (1 <<< 61)

namespace Point

/-- The distance between two points, to the nearest number. -/
def distance (a b : Point) : Float :=
  let dx := a.x.toInt - b.x.toInt
  let dy := a.y.toInt - b.y.toInt
  sqrtNearest (dx * dx + dy * dy).toNat

/-- The area of a triangle, in floating point. -/
def triangleArea (a b c : Point) : Float :=
  let ax := Float.ofInt a.x.toInt
  let ay := Float.ofInt a.y.toInt
  let bx := Float.ofInt b.x.toInt
  let byy := Float.ofInt b.y.toInt
  let cx := Float.ofInt c.x.toInt
  let cy := Float.ofInt c.y.toInt
  ((bx - ax) * (cy - ay) - (cx - ax) * (byy - ay)).abs / 2.0

/-- The length of a path. -/
def pathLength (ps : List Point) : Float :=
  (ps.zip ps.tail).foldl (fun sum s => sum + distance s.1 s.2) 0.0

end Point

/-- How vertices are thinned for display. -/
structure Simplifier where
  pixelsPerTile : Int := 256

namespace Simplifier

/-- The shortest average segment worth keeping at a level. -/
def minimumDensity (s : Simplifier) (level : TileLevel) : Float :=
  Float.ofInt (level.tileSize.tdiv (max s.pixelsPerTile 1))

/-- Areas compare by their bits: they are not negative. -/
def measure (density : Float) : ThinningMeasure Nat Float where
  area a b c := (a.triangleArea b c).toBits.toNat
  areaLE a b := a ≤ b
  total := Point.pathLength
  shortcut length a b c := length + (a.distance c - a.distance b - b.distance c)
  longEnough length segments := density ≤ length / Float.ofNat segments

/-- What is too small to matter disappears: a ring of fewer than four points, a line of fewer than
two, or of two that are close together. -/
def accept (density : Float) (closed : Bool) (points : List Point) : Option (List Point) :=
  if closed then (if 4 ≤ points.length then some points else none)
  else
    match points with
    | [] => none
    | [_] => none
    | [a, b] => if a.distance b < density then none else some points
    | _ => some points

/-- The line or ring thinned for a level. -/
def simplify (s : Simplifier) (level : TileLevel) (closed : Bool) (points : List Point) :
    Option (List Point) :=
  let density := s.minimumDensity level
  if points.length < 3 then accept density closed points
  else accept density closed (thin (measure density) (points.length >>> level.val) points)

/-- A shape goes with its outer ring; a hole that disappears leaves no trace. -/
def simplifyShape (s : Simplifier) (level : TileLevel) (shape : Shape) : Option Shape :=
  (s.simplify level true shape.outer).map fun outer =>
    ⟨outer, shape.holes.filterMap (s.simplify level true)⟩

end Simplifier

/-- A geometry for display at a level, if anything of it remains.  The finest level shows
everything. -/
def Geometry.simplify (g : Geometry) (s : Simplifier) (level : TileLevel) : Option Geometry :=
  if level = .finest then some g
  else
    match g with
    | point _ => some g
    | multiPoint _ => some g
    | line ps => (s.simplify level false ps).map line
    | area shapes =>
      match shapes.filterMap (s.simplifyShape level) with
      | [] => none
      | kept => some (area kept)

end TileAtlas
