import TileAtlas.Scan.IntervalTree
import TileAtlas.Scan.Run
import TileAtlas.Store
/-!
# Walking a column in pieces

A piece is a range of a column's keys.  A piece that is heavy enough splits in two, at a key that
sixteen halvings find between the two halves of its weight; only descriptions of segments are
consulted, so a wrong description makes the pieces uneven and nothing else.

A cursor walks a piece and can still hand off the upper part of what it has not visited yet.
-/
namespace TileAtlas

structure ScanPlan where
  tree : IntervalTree Float
  /-- Pieces lighter than twice this are not split. -/
  minSplit : Float

namespace ScanPlan

def defaultMinSplit : Float := 1024.0

/-- The interval of a segment, weighing as much as it has entries. -/
def intervalOf (s : SegmentMeta) : Interval Float :=
  let low := KeyNumber.ofKey s.smallest
  ⟨low, max low (KeyNumber.ofKey s.largest), Nat.le_max_left .., Float.ofNat s.entries⟩

def ofRuns (runs : List SortedRun) (minSplit : Float) : ScanPlan :=
  ⟨.build ((runs.flatMap (·.segments)).map intervalOf), minSplit⟩

def bounds (r : KeyRange) : Nat × Nat :=
  (KeyNumber.ofKey r.start, r.stop.elim KeyNumber.last KeyNumber.ofKey)

/-- The weight of the keys of a range. -/
def weightIn [Weight α] (t : IntervalTree α) (r : KeyRange) : α :=
  let (lo, hi) := bounds r
  t.weight lo hi

def weight (p : ScanPlan) (r : KeyRange) : Float := weightIn p.tree r

/-- Halve from `left` to `right` so often, keeping the place where the weight from `lo` on reaches
a goal. -/
def bisect (p : ScanPlan) (lo : Nat) (goal : Float) : Nat → Nat → Nat → Nat
  | 0, left, right => KeyNumber.midpoint left right
  | n + 1, left, right =>
    let mid := KeyNumber.midpoint left right
    if p.tree.weight lo mid < goal then p.bisect lo goal n mid right
    else p.bisect lo goal n left mid

def bisectionSteps : Nat := 16

/-- The key between the two halves of a range, if the range is to be split. -/
def splitKey? (p : ScanPlan) (r : KeyRange) : Option Bytes :=
  let (lo, hi) := bounds r
  let total := p.tree.weight lo hi
  if total < 2.0 * p.minSplit then none
  else
    match p.tree.extent? with
    | none => none
    | some (low, high) =>
      let left := max lo low
      let right := min hi (min (high + 1) KeyNumber.last)
      if right ≤ left then none
      else
        let split := p.bisect lo (total / 2.0) bisectionSteps left right
        if lo < split && split < hi then some (KeyNumber.toKey split) else none

end ScanPlan

/-- A range of a column, to be walked by one worker. -/
structure Piece where
  plan : ScanPlan
  /-- The pairs of the column from a key on. -/
  pairsFrom : Bytes → List Pair
  range : KeyRange

namespace Piece

/-- A range of a column of a snapshot, in one piece. -/
def plan? (s : Snapshot) (c : Column) (range : KeyRange) (minSplit : Float) :
    Except ScanError Piece :=
  match SortedRun.classify c (s.segments c) with
  | .ok runs => .ok ⟨.ofRuns runs minSplit, s.pairsFrom c, range⟩
  | .error e => .error e

/-- A whole column of a snapshot, in one piece. -/
def whole? (s : Snapshot) (c : Column) : Except ScanError Piece :=
  plan? s c .all ScanPlan.defaultMinSplit

def estimate (p : Piece) : Float := p.plan.weight p.range

/-- The lower and the upper part. -/
def trySplit (p : Piece) : Option (Piece × Piece) :=
  (p.plan.splitKey? p.range).map fun k =>
    ({ p with range := ⟨p.range.start, some k⟩ }, { p with range := ⟨k, p.range.stop⟩ })

/-- The pieces after splitting up to so many times over. -/
def splitDeep : Nat → Piece → List Piece
  | 0, p => [p]
  | n + 1, p =>
    match p.trySplit with
    | none => [p]
    | some (lower, upper) => splitDeep n lower ++ splitDeep n upper

end Piece

structure Cursor where
  piece : Piece
  /-- The pairs still to come, once the walk has begun. -/
  ahead : Option (List Pair) := none
  done : Bool := false

namespace Cursor

def ofPiece (p : Piece) : Cursor := { piece := p }

/-- Step to the next pair.  What was visited leaves the range: the key right after a key is that
key and a zero byte. -/
def next (c : Cursor) : Option Pair × Cursor :=
  if c.done then (none, c)
  else
    match c.ahead.getD (c.piece.pairsFrom c.piece.range.start) with
    | p :: ps =>
      if c.piece.range.contains p.1 then
        (some p,
          { c with
            piece := { c.piece with range := { c.piece.range with start := p.1 ++ [0] } }
            ahead := some ps })
      else (none, { c with ahead := some ps, done := true })
    | [] => (none, { c with ahead := some [], done := true })

/-- Step at most so many times. -/
def take : Nat → Cursor → List Pair × Cursor
  | 0, c => ([], c)
  | n + 1, c =>
    match c.next with
    | (none, c) => ([], c)
    | (some p, c) =>
      let (ps, c) := take n c
      (p :: ps, c)

/-- The number of steps after which a cursor is surely done. -/
def stepBound (c : Cursor) : Nat :=
  (c.ahead.getD (c.piece.pairsFrom c.piece.range.start)).length + 1

def takeAll (c : Cursor) : List Pair × Cursor := c.take c.stepBound

def estimateRemaining (c : Cursor) : Float := if c.done then 0.0 else c.piece.estimate

/-- Hand off the upper part of what is not visited. -/
def trySplit (c : Cursor) : Option (Cursor × Piece) :=
  if c.done then none
  else c.piece.trySplit.map fun (lower, upper) => ({ c with piece := lower }, upper)

end Cursor

/-- The pairs of a piece, in order. -/
def Piece.pairs (p : Piece) : List Pair := (Cursor.ofPiece p).takeAll.1

end TileAtlas
