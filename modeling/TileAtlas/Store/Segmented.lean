import TileAtlas.Store.Segment
/-!
# A store of segments

Writes go to a table in memory.  `flush` freezes it into a segment of level 0, and `compact`
lays a column out anew in segments of level 1 that do not overlap and hold no deletion markers.
Reading asks the table in memory, then level 0 from the newest segment to the oldest, then the
deeper levels; the first source that knows a key answers.

Every write gets the next number.  A deletion of a range marks the keys that show at that moment.
-/
namespace TileAtlas

structure ColumnState where
  memory : EntryTable := ∅
  /-- The numbers of the oldest and the newest write in memory. -/
  memoryWrites : Option (Nat × Nat) := none
  /-- The oldest segment first. -/
  level0 : List Segment := []
  levels : Std.ExtTreeMap Nat (List Segment) := ∅

namespace ColumnState

def deeper (s : ColumnState) : List Segment := s.levels.toList.flatMap (·.2)

/-- The sources of entries, each before those that it hides. -/
def sources (s : ColumnState) : List EntryTable :=
  s.memory :: (s.level0.reverse ++ s.deeper).map (·.entries)

def get (s : ColumnState) (k : Bytes) : Option Bytes := (s.sources.findSome? (·[k]?)).join

/-- The pairs that show in a range. -/
def visibleIn (s : ColumnState) (r : KeyRange) : List Pair :=
  live ((s.sources.map fun t => t.toList.filter fun e => r.contains e.1).foldr shadow [])

def segments (s : ColumnState) : List Segment := s.level0 ++ s.deeper

def noteWrite (s : ColumnState) (n : Nat) : ColumnState :=
  { s with memoryWrites := some ((s.memoryWrites.elim n (·.1)), n) }

/-- The numbers of the oldest and the newest write of the column. -/
def writeSpan (s : ColumnState) : Nat × Nat :=
  match s.segments.map (fun g => (g.info.oldestWrite, g.info.newestWrite))
      ++ s.memoryWrites.toList with
  | [] => (0, 0)
  | w :: ws => ws.foldl (fun a b => (min a.1 b.1, max a.2 b.2)) w

def remember (s : ColumnState) (k : Bytes) (e : Entry) : ColumnState :=
  { s with memory := s.memory.insert k e }

end ColumnState

structure SegmentedStore where
  /-- A column that was never written to has no state. -/
  columns : Columns (Option ColumnState) := .const none
  lastSegment : Nat := 0
  lastWrite : Nat := 0

namespace SegmentedStore

def empty : SegmentedStore := {}

def column (s : SegmentedStore) (c : Column) : ColumnState := (s.columns.get c).getD {}

def setColumn (s : SegmentedStore) (c : Column) (state : ColumnState) : SegmentedStore :=
  { s with columns := s.columns.set c (some state) }

def get (s : SegmentedStore) (c : Column) (k : Bytes) : Option Bytes := (s.column c).get k

def scan (s : SegmentedStore) (c : Column) (r : KeyRange) : List Pair := (s.column c).visibleIn r

def reader (s : SegmentedStore) : Reader where
  get c k := .ok (s.get c k)
  scan c r o := .ok (o.arrange (s.scan c r))

/-! ## Writing -/

def applyOp (s : SegmentedStore) (op : Op) : Except StoreError SegmentedStore :=
  let n := s.lastWrite + 1
  let c := op.column
  let state := (s.column c).noteWrite n
  let s := { s with lastWrite := n }
  match op with
  | .put _ k v => .ok (s.setColumn c (state.remember k (some v)))
  | .delete _ k => .ok (s.setColumn c (state.remember k none))
  | .deleteRange _ r =>
    .ok (s.setColumn c ((state.visibleIn r).foldl (fun st p => st.remember p.1 none) state))
  | .merge _ k d =>
    match c.merge (state.get k) d with
    | .ok v => .ok (s.setColumn c (state.remember k (some v)))
    | .error e => .error e

/-- A batch that fails changes nothing. -/
def write (s : SegmentedStore) (b : Batch) : Except StoreError SegmentedStore := b.foldlM applyOp s

/-! ## Upkeep -/

/-- Freeze the memory of one column.  Each column that was ever written to uses up a segment
number. -/
def flushColumn (s : SegmentedStore) (c : Column) : SegmentedStore :=
  match s.columns.get c with
  | none => s
  | some state =>
    let id := s.lastSegment + 1
    let frozen := Segment.build id 0 (state.memoryWrites.getD (0, 0)) state.memory
    { s with lastSegment := id }.setColumn c
      { state with
        memory := ∅, memoryWrites := none, level0 := state.level0 ++ frozen.toList }

def flush (s : SegmentedStore) : SegmentedStore := Column.all.foldl flushColumn s

/-- Cut a list into runs of at most `per + 1`. -/
def runsOf (per : Nat) : Nat → List Pair → List (List Pair)
  | 0, _ => []
  | _ + 1, [] => []
  | fuel + 1, p :: ps => (p :: ps).take (per + 1) :: runsOf per fuel (ps.drop per)

/-- Lay a column out anew in segments of level 1 with at most `per` pairs each. -/
def compact (s : SegmentedStore) (c : Column) (per : Nat) : SegmentedStore :=
  let state := s.column c
  let pairs := state.visibleIn .all
  let runs := runsOf (per - 1) pairs.length pairs
  let span := state.writeSpan
  let built := runs.zipIdx.filterMap fun (run, i) =>
    Segment.build (s.lastSegment + 1 + i) 1 span (.ofList (run.map fun p => (p.1, some p.2)))
  { s with lastSegment := s.lastSegment + runs.length }.setColumn c
    { levels := Std.ExtTreeMap.ofList [(1, built)] }

/-- Install a segment as it is.  Its entries count as the newest writes.  Below level 0 the
segments of a level are kept in the order of their smallest keys. -/
def ingest (s : SegmentedStore) (c : Column) (level : Nat) (entries : List (Bytes × Entry)) :
    SegmentedStore :=
  let table : EntryTable := .ofList entries
  let id := s.lastSegment + 1
  let newest := s.lastWrite + table.size
  let s' := { s with lastSegment := id }
  match Segment.build id level (s.lastWrite + 1, newest) table with
  | none => s'
  | some g =>
    let state := s.column c
    let state :=
      if level = 0 then { state with level0 := state.level0 ++ [g] }
      else
        let there := state.levels.getD level []
        { state with
          levels := state.levels.insert level
            ((there ++ [g]).mergeSort fun a b => !decide (b.info.smallest < a.info.smallest)) }
    { s' with lastWrite := newest }.setColumn c state

end SegmentedStore
end TileAtlas
