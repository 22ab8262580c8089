import TileAtlas.Store.Op
import TileAtlas.Store.Segment
/-!
# A store of sorted tables

One sorted table for each column, in a file or private to its owner.  A column counts as one
segment without deletion markers.  A snapshot is read a page at a time: each page begins right after
the last key of the page before, and the key right after a key is that key and a zero byte.
-/
namespace TileAtlas

structure FlatStore where
  contents : Contents := .empty
  /-- Whether others may look at it: only a file can be shared. -/
  shared : Bool

namespace FlatStore

def write (s : FlatStore) (b : Batch) : Except StoreError FlatStore := do
  return { s with contents := ← s.contents.apply b }

def reader (s : FlatStore) : Reader := s.contents.reader

/-- The description of a column as one segment. -/
def segments (s : FlatStore) (c : Column) : List SegmentMeta :=
  let pairs := (Columns.get s.contents c).toList
  match pairs.head?, pairs.getLast? with
  | some first, some last =>
    [{ id := c.number, level := 1, smallest := first.1, largest := last.1
       size := pairs.foldl (fun n p => n + (p.1.length + p.2.length)) 0, entries := pairs.length
       deletions := 0, oldestWrite := 0, newestWrite := 0 }]
  | _, _ => []

end FlatStore

namespace Table

/-- The first rows from a key on. -/
def firstRows (t : Table) (start : Bytes) (limit : Nat) : List Pair :=
  (t.scan (.startingAt start)).take limit

/-- The rows of a page. -/
def pageSize : Nat := 1024

end Table

/-- A walk over the rows of a table, of which one page at a time is read. -/
structure PagedWalk where
  table : Table
  /-- What is left of the page that was read last. -/
  page : List Pair := []
  /-- Where the next page begins.  After a page that is not full there is no next one. -/
  nextStart : Option Bytes

namespace PagedWalk

/-- A walk from a key on, before the first page. -/
def startingAt (t : Table) (start : Bytes) : PagedWalk := { table := t, nextStart := some start }

/-- Step to the next row.  A page is read when the one before is used up. -/
def next (limit : Nat) (w : PagedWalk) : Option Pair × PagedWalk :=
  match w.page, w.nextStart with
  | p :: page, _ => (some p, { w with page := page })
  | [], none => (none, w)
  | [], some start =>
    let rows := w.table.firstRows start limit
    let nextStart := if rows.length = limit then rows.getLast?.map fun last => last.1 ++ [0] else none
    (rows.head?, { w with page := rows.tail, nextStart := nextStart })

/-- Step at most so many times. -/
def take (limit : Nat) : Nat → PagedWalk → List Pair × PagedWalk
  | 0, w => ([], w)
  | n + 1, w =>
    match w.next limit with
    | (none, w) => ([], w)
    | (some p, w) =>
      let (ps, w) := take limit n w
      (p :: ps, w)

end PagedWalk

/-- The rows from a key on, as a walk lists them; one step more than there are rows is its end. -/
def Table.rowsFrom (t : Table) (start : Bytes) : List Pair :=
  ((PagedWalk.startingAt t start).take pageSize (t.size + 1)).1

end TileAtlas
