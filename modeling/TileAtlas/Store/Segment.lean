import TileAtlas.Store.Op
/-!
# Segments

A segment is a sorted run of entries that never changes.  An entry is a value or a deletion marker,
which hides values of older segments.  What is known about a segment without opening it is its
**description**.

`shadow` lays newer entries over older ones, and `live` is what then shows.
-/
namespace TileAtlas

structure SegmentMeta where
  id : Nat
  /-- Segments of level 0 may overlap one another. -/
  level : Nat
  smallest : Bytes
  largest : Bytes
  size : Nat
  /-- The number of entries, deletion markers included. -/
  entries : Nat
  deletions : Nat
  /-- The numbers of the oldest and the newest write in it. -/
  oldestWrite : Nat
  newestWrite : Nat
deriving DecidableEq

/-- A value, or the marker of a deletion. -/
abbrev Entry := Option Bytes

abbrev EntryTable := Std.ExtTreeMap Bytes Entry

structure Segment where
  info : SegmentMeta
  entries : EntryTable

def entrySize (e : Bytes × Entry) : Nat := e.1.length + (e.2.elim 0 List.length)

/-- A segment of some entries; no entries make no segment. -/
def Segment.build (id level : Nat) (writes : Nat × Nat) (entries : EntryTable) : Option Segment :=
  let es := entries.toList
  match es.head?, es.getLast? with
  | some first, some last =>
    some
      { info :=
          { id := id, level := level, smallest := first.1, largest := last.1
            size := es.foldl (fun n e => n + entrySize e) 0, entries := es.length
            deletions := (es.filter (·.2.isNone)).length
            oldestWrite := writes.1, newestWrite := writes.2 }
        entries := entries }
  | _, _ => none

/-- Newer entries laid over older ones, both in the order of keys. -/
def shadow : List (Bytes × Entry) → List (Bytes × Entry) → List (Bytes × Entry)
  | [], older => older
  | newer, [] => newer
  | (k, e) :: newer, (l, f) :: older =>
    match compare k l with
    | .lt => (k, e) :: shadow newer ((l, f) :: older)
    | .eq => (k, e) :: shadow newer older
    | .gt => (l, f) :: shadow ((k, e) :: newer) older
termination_by newer older => newer.length + older.length

/-- What shows of some entries: the values. -/
def live (es : List (Bytes × Entry)) : List Pair := es.filterMap fun e => e.2.map fun v => (e.1, v)

end TileAtlas
