import TileAtlas.Store.Segment
/-!
# Sorted runs

To walk a column, its segments are grouped into runs whose members do not overlap.  Below level 0
every level is one run.  The segments of level 0 are one run if they happen not to overlap, and
otherwise each is a run of its own, the newest first.

That order needs the writes of two segments of level 0 not to interleave, and walking needs
segments without deletion markers; a column that lacks either is refused.
-/
namespace TileAtlas

inductive ScanError where
  | deletionsPresent (column : Column) (segment deletions : Nat)
  | overlapping (column : Column) (level first second : Nat)
  | interleaved (column : Column) (first second : Nat)
  | store (e : StoreError)
deriving DecidableEq

def ScanError.message : ScanError → String
  | deletionsPresent c s n => s!"segment {s} of column {c.title} holds {n} deletion markers"
  | overlapping c l a b => s!"segments {a} and {b} overlap on level {l} of column {c.title}"
  | interleaved c a b =>
    s!"level 0 segments {a} and {b} of column {c.title} interleave sequence numbers"
  | store e => e.message

/-- Segments with disjoint ranges of keys, in the order of keys. -/
structure SortedRun where
  /-- The newest run is 0. -/
  priority : Nat
  segments : List SegmentMeta
deriving DecidableEq

namespace SortedRun

/-- The first two neighbours of which a test holds. -/
def neighbours? (test : α → α → Bool) : List α → Option (α × α)
  | a :: b :: rest => if test a b then some (a, b) else neighbours? test (b :: rest)
  | _ => none

def byKey (ss : List SegmentMeta) : List SegmentMeta :=
  ss.mergeSort fun a b => !decide (b.smallest < a.smallest)

def byOldestWrite (ss : List SegmentMeta) : List SegmentMeta :=
  ss.mergeSort fun a b => a.oldestWrite ≤ b.oldestWrite

def newestFirst (ss : List SegmentMeta) : List SegmentMeta :=
  ss.mergeSort fun a b => b.newestWrite ≤ a.newestWrite

/-- The first two neighbours in key order that overlap. -/
def overlap? (ss : List SegmentMeta) : Option (SegmentMeta × SegmentMeta) :=
  neighbours? (fun a b => !decide (a.largest < b.smallest)) ss

/-- The first two neighbours in the order of writes that interleave. -/
def interleaving? (ss : List SegmentMeta) : Option (SegmentMeta × SegmentMeta) :=
  neighbours? (fun a b => b.oldestWrite ≤ a.newestWrite) ss

/-- The segments of each level, ascending. -/
def levels (ss : List SegmentMeta) : List (Nat × List SegmentMeta) :=
  (ss.foldl (fun (m : Std.ExtTreeMap Nat (List SegmentMeta)) s =>
    m.insert s.level (m.getD s.level [] ++ [s])) ∅).toList

/-- The runs of level 0, given in the order of writes. -/
def level0Runs (ss : List SegmentMeta) : List (List SegmentMeta) :=
  let sorted := byKey ss
  match overlap? sorted with
  | none => [sorted]
  | some _ => (newestFirst sorted).map ([·])

def levelRuns (c : Column) (level : Nat) (ss : List SegmentMeta) :
    Except ScanError (List (List SegmentMeta)) :=
  if level = 0 then .ok (level0Runs (byOldestWrite ss))
  else
    let sorted := byKey ss
    match overlap? sorted with
    | none => .ok [sorted]
    | some (a, b) => .error (.overlapping c level a.id b.id)

/-- Group segments into runs, the newest run first. -/
def classify (c : Column) (ss : List SegmentMeta) : Except ScanError (List SortedRun) :=
  match ss.find? (0 < ·.deletions) with
  | some s => .error (.deletionsPresent c s.id s.deletions)
  | none =>
    match interleaving? (byOldestWrite (ss.filter (·.level = 0))) with
    | some (a, b) => .error (.interleaved c a.id b.id)
    | none => do
      let runs ← (levels ss).mapM fun l => levelRuns c l.1 l.2
      return runs.flatten.zipIdx.map fun r => ⟨r.2, r.1⟩

end SortedRun
end TileAtlas
