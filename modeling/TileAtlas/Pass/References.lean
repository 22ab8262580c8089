import TileAtlas.Pass.Basic
/-!
# Recomputing references

Whatever the column of references holds is replaced by what the visible elements list.
-/
namespace TileAtlas

namespace Pass

/-- The references of an element, if it is visible. -/
def referenceOps (l : ReferenceLayout) (e : Element) : List Op :=
  if e.visible then e.referents.map fun referent => l.add referent e.id else []

/-- Write the references of a piece; also how many there are. -/
def writeReferences (l : ReferenceLayout) (p : Piece) : Pass Nat := do
  let ops := (← ofIndex (p.mapElements fun e => .ok (referenceOps l e))).flatten
  write ops
  return ops.length

def recomputeReferences (l : ReferenceLayout) (divide : Division) : Pass Nat := do
  write [.deleteRange .references .all]
  let piece ← elements (← snapshot)
  return (← each (writeReferences l) (divide piece)).foldl (· + ·) 0

end Pass

/-- Replace all references; also how many there are now. -/
def Atlas.recomputeReferences (a : Atlas) : Except PassError Nat × Atlas :=
  (Pass.recomputeReferences a.config.referenceLayout .whole).runOn a

end TileAtlas
