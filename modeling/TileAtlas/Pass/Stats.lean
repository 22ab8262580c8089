import TileAtlas.Pass.Basic
/-!
# Counting what an index holds
-/
namespace TileAtlas

structure IndexStats where
  nodes : Nat := 0
  ways : Nat := 0
  relations : Nat := 0
  coastlines : Nat := 0
  /-- What is left of deleted elements. -/
  deleted : Nat := 0
  /-- The tiles that hold something. -/
  tiles : Nat := 0
  memberships : Nat := 0
  dirtyTiles : Nat := 0
  dirtyElements : Nat := 0
deriving DecidableEq

namespace IndexStats

/-- Count an element, by its kind unless it is deleted. -/
def countElement (s : IndexStats) (e : Element) : IndexStats :=
  if e.visible then
    match e.id.kind with
    | .node => { s with nodes := s.nodes + 1 }
    | .way => { s with ways := s.ways + 1 }
    | .relation => { s with relations := s.relations + 1 }
    | .coastline => { s with coastlines := s.coastlines + 1 }
  else { s with deleted := s.deleted + 1 }

def ofElements (es : List Element) : IndexStats := es.foldl countElement {}

/-- How often something begins that differs from what comes before it. -/
def countRuns [BEq α] : List α → Nat
  | a :: b :: rest => (if a == b then 0 else 1) + countRuns (b :: rest)
  | [_] => 1
  | [] => 0

def ofSnapshot (s : Snapshot) : Except PassError IndexStats := do
  let piece ← (Piece.whole? s .elements).mapError .scan
  let elements ← (piece.mapElements .ok).mapError .index
  let memberships ← ((s.pairsFrom .tiles []).mapM fun p => Membership.ofKey p.1).mapError .index
  let dirtyTiles ← (DirtyTiles.count s.reader).mapError .index
  let dirtyElements ← (DirtyElements.count s.reader).mapError .index
  return { ofElements elements with
    tiles := countRuns (memberships.map (·.tile)), memberships := memberships.length
    dirtyTiles := dirtyTiles, dirtyElements := dirtyElements }

end IndexStats

def Atlas.stats (a : Atlas) : Except PassError IndexStats :=
  match a.store.snapshot with
  | .ok s => IndexStats.ofSnapshot s
  | .error e => .error (.index (.store e))

end TileAtlas
