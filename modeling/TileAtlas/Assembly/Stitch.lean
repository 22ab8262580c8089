import TileAtlas.Point
/-!
# Stitching paths into rings

A path that ends where it begins is a ring already.  Of the others, one is extended at its end by
the first path that has an end there, turned around if need be, until it closes; then the next ring
begins with what is left.

A ring needs four points, and a path two.  When a path cannot be extended, or a ring is too short,
there are no rings at all.
-/
namespace TileAtlas

/-- A path of points. -/
abbrev Path := List Point

namespace Path

def isClosed (p : Path) : Bool := decide (1 < p.length) && p.head? == p.getLast?

/-- Whether a path begins or ends at a point. -/
def hasEnd (place : Point) (p : Path) : Bool := p.head? == some place || p.getLast? == some place

/-- The path, from whichever end is the given point. -/
def startingAt (start : Point) (p : Path) : Path := if p.head? = some start then p else p.reverse

end Path

namespace Stitch

/-- Take out the item at a place; the last one moves there. -/
def takeAt (as : List α) (i : Nat) : Option (α × List α) :=
  match as[i]?, as.getLast? with
  | some a, some last => some (a, (as.set i last).dropLast)
  | _, _ => none

theorem length_of_takeAt {as rest : List α} {a : α} {i : Nat} (h : takeAt as i = some (a, rest)) :
    rest.length + 1 = as.length := by
  unfold takeAt at h
  split at h
  · rename_i ha _
    simp only [Option.some.injEq, Prod.mk.injEq] at h
    have : 0 < as.length := List.length_pos_of_mem (List.mem_of_getElem? ha)
    simp [← h.2]
    omega
  · simp at h

/-- The first path with an end at a point, and the other paths. -/
def takeMeeting (tail : Point) (parts : List Path) : Option (Path × List Path) :=
  match parts.findIdx? (Path.hasEnd tail) with
  | some i => takeAt parts i
  | none => none

theorem length_of_takeMeeting {tail : Point} {parts rest : List Path} {p : Path}
    (h : takeMeeting tail parts = some (p, rest)) : rest.length + 1 = parts.length := by
  unfold takeMeeting at h
  split at h
  · exact length_of_takeAt h
  · cases h

/-- Extend a path until it closes; also the paths that were not needed. -/
def closeUp (chain : Path) (parts : List Path) : Option (Path × List Path) :=
  if chain.isClosed then some (chain, parts)
  else
    match chain.getLast? with
    | none => none
    | some tail =>
      match _h : takeMeeting tail parts with
      | none => none
      | some (next, rest) => closeUp (chain ++ (next.startingAt tail).tail) rest
termination_by parts.length
decreasing_by have := length_of_takeMeeting _h; omega

theorem length_of_closeUp {chain ring : Path} {parts rest : List Path}
    (h : closeUp chain parts = some (ring, rest)) : rest.length ≤ parts.length := by
  fun_induction closeUp chain parts with
  | case1 => simp_all
  | case2 => simp at h
  | case3 => simp at h
  | case4 chain parts _ tail _ next others hm ih =>
    have := length_of_takeMeeting hm
    have := ih h
    omega

/-- Close the last path, then the last of those that are left, and so on. -/
def closeAll (parts : List Path) : Option (List Path) :=
  match _h : parts.getLast? with
  | none => some []
  | some chain =>
    match _c : closeUp chain parts.dropLast with
    | none => none
    | some (ring, rest) => (closeAll rest).map (ring :: ·)
termination_by parts.length
decreasing_by
  have := length_of_closeUp _c
  have : 0 < parts.length := List.length_pos_of_mem (List.mem_of_getLast? _h)
  simp only [List.length_dropLast] at *
  omega

/-- The rings of some paths: those that are closed already, then those stitched together. -/
def rings? (parts : List Path) : Option (List Path) :=
  if parts.any (·.length < 2) then none
  else
    match closeAll (parts.filter (!·.isClosed)) with
    | none => none
    | some stitched =>
      let rings := parts.filter Path.isClosed ++ stitched
      if rings.all (4 ≤ ·.length) then some rings else none

end Stitch
end TileAtlas
