import TileAtlas.Pass.Basic
/-!
# Verifying an index

For every element, what the columns say of it is held against its record: the number and the list
of its tiles and its memberships must agree with one another and with a fresh placement, its
memberships must all hold the feature or all be markers, markers need the feature outside, and
everything that a visible element is made of must know of it.
-/
namespace TileAtlas

inductive Problem where
  | countMismatch (count : UInt64) (recorded memberships : Nat)
  | missingMembership (tile : TilePosition)
  | mixedStorageForm
  | missingCanonicalPayload
  | staleTileSet (expected : TileSet)
  | missingReference (referent : ElementId)

def Problem.message : Problem → String
  | countMismatch count recorded memberships =>
    s!"tile count {count}, {recorded} recorded tiles, {memberships} memberships"
  | missingMembership t => s!"no membership entry in tile {t.text}"
  | mixedStorageForm => "tiles mix inline payloads and markers"
  | missingCanonicalPayload => "reference markers without a payload"
  | staleTileSet expected => s!"recorded tiles differ from the {expected.size} computed ones"
  | missingReference r => s!"{r.text} does not record the element as a referrer"

/-- An element with something wrong about it. -/
structure Issue where
  id : ElementId
  problem : Problem

structure VerifyReport where
  checked : Nat
  /-- In the order of elements. -/
  issues : List Issue

def VerifyReport.isConsistent (r : VerifyReport) : Bool := r.issues.isEmpty

namespace Verify

/-- The numbers of memberships, by element. -/
abbrev MembershipCounts := Std.ExtTreeMap ElementId Nat

def countMemberships (s : Snapshot) : Except IndexError MembershipCounts := do
  let ms ← (s.pairsFrom .tiles []).mapM fun p => Membership.ofKey p.1
  return ms.foldl (fun n m => n.insert m.id (n.getD m.id 0 + 1)) ∅

/-- What is wrong with the payloads that an element's tiles hold, tile by tile. -/
def payloadProblems (tiles : List (TilePosition × Option Bytes)) (external : Option Bytes) :
    List Problem :=
  let payloads := tiles.filterMap (·.2)
  let markers := payloads.any (·.isEmpty)
  (tiles.filterMap fun t => if t.2.isNone then some (.missingMembership t.1) else none)
    ++ (if markers && payloads.any (!·.isEmpty) then [.mixedStorageForm] else [])
    ++ if markers && external.isNone then [.missingCanonicalPayload] else []

/-- What is wrong with an element's tiles. -/
def tileProblems (r : Reader) (id : ElementId) (memberships : Nat) :
    Except IndexError (List Problem) := do
  let count ← TileCounts.get r id
  let recorded ← ElementTiles.get r id
  let tiles := recorded.toList
  let entries ← asking (r.getMany .tiles (tiles.map fun t => Membership.key ⟨t, id⟩))
  let external ← ExternalFeature.get r id
  let agree := count.toNat = recorded.size ∧ count.toNat = memberships
  return (if agree then [] else [.countMismatch count recorded.size memberships])
    ++ payloadProblems (tiles.zip entries) external

/-- What is wrong with the list of an element's tiles. -/
def placementProblems (config : IndexConfig) (r : Reader) (e : Element) :
    Except IndexError (List Problem) := do
  let expected := (← config.place r e).elim (∅ : TileSet) (·.tiles)
  let recorded ← ElementTiles.get r e.id
  return if expected = recorded then [] else [.staleTileSet expected]

/-- What is wrong with the references to what an element is made of. -/
def referenceProblems (l : ReferenceLayout) (r : Reader) (e : Element) :
    Except IndexError (List Problem) :=
  if e.visible then do
    let problems ← e.referents.mapM fun referent => do
      return if (← l.referrers r referent).contains e.id then [] else [.missingReference referent]
    return problems.flatten
  else .ok []

def problems (config : IndexConfig) (r : Reader) (memberships : MembershipCounts) (e : Element) :
    Except IndexError (List Issue) := do
  let tiles ← tileProblems r e.id (memberships.getD e.id 0)
  let placement ← placementProblems config r e
  let references ← referenceProblems config.referenceLayout r e
  return (tiles ++ placement ++ references).map fun p => ⟨e.id, p⟩

def inOrder (issues : List Issue) : List Issue :=
  issues.mergeSort fun a b => a.id.raw ≤ b.id.raw

/-- Check the elements of a snapshot, in pieces. -/
def snapshot (config : IndexConfig) (divide : Division) (s : Snapshot) :
    Except PassError VerifyReport := do
  let memberships ← (countMemberships s).mapError .index
  let piece ← (Piece.whole? s .elements).mapError .scan
  let parts ← (divide piece).mapM fun p =>
    (p.mapElements (problems config s.reader memberships)).mapError .index
  let found := parts.flatten
  return ⟨found.length, inOrder found.flatten⟩

end Verify

/-- Check every element. -/
def Atlas.verify (a : Atlas) : Except PassError VerifyReport :=
  match a.store.snapshot with
  | .ok s => Verify.snapshot a.config .whole s
  | .error e => .error (.index (.store e))

end TileAtlas
