import TileAtlas.Index.Elements
import TileAtlas.Scan.Piece
import TileAtlas.Update
/-!
# Passes over a whole index

A pass walks the column of elements in pieces, which may be worked on apart.  It reads a snapshot,
so that it does not see what it writes itself, and writes as it goes: a pass that fails half way
leaves what it wrote before.
-/
namespace TileAtlas

inductive PassError where
  | scan (source : ScanError)
  | index (source : IndexError)
deriving DecidableEq

def PassError.message : PassError → String
  | scan e => e.message
  | index e => e.message

/-- How a piece is divided among workers: into which parts, in the order in which they finish. -/
abbrev Division := Piece → List Piece

/-- One worker does it all. -/
def Division.whole : Division := fun p => [p]

/-- A pass changes a store and may fail on the way. -/
abbrev Pass (α : Type) := ExceptT PassError (StateM Store) α

namespace Pass

/-- A step that only reads. -/
def of (r : Except PassError α) : Pass α := ExceptT.mk (pure r)

def ofIndex (r : Except IndexError α) : Pass α := of (r.mapError .index)

def write (b : Batch) : Pass Unit := ExceptT.mk fun store =>
  match store.write b with
  | .ok store => (.ok (), store)
  | .error e => (.error (.index (.store e)), store)

def snapshot : Pass Snapshot := ExceptT.mk fun store =>
  (store.snapshot.mapError fun e => .index (.store e), store)

/-- The column of elements in one piece. -/
def elements (s : Snapshot) : Pass Piece := of ((Piece.whole? s .elements).mapError .scan)

/-- Work on pieces one after another. -/
def each (work : Piece → Pass α) (pieces : List Piece) : Pass (List α) := pieces.mapM work

/-- Do a pass on an index; it is also told what the index is afterwards. -/
def runOn (p : Pass α) (a : Atlas) : Except PassError α × Atlas :=
  let (result, store) := (ExceptT.run p).run a.store
  (result, { a with store := store })

end Pass

/-- What a piece yields, element by element, in the order of keys. -/
def Piece.mapElements (p : Piece) (f : Element → Except IndexError α) :
    Except IndexError (List α) :=
  p.pairs.mapM fun pair => do f (← Elements.ofPair pair)

end TileAtlas
