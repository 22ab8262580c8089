import TileAtlas.Bytes
/-!
# Ranges of keys

A range holds the keys from its start up to, and without, its end; without an end it goes on for
ever.  The keys that begin with some bytes are a range: it ends at the least key above all of them,
if there is one.
-/
namespace TileAtlas

/-- The least key above all keys that begin with `p`; bytes that are all 255 have none. -/
def Bytes.above? : Bytes → Option Bytes
  | [] => none
  | b :: bs =>
    match above? bs with
    | some u => some (b :: u)
    | none => if b = 255 then none else some [b + 1]

structure KeyRange where
  start : Bytes := []
  stop : Option Bytes := none
deriving DecidableEq

namespace KeyRange

/-- Every key. -/
def all : KeyRange := {}

def startingAt (start : Bytes) : KeyRange := ⟨start, none⟩

/-- The keys that begin with some bytes. -/
def beginningWith (p : Bytes) : KeyRange := ⟨p, p.above?⟩

/-- Whether a key lies before the end. -/
def beforeStop (r : KeyRange) (k : Bytes) : Bool :=
  match r.stop with
  | none => true
  | some e => k < e

def contains (r : KeyRange) (k : Bytes) : Bool := !decide (k < r.start) && r.beforeStop k

end KeyRange

/-- The way to list a range. -/
inductive ScanOrder where
  | ascending
  | descending
deriving DecidableEq

def ScanOrder.arrange (o : ScanOrder) (as : List α) : List α :=
  match o with
  | ascending => as
  | descending => as.reverse

end TileAtlas
