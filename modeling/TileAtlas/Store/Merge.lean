import TileAtlas.ElementId
import TileAtlas.Store.Column
/-!
# Merging

Two columns take changes without being read first.  The column of references keeps, for an element,
how often each other element was added to and removed from it; the column of tile counts keeps a
number, modulo two to the sixty-fourth.  Such changes may come in any order.

A referrer belongs to the set while its count is positive, and a count that a change brings back to
zero is dropped.
-/
namespace TileAtlas

/-- Which bytes were to be merged. -/
inductive MergePart where
  | counterValue
  | counterOperand
  | referenceSet
  | referenceOperand
deriving DecidableEq

def MergePart.name : MergePart → String
  | counterValue => "counter value"
  | counterOperand => "counter operand"
  | referenceSet => "reference set"
  | referenceOperand => "reference operand"

/-- The bytes are not so many times the width of a record. -/
structure MergeError where
  what : MergePart
  length : Nat
  width : Nat
deriving DecidableEq

def MergeError.message (e : MergeError) : String :=
  s!"{e.what.name} of {e.length} bytes is not a multiple of {e.width}"

/-- Cut `n` pieces of `width` bytes. -/
def Bytes.pieces (width : Nat) : Nat → Bytes → List Bytes
  | 0, _ => []
  | n + 1, bs => bs.take width :: pieces width n (bs.drop width)

/-! ## Counters -/

namespace Counter

def encode (n : UInt64) : Bytes := Bytes.ofNatLE 8 n.toNat

def decode (what : MergePart) (bs : Bytes) : Except MergeError UInt64 :=
  if bs.length = 8 then .ok (UInt64.ofNat (Bytes.toNatLE bs)) else .error ⟨what, bs.length, 8⟩

/-- The operand that adds a number, possibly negative. -/
def operand (delta : Int) : Bytes := encode (UInt64.ofInt delta)

def merge (existing : Option Bytes) (operand : Bytes) : Except MergeError Bytes := do
  let n ← match existing with
    | none => pure 0
    | some bs => decode .counterValue bs
  let d ← decode .counterOperand operand
  return encode (n + d)

end Counter

/-! ## Sets of references -/

/-- How often each element was added, less how often it was removed. -/
abbrev ReferenceCounts := Std.ExtTreeMap ElementId Int64

namespace ReferenceCounts

/-- A record: an element and a count, most significant bytes first. -/
def encodeRecord (r : ElementId × Int64) : Bytes :=
  r.1.key ++ Bytes.ofNatBE 8 r.2.toUInt64.toNat

def decodeRecord (bs : Bytes) : ElementId × Int64 :=
  (⟨UInt64.ofNat (Bytes.toNatBE (bs.take 8))⟩,
    (UInt64.ofNat (Bytes.toNatBE (bs.drop 8))).toInt64)

def encode (counts : ReferenceCounts) : Bytes := counts.toList.flatMap encodeRecord

/-- Records of one element add up. -/
def add (counts : ReferenceCounts) (r : ElementId × Int64) : ReferenceCounts :=
  counts.insert r.1 (counts.getD r.1 0 + r.2)

def decode (what : MergePart) (bs : Bytes) : Except MergeError ReferenceCounts :=
  if bs.length % 16 ≠ 0 then .error ⟨what, bs.length, 16⟩
  else .ok (((Bytes.pieces 16 (bs.length / 16) bs).map decodeRecord).foldl add ∅)

/-- A count changed; back at zero it is dropped. -/
def change (counts : ReferenceCounts) (r : ElementId × Int64) : ReferenceCounts :=
  let n := counts.getD r.1 0 + r.2
  if n = 0 then counts.erase r.1 else counts.insert r.1 n

def apply (counts delta : ReferenceCounts) : ReferenceCounts := delta.toList.foldl change counts

/-- The elements whose counts are positive, ascending. -/
def members (counts : ReferenceCounts) : List ElementId :=
  counts.toList.filterMap fun r => if 0 < r.2 then some r.1 else none

/-- The operand that adds one element. -/
def adding (id : ElementId) : Bytes := encodeRecord (id, 1)

/-- The operand that removes one element. -/
def removing (id : ElementId) : Bytes := encodeRecord (id, -1)

def merge (existing : Option Bytes) (operand : Bytes) : Except MergeError Bytes := do
  let counts ← match existing with
    | none => pure ∅
    | some bs => decode .referenceSet bs
  let delta ← decode .referenceOperand operand
  return (counts.apply delta).encode

end ReferenceCounts

/-! ## The columns that merge -/

inductive MergeOperator where
  | referenceSet
  | counter
deriving DecidableEq

def MergeOperator.merge : MergeOperator → Option Bytes → Bytes → Except MergeError Bytes
  | referenceSet => ReferenceCounts.merge
  | counter => Counter.merge

def Column.mergeOperator? : Column → Option MergeOperator
  | .references => some .referenceSet
  | .tileCounts => some .counter
  | _ => none

end TileAtlas
