import TileAtlas.Store.Op
/-!
# Transactions

A transaction collects writes and reads as if they had been made.  For each key that it wrote to
it knows what the value rests on — the value below, a value of its own, or nothing — and the
operands merged since; it also knows the ranges it deleted.  A range that is deleted takes the keys
in it along, so what is known of a key is always younger than the ranges that hold it.
-/
namespace TileAtlas

/-- What the value of a key rests on. -/
inductive Pending.Base where
  /-- The value below, unless it lies in a deleted range. -/
  | inherit
  | value (v : Bytes)
  | deleted
deriving DecidableEq

structure Pending where
  base : Pending.Base
  /-- In the order in which they were merged. -/
  operands : List Bytes := []
deriving DecidableEq

structure Transaction where
  below : Reader
  /-- The writes made so far, the latest one first. -/
  recorded : List Op := []
  overlay : Columns (Std.ExtTreeMap Bytes Pending) := .const ∅
  deletedRanges : Columns (List KeyRange) := .const []

namespace Transaction

def begin (below : Reader) : Transaction := { below := below }

/-- The writes in the order in which they were made. -/
def batch (t : Transaction) : Batch := t.recorded.reverse

/-! ## Writing -/

def pend (t : Transaction) (c : Column) (k : Bytes) (p : Pending) : Transaction :=
  { t with overlay := t.overlay.modify c (·.insert k p) }

/-- One more operand on what is known of a key. -/
def pendMerge (t : Transaction) (c : Column) (k d : Bytes) : Transaction :=
  let p := (t.overlay.get c).getD k { base := .inherit }
  t.pend c k { p with operands := p.operands ++ [d] }

def pendRange (t : Transaction) (c : Column) (r : KeyRange) : Transaction :=
  { t with
    overlay := t.overlay.modify c (·.filter fun k _ => !r.contains k)
    deletedRanges := t.deletedRanges.modify c (r :: ·) }

/-- What a write does to later reads. -/
def observe (t : Transaction) : Op → Transaction
  | .put c k v => t.pend c k { base := .value v }
  | .delete c k => t.pend c k { base := .deleted }
  | .deleteRange c r => t.pendRange c r
  | .merge c k d => t.pendMerge c k d

/-- Make a write; one that is refused leaves no trace. -/
def record (t : Transaction) (op : Op) : Except StoreError Transaction :=
  match op.admit with
  | .ok () => .ok { t.observe op with recorded := op :: t.recorded }
  | .error e => .error e

def recordAll (t : Transaction) (ops : List Op) : Except StoreError Transaction :=
  ops.foldlM record t

/-! ## Reading -/

def isDeleted (t : Transaction) (c : Column) (k : Bytes) : Bool :=
  (t.deletedRanges.get c).any (·.contains k)

/-- The value below a key, as deleted ranges leave it. -/
def inherited (t : Transaction) (c : Column) (k : Bytes) : Except StoreError (Option Bytes) :=
  if t.isDeleted c k then .ok none else t.below.get c k

/-- The value of a key of which something is known. -/
def resolve (t : Transaction) (c : Column) (k : Bytes) (p : Pending) :
    Except StoreError (Option Bytes) :=
  match p.base with
  | .value v => c.mergeAll (some v) p.operands
  | .deleted => c.mergeAll none p.operands
  | .inherit =>
    match t.inherited c k with
    | .ok base => c.mergeAll base p.operands
    | .error e => .error e

def get (t : Transaction) (c : Column) (k : Bytes) : Except StoreError (Option Bytes) :=
  match (t.overlay.get c)[k]? with
  | some p => t.resolve c k p
  | none => t.inherited c k

/-- Put a resolved value over the values below. -/
def overlayOne (t : Transaction) (c : Column) (found : Table) (kp : Bytes × Pending) :
    Except StoreError Table :=
  match t.resolve c kp.1 kp.2 with
  | .ok (some v) => .ok (found.insert kp.1 v)
  | .ok none => .ok (found.erase kp.1)
  | .error e => .error e

def scan (t : Transaction) (c : Column) (r : KeyRange) (o : ScanOrder) :
    Except StoreError (List Pair) := do
  let below ← t.below.scan c r .ascending
  let kept : Table := .ofList (below.filter fun p => !t.isDeleted c p.1)
  let known := (t.overlay.get c).toList.filter fun kp => r.contains kp.1
  let found ← known.foldlM (t.overlayOne c) kept
  return o.arrange found.toList

def reader (t : Transaction) : Reader := ⟨t.get, t.scan⟩

end Transaction
end TileAtlas
