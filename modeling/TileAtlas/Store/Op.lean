import TileAtlas.Store.KeyRange
import TileAtlas.Store.Merge
/-!
# Writing and reading

A write is a value: put, delete, delete a range, or merge.  What a list of writes means is told
here on one sorted map for each column: `Contents.apply` does one write after another and fails
as a whole when a merge does.

A `Reader` is anything that can be asked for a key and for a range of a column: a store, a snapshot
of one, or a transaction that has not been committed yet.
-/
namespace TileAtlas

inductive StoreError where
  | noMergeOperator (column : Column)
  | merge (column : Column) (source : MergeError)
  | snapshotUnavailable
deriving DecidableEq

def StoreError.message : StoreError → String
  | noMergeOperator c => s!"column {c.title} has no merge operator"
  | merge c source => s!"merge failed in column {c.title}: {source.message}"
  | snapshotUnavailable =>
    "snapshots are unavailable: in-memory databases cannot be shared across connections"

abbrev Pair := Bytes × Bytes

inductive Op where
  | put (column : Column) (key value : Bytes)
  | delete (column : Column) (key : Bytes)
  | deleteRange (column : Column) (range : KeyRange)
  | merge (column : Column) (key operand : Bytes)
deriving DecidableEq

def Op.column : Op → Column
  | put c _ _ => c
  | delete c _ => c
  | deleteRange c _ => c
  | merge c _ _ => c

/-- Merge one operand into a value. -/
def Column.merge (c : Column) (existing : Option Bytes) (operand : Bytes) :
    Except StoreError Bytes :=
  match c.mergeOperator? with
  | none => .error (.noMergeOperator c)
  | some m =>
    match m.merge existing operand with
    | .ok v => .ok v
    | .error e => .error (.merge c e)

/-- Merge operands one after another. -/
def Column.mergeAll (c : Column) : Option Bytes → List Bytes → Except StoreError (Option Bytes)
  | existing, [] => .ok existing
  | existing, d :: ds =>
    match c.merge existing d with
    | .ok v => c.mergeAll (some v) ds
    | .error e => .error e

/-! ## Batches -/

/-- Writes in the order in which they were made. -/
abbrev Batch := List Op

/-- A merge into a column that does not merge is refused as soon as it is made. -/
def Op.admit (op : Op) : Except StoreError Unit :=
  match op with
  | merge c _ _ => if c.mergeOperator?.isSome then .ok () else .error (.noMergeOperator c)
  | _ => .ok ()

/-! ## The plain meaning of writes -/

/-- One column as a sorted map. -/
abbrev Table := Std.ExtTreeMap Bytes Bytes

namespace Table

def scan (t : Table) (r : KeyRange) : List Pair := t.toList.filter fun p => r.contains p.1

def deleteRange (t : Table) (r : KeyRange) : Table := t.filter fun k _ => !r.contains k

end Table

abbrev Contents := Columns Table

namespace Contents

def empty : Contents := .const ∅

def get (s : Contents) (c : Column) (k : Bytes) : Option Bytes := (Columns.get s c)[k]?

def applyOp (s : Contents) (op : Op) : Except StoreError Contents :=
  match op with
  | .put c k v => .ok (s.modify c (·.insert k v))
  | .delete c k => .ok (s.modify c (·.erase k))
  | .deleteRange c r => .ok (s.modify c (·.deleteRange r))
  | .merge c k d =>
    match c.merge (s.get c k) d with
    | .ok v => .ok (s.modify c (·.insert k v))
    | .error e => .error e

def apply (s : Contents) (b : Batch) : Except StoreError Contents := b.foldlM applyOp s

end Contents

/-! ## Readers -/

structure Reader where
  get : Column → Bytes → Except StoreError (Option Bytes)
  scan : Column → KeyRange → ScanOrder → Except StoreError (List Pair)

def Reader.getMany (r : Reader) (c : Column) (keys : List Bytes) :
    Except StoreError (List (Option Bytes)) := keys.mapM (r.get c)

def Contents.reader (s : Contents) : Reader where
  get c k := .ok (s.get c k)
  scan c r o := .ok (o.arrange ((Columns.get s c).scan r))

end TileAtlas
