import TileAtlas.Index.Error
/-!
# Pending work and the state of replication

Elements whose tiles are out of date are flagged while they wait.  Two properties tell how far the
index follows a sequence of changesets: the number of the last one, and the time it has reached.
-/
namespace TileAtlas

namespace DirtyElements

def mark (id : ElementId) : Op := .put .dirtyElements id.key []

def unmark (id : ElementId) : Op := .delete .dirtyElements id.key

def contains (r : Reader) (id : ElementId) : Except IndexError Bool := do
  return (← asking (r.get .dirtyElements id.key)).isSome

def list (r : Reader) : Except IndexError (List ElementId) := do
  (← asking (r.scan .dirtyElements .all .ascending)).mapM fun p => Column.dirtyElements.elementOf p.1

def count (r : Reader) : Except IndexError Nat := do
  return (← asking (r.scan .dirtyElements .all .ascending)).length

end DirtyElements

structure ReplicationState where
  sequence : Option UInt64
  timestamp : Option Int64
deriving DecidableEq

namespace ReplicationState

def sequenceKey : Bytes := Bytes.ofString "sequence_number"

def timestampKey : Bytes := Bytes.ofString "replication_timestamp"

def setSequence (n : UInt64) : Op := .put .properties sequenceKey (Bytes.ofNatBE 8 n.toNat)

def setTimestamp (t : Int64) : Op :=
  .put .properties timestampKey (Bytes.ofNatBE 8 t.toUInt64.toNat)

/-- A property of eight bytes, most significant byte first. -/
def readWord : Option Bytes → Except IndexError (Option UInt64)
  | none => .ok none
  | some value =>
    if value.length = 8 then .ok (some (UInt64.ofNat (Bytes.toNatBE value)))
    else .error (.corrupt .properties .propertyValue)

def read (r : Reader) : Except IndexError ReplicationState := do
  let sequence ← readWord (← asking (r.get .properties sequenceKey))
  let timestamp ← readWord (← asking (r.get .properties timestampKey))
  return ⟨sequence, timestamp.map (·.toInt64)⟩

end ReplicationState
end TileAtlas
