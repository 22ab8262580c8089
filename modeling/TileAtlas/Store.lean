import TileAtlas.Store.Flat
import TileAtlas.Store.Segmented
import TileAtlas.Store.Transaction
/-!
# Stores

A store is made of segments or of sorted tables.  Both take batches of writes as a whole or not at
all, and both can be frozen into a snapshot, unless the store is private to its owner.
-/
namespace TileAtlas

inductive Store where
  | segmented (s : SegmentedStore)
  | flat (s : FlatStore)

/-- A store at one moment. -/
structure Snapshot where
  reader : Reader
  segments : Column → List SegmentMeta
  /-- The visible pairs from a key on, ascending. -/
  pairsFrom : Column → Bytes → List Pair

def SegmentedStore.snapshot (s : SegmentedStore) : Snapshot where
  reader := s.reader
  segments c := (s.column c).segments.map (·.info)
  pairsFrom c start := s.scan c (.startingAt start)

def FlatStore.snapshot (s : FlatStore) : Except StoreError Snapshot :=
  if s.shared then
    .ok
      { reader := s.reader
        segments := s.segments
        pairsFrom := fun c start => (Columns.get s.contents c).rowsFrom start }
  else .error .snapshotUnavailable

namespace Store

def reader : Store → Reader
  | segmented s => s.reader
  | flat s => s.reader

def write : Store → Batch → Except StoreError Store
  | segmented s, b => segmented <$> s.write b
  | flat s, b => flat <$> s.write b

def snapshot : Store → Except StoreError Snapshot
  | segmented s => .ok s.snapshot
  | flat s => s.snapshot

/-- A transaction that made no writes leaves the store alone. -/
def commit (s : Store) (t : Transaction) : Except StoreError Store :=
  if t.recorded.isEmpty then .ok s else s.write t.batch

end Store
end TileAtlas
