import TileAtlas.Proofs.Store.Layers
import TileAtlas.Proofs.Store.Pages
import TileAtlas.Store
/-!
# What a store means

Whatever a store is made of, readers see one sorted table for each column (`Store.contents`), and a
batch does to these tables what its writes mean, one after another, or fails as they do.  A snapshot
reads the same tables, and walks them from a key on.
-/
namespace TileAtlas

namespace Store

/-- The tables that readers of a store see. -/
def contents : Store → Contents
  | segmented s => s.contents
  | flat s => s.contents

theorem reader_eq : ∀ s : Store, s.reader = s.contents.reader
  | segmented s => s.reader_eq
  | flat _ => rfl

/-- **A batch does to the contents what its writes mean, and fails when they do.** -/
theorem contents_write : ∀ (s : Store) (b : Batch), (s.write b).map contents = s.contents.apply b
  | segmented s, b => by
    have h := s.contents_write b
    rw [write, contents, ← h]
    cases s.write b <;> rfl
  | flat s, b => by
    rw [write, contents, FlatStore.write]
    cases s.contents.apply b <;> rfl

theorem write_of_contents {s : Store} {b : Batch} {t : Contents} (h : s.contents.apply b = .ok t) :
    ∃ s', s.write b = .ok s' ∧ s'.contents = t := by
  rw [← contents_write] at h
  cases hw : s.write b with
  | error e => rw [hw] at h; cases h
  | ok s' => rw [hw] at h; cases h; exact ⟨s', rfl, rfl⟩

theorem apply_of_write {s s' : Store} {b : Batch} (h : s.write b = .ok s') : s.contents.apply b = .ok s'.contents := by
  rw [← contents_write, h]; rfl

/-- A snapshot reads the contents of the store, and walks a column in the order of keys. -/
theorem snapshot_reads {s : Store} {n : Snapshot} (h : s.snapshot = .ok n) :
    n.reader = s.contents.reader ∧
      ∀ c start, n.pairsFrom c start = (Columns.get s.contents c).scan (.startingAt start) := by
  cases s with
  | segmented s =>
    cases h
    exact ⟨s.reader_eq, fun c start => by
      rw [contents, ← SegmentedStore.table_eq, ← ColumnState.visibleIn_eq_scan]; rfl⟩
  | flat s =>
    rw [snapshot, FlatStore.snapshot] at h
    split at h
    · cases h
      exact ⟨rfl, fun c start => Table.rowsFrom_eq_scan _ _⟩
    · cases h

end Store
end TileAtlas
