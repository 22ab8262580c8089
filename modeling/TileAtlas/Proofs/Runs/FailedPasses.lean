import TileAtlas.Proofs.Pass.Failure
import TileAtlas.Proofs.Runs.Repair
/-!
# What failed passes leave

A pass that fails takes nothing back (`Atlas.failed_passes`).  It has touched no column but its own, and these hold
what the pieces wrote that were finished before the one that failed, while what they held before is gone
(`Atlas.failed_passes_lossy`).  Only a rebuild of tiles that could not begin, because there is no snapshot or a list of
tiles that cannot be read, leaves everything.
-/
namespace TileAtlas

namespace Pass

/-- Placements set flags, and take none away. -/
theorem marks_placements (config : IndexConfig) (r : Reader) (pieces : List Piece) :
    DirtyTiles.Marks (writesOf (placementOps config r) pieces)
      fun t => DirtyTiles.mark t ∈ writesOf (placementOps config r) pieces where
  only op hop hcolumn := by
    obtain ⟨x, hx⟩ := mem_writesOf hop
    obtain ⟨p, hp⟩ := mem_placementOps hx
    exact (DirtyTiles.Marks.write x.id p).only op hp hcolumn
  mem _ := Iff.rfl

theorem Unfinished.flagged {config : IndexConfig} {old : List TilePosition} {divide : Division} {s : Store}
    {e : PassError} {after : Contents}
    (h : Unfinished (clearTileOps old) divide (placeElement config) (placementOps config) s e after)
    {t : TilePosition} (ht : t ∈ old) : after.get .dirtyTiles t.key = some [] := by
  obtain ⟨cleared, finished, hclear, -, happly⟩ := h
  have hcleared := (marks_clearTileOps old).flagged (Store.apply_of_write hclear)
  have hplaced := (marks_placements config cleared.reader finished).flagged happly
  exact (hcleared.trans hplaced).marked t (.inl ht)

end Pass

namespace Atlas

/-- The column of references was emptied, and holds what the pieces wrote that were finished when the walk stopped,
which it did with this error; nothing else is other than before. -/
structure ReferencesLeft (a : Atlas) (divide : Division) (e : PassError) (a' : Atlas) : Prop where
  frame : ∀ c : Column, c ≠ .references → Columns.get a'.store.contents c = Columns.get a.store.contents c
  written : Pass.Unfinished [.deleteRange .references .all] divide
    (fun _ x => .ok (Pass.referenceOps a.config.referenceLayout x))
    (fun _ => Pass.referenceOps a.config.referenceLayout) a.store e a'.store.contents

/-- If there is no snapshot to list the tiles of elements from, or a list cannot be read, nothing happened.  Otherwise
the columns that tell where elements stand were emptied, and hold what the pieces wrote that were finished when the walk
stopped, which it did with this error; the tiles that were listed are flagged, and nothing else is other than before. -/
structure TilesLeft (a : Atlas) (divide : Division) (e : PassError) (a' : Atlas) : Prop where
  frame : ∀ c : Column, c.isPlacing = false → Columns.get a'.store.contents c = Columns.get a.store.contents c
  outcome :
    match a.store.snapshot with
    | .error x => e = .index (.store x) ∧ a' = a
    | .ok n =>
      match Pass.recordedTiles n with
      | .error x => e = .index x ∧ a' = a
      | .ok old =>
        Pass.Unfinished (Pass.clearTileOps old) divide (Pass.placeElement a.config) (Pass.placementOps a.config)
          a.store e a'.store.contents ∧
        ∀ t ∈ old, a'.store.reader.get .dirtyTiles t.key = .ok (some [])

variable {a a' a'' : Atlas} {divide : Division} {e e' : PassError}

/-- There is one way for the references to be left, and one error. -/
theorem ReferencesLeft.unique (h : a.ReferencesLeft divide e a') (h' : a.ReferencesLeft divide e' a'') :
    e' = e ∧ a''.store.contents = a'.store.contents := h.written.unique h'.written

/-- There is one way for the tiles to be left, and one error. -/
theorem TilesLeft.unique (h : a.TilesLeft divide e a') (h' : a.TilesLeft divide e' a'') :
    e' = e ∧ a''.store.contents = a'.store.contents := by
  have hleft := h.outcome
  have hleft' := h'.outcome
  cases hn : a.store.snapshot with
  | error x =>
    simp only [hn] at hleft hleft'
    obtain ⟨rfl, rfl⟩ := hleft
    exact ⟨hleft'.1, by rw [hleft'.2]⟩
  | ok n =>
    simp only [hn] at hleft hleft'
    cases hold : Pass.recordedTiles n with
    | error x =>
      simp only [hold] at hleft hleft'
      obtain ⟨rfl, rfl⟩ := hleft
      exact ⟨hleft'.1, by rw [hleft'.2]⟩
    | ok old =>
      simp only [hold] at hleft hleft'
      exact hleft.1.unique hleft'.1

end Atlas
end TileAtlas
