import TileAtlas.Proofs.Runs.Repair
/-!
# Flags after a rebuild

Rebuilding tiles takes no flag away.  It flags the tiles in the lists of the elements, which are those that they stood
in as far as these lists are right, and the tiles that the elements stand in then (`Atlas.rebuildTiles_flags`).  The
entries that it takes out are not looked at, so that a tile which held one of them and is in nobody's list loses it
and is not flagged (`Atlas.rebuildTiles_unnoticed`).
-/
namespace TileAtlas

namespace Atlas

def IsFlagged (a : Atlas) (t : TilePosition) : Prop := DirtyTiles.contains a.store.reader t = .ok true

/-- An element has an entry in a tile. -/
def IsOccupied (a : Atlas) (t : TilePosition) : Prop :=
  ∃ id payload, a.store.reader.get .tiles (Membership.key ⟨t, id⟩) = .ok (some payload)

/-- A tile is in a list of an element's tiles, whoever this may be. -/
def IsRecorded (a : Atlas) (t : TilePosition) : Prop :=
  ∃ key value tiles, a.store.reader.get .elementTiles key = .ok (some value) ∧ ElementTiles.read value = .ok tiles ∧ t ∈ tiles

variable {a a' : Atlas} {t : TilePosition}

theorem isFlagged_iff : a.IsFlagged t ↔ ∃ v, a.store.contents.get .dirtyTiles t.key = some v := by
  rw [IsFlagged, DirtyTiles.contains, a.store.reader_eq, Contents.reader_get, ← Option.isSome_iff_exists]
  exact ⟨Except.ok.inj, congrArg Except.ok⟩

theorem isOccupied_iff :
    a.IsOccupied t ↔ ∃ id payload, a.store.contents.get .tiles (Membership.key ⟨t, id⟩) = some payload := by
  simp only [IsOccupied, a.store.reader_eq, Contents.reader_get, Except.ok.injEq]

/-- **The tiles of every element are those in the lists.** -/
theorem mem_recordedTiles {n : Snapshot} (hn : a.store.snapshot = .ok n) {old : List TilePosition}
    (hold : Pass.recordedTiles n = .ok old) : t ∈ old ↔ a.IsRecorded t := by
  obtain ⟨sets, hsets, hold⟩ := exists_of_bind hold
  cases hold
  have hrow : ∀ {key value}, (key, value) ∈ n.pairsFrom .elementTiles [] ↔
      a.store.reader.get .elementTiles key = .ok (some value) := fun {key value} => by
    rw [(Store.snapshot_reads hn).2, Table.mem_scan_startingAt, a.store.reader_eq, Contents.reader_get, Except.ok.injEq]
    exact and_iff_left (Bytes.not_lt_nil key)
  rw [List.mem_flatMap]
  constructor
  · rintro ⟨tiles, htiles, ht⟩
    obtain ⟨⟨key, value⟩, hpair, hread⟩ := (mem_mapM_iff hsets).1 htiles
    exact ⟨key, value, tiles, hrow.1 hpair, hread, Std.ExtTreeSet.mem_toList.1 ht⟩
  · rintro ⟨key, value, tiles, hget, hread, ht⟩
    exact ⟨tiles, (mem_mapM_iff hsets).2 ⟨(key, value), hrow.2 hget, hread⟩, Std.ExtTreeSet.mem_toList.2 ht⟩

/-- **The tiles with entries are those of the placements.** -/
theorem isOccupied_iff_placed {records : Records} (hr : records.ReadIn a.store.contents)
    (h : Placements.StoredIn (a.config.placeAt records) a.store.contents) :
    a.IsOccupied t ↔ ∃ e ∈ records.elements, t ∈ Placement.tilesOf (a.config.placeAt records e.id) := by
  rw [isOccupied_iff]
  constructor
  · rintro ⟨id, payload, hentry⟩
    obtain ⟨p, hp, ht, -⟩ := h.entry_iff.1 hentry
    obtain ⟨e, he, -⟩ := Option.bind_eq_some_iff.1 hp
    have hid := hr.id_eq he
    exact ⟨e, hr.mem_elements.2 (by rw [hid, he]), by rw [hid]; exact Placement.mem_tilesOf.2 ⟨p, hp, ht⟩⟩
  · rintro ⟨e, -, ht⟩
    obtain ⟨p, hp, ht⟩ := Placement.mem_tilesOf.1 ht
    exact ⟨e.id, p.entry, h.entry_iff.2 ⟨p, hp, ht, rfl⟩⟩

/-- **What is flagged after a rebuild:** what was flagged before, under whatever keys, the tiles that some element's
list named, and the tiles that hold an entry then. -/
theorem rebuildTiles_flags {divide : Division} (hd : divide.Complete) (hk : a.store.contents.IsKeyed) {r : TileRebuild}
    (h : (Pass.rebuildTiles a.config divide).runOn a = (.ok r, a')) :
    (∀ k v, a.store.reader.get .dirtyTiles k = .ok (some v) → ∃ w, a'.store.reader.get .dirtyTiles k = .ok (some w)) ∧
    ∀ t, a'.IsFlagged t ↔ a.IsFlagged t ∨ a.IsRecorded t ∨ a'.IsOccupied t := by
  obtain ⟨records, hr⟩ := hk.exists_readIn
  obtain ⟨hdo, ha'⟩ := Pass.does_of_runOn h
  obtain ⟨hs, n, old, hn, hold⟩ := hdo.exists_of_rebuild
  obtain ⟨s', hdo', -, hdone⟩ := Pass.does_rebuildTiles hs hr hn hold hd
  obtain ⟨rfl, rfl⟩ := hdo.unique hdo'
  have hconfig : a'.config = a.config := by rw [ha']
  have hoccupied : ∀ {t}, a'.IsOccupied t ↔
      ∃ e ∈ records.elements, t ∈ Placement.tilesOf (a.config.placeAt records e.id) := fun {t} => by
    rw [← hconfig]
    exact isOccupied_iff_placed (hr.of_column (hdone.frame rfl)) (by rw [hconfig]; exact hdone.placed)
  have hmarked : ∀ t, a.IsRecorded t ∨ a'.IsOccupied t → a'.store.contents.get .dirtyTiles t.key = some [] := fun t ht =>
    hdone.flagged.marked t (by rwa [mem_recordedTiles hn hold, ← hoccupied])
  have hothers : ∀ k, (∀ t, a.IsRecorded t ∨ a'.IsOccupied t → k ≠ t.key) →
      a'.store.contents.get .dirtyTiles k = a.store.contents.get .dirtyTiles k := fun k hk =>
    hdone.flagged.others k fun t ht => hk t (by rwa [mem_recordedTiles hn hold, ← hoccupied] at ht)
  constructor
  · intro k v hv
    rw [a.store.reader_eq, Contents.reader_get, Except.ok.injEq] at hv
    simp only [a'.store.reader_eq, Contents.reader_get, Except.ok.injEq]
    by_cases hk : ∃ t, (a.IsRecorded t ∨ a'.IsOccupied t) ∧ k = t.key
    · obtain ⟨t, ht, rfl⟩ := hk
      exact ⟨[], hmarked t ht⟩
    · rw [hothers k fun t ht heq => hk ⟨t, ht, heq⟩]
      exact ⟨v, hv⟩
  · intro t
    rw [isFlagged_iff, isFlagged_iff]
    by_cases ht : a.IsRecorded t ∨ a'.IsOccupied t
    · exact iff_of_true ⟨[], hmarked t ht⟩ (.inr ht)
    · rw [hothers t.key fun u hu heq => ht (TilePosition.key_inj heq ▸ hu)]
      exact (or_iff_left ht).symm

/-- A coastline whose list names a tile far from it, beside a flag and an entry that is in nobody's list. -/
theorem rebuildTiles_flags_damaged :
    let coast : Element := ⟨⟨13835058055282163713⟩, 1, true, ∅, .coastline (some (.line [⟨0, 0⟩, ⟨1, 1⟩]))⟩
    let damaged : Contents := (((Contents.empty.put .elements coast.id.key coast.encode).put .elementTiles coast.id.key
      [0, 0, 0, 0, 0, 0, 0, 5]).put .dirtyTiles (TilePosition.key ⟨9⟩) []).put .tiles (Membership.key ⟨⟨7⟩, ⟨1⟩⟩) [1]
    let a : Atlas := ⟨.flat ⟨damaged, true⟩, {}⟩
    ∃ a', (Pass.rebuildTiles a.config .whole).runOn a = (.ok ⟨1, 1, 1⟩, a') ∧
      (∀ k v, a.store.reader.get .dirtyTiles k = .ok (some v) → ∃ w, a'.store.reader.get .dirtyTiles k = .ok (some w)) ∧
      ∀ t, a'.IsFlagged t ↔ a.IsFlagged t ∨ a.IsRecorded t ∨ a'.IsOccupied t := by
  intro coast damaged a
  have hk : damaged.IsKeyed :=
    Contents.isKeyed_of_one (e := coast) (by decide +kernel) fun k => by simp [damaged, Contents.get_put]
  have hresult : ((Pass.rebuildTiles a.config .whole).runOn a).1.toOption = some ⟨1, 1, 1⟩ := by decide +kernel
  generalize hrun : (Pass.rebuildTiles a.config .whole).runOn a = out at hresult
  obtain ⟨e | r, a'⟩ := out
  · cases hresult
  · cases hresult
    exact ⟨a', rfl, rebuildTiles_flags (a := a) Division.fair_whole.complete hk hrun⟩

/-- **An entry in nobody's list is taken out unnoticed:** its tile held something before and holds nothing then, and is
not flagged. -/
theorem rebuildTiles_unnoticed :
    let stray : Membership := ⟨.ofCoords 0 0, ⟨1⟩⟩
    let a : Atlas := ⟨.flat ⟨Contents.empty.put .tiles stray.key [1], true⟩, {}⟩
    a.store.contents.IsKeyed ∧ a.IsOccupied stray.tile ∧
      ∃ a', (Pass.rebuildTiles a.config .whole).runOn a = (.ok {}, a') ∧ ¬ a'.IsOccupied stray.tile ∧
        ¬ a'.IsFlagged stray.tile := by
  intro stray a
  refine ⟨fun k v hv => ?_, isOccupied_iff.2 ⟨stray.id, [1], by decide +kernel⟩, ?_⟩
  · simp [a, Store.contents, Contents.get_put] at hv
  · have hresult : ((Pass.rebuildTiles a.config .whole).runOn a).1.toOption = some {} := by decide +kernel
    have hempty : (Columns.get ((Pass.rebuildTiles a.config .whole).runOn a).2.store.contents .tiles).isEmpty = true := by
      decide +kernel
    have hclean : ((Pass.rebuildTiles a.config .whole).runOn a).2.store.contents.get .dirtyTiles stray.tile.key = none := by
      decide +kernel
    generalize hrun : (Pass.rebuildTiles a.config .whole).runOn a = out at hresult hempty hclean
    obtain ⟨e | r, a'⟩ := out
    · cases hresult
    · cases hresult
      refine ⟨a', rfl, fun h => ?_, fun h => ?_⟩
      · obtain ⟨id, payload, hentry⟩ := isOccupied_iff.1 h
        rw [Contents.get_eq, Std.ExtTreeMap.isEmpty_iff.1 hempty, Std.ExtTreeMap.getElem?_empty] at hentry
        cases hentry
      · obtain ⟨v, hv⟩ := isFlagged_iff.1 h
        rw [hclean] at hv
        cases hv

end Atlas
end TileAtlas
