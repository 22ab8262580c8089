import TileAtlas.Proofs.Runs.References
import TileAtlas.Proofs.Runs.Tiles
/-!
# What passes repair

An index may have come from anywhere, so that what it derived from its elements is wrong or cannot even be
read.  As long as every element is stored under its own key, recomputing references leaves exactly those that
the elements call for (`Atlas.recomputeReferences_repairs`), and rebuilding tiles leaves exactly the placements
of the elements (`Atlas.rebuildTiles_repairs`).  Neither depends on how the elements are divided among workers,
nor on the order in which these write.
-/
namespace TileAtlas

theorem Pass.run_of_runOn {α : Type} {p : Pass α} {a a' : Atlas} {r : Except PassError α} (h : p.runOn a = (r, a')) :
    p.run.run a.store = (r, a'.store) ∧ a' = { a with store := a'.store } := by
  unfold Pass.runOn at h
  generalize p.run.run a.store = out at h ⊢
  obtain ⟨result, store⟩ := out
  cases h
  exact ⟨rfl, rfl⟩

theorem Pass.does_of_runOn {α : Type} {p : Pass α} {a a' : Atlas} {x : α} (h : p.runOn a = (.ok x, a')) :
    p.Does a.store x a'.store ∧ a' = { a with store := a'.store } := run_of_runOn h

/-! ## References -/

/-- The references of an index are those that its elements call for, so many, and nothing else is other than before. -/
structure Atlas.ReferencesRepaired (a : Atlas) (n : Nat) (a' : Atlas) : Prop where
  reads : a.config.referenceLayout.Reads a'.store.reader
  count : n = ((a.store.contents.elements.filter (·.visible)).map (·.referents.length)).sum
  frame : ∀ c : Column, c ≠ .references → Columns.get a'.store.contents c = Columns.get a.store.contents c

namespace Atlas

variable {a a' : Atlas} {divide : Division}

/-- **References are repaired from whatever there was,** and come out the same however the work is divided. -/
theorem recomputeReferences_repairs (hd : divide.Complete) (hk : a.store.contents.IsKeyed) {n : Nat}
    (h : (Pass.recomputeReferences a.config.referenceLayout divide).runOn a = (.ok n, a')) :
    a.ReferencesRepaired n a' ∧
    ∀ divide' : Division, divide'.Complete →
      ∃ a'', (Pass.recomputeReferences a.config.referenceLayout divide').runOn a = (.ok n, a'') ∧
        a''.store.contents = a'.store.contents := by
  obtain ⟨records, hr⟩ := hk.exists_readIn
  obtain ⟨hdo, ha'⟩ := Pass.does_of_runOn h
  have hs := hdo.isWalkable_of_recompute
  obtain ⟨s', hdo', -, hdone⟩ := Pass.does_recomputeReferences hs hr hd
  obtain ⟨rfl, rfl⟩ := hdo.unique hdo'
  refine ⟨⟨?_, ?_, fun c hc => Contents.columns_get_eq (hdone.frame hc)⟩, fun divide' hd' => ?_⟩
  · rw [Store.reader_eq]
    exact hdone.links.reads (hr.of_column (hdone.frame (by decide)))
  · rw [hr.elements_eq]; rfl
  · obtain ⟨s'', hdo'', -, hdone'⟩ := Pass.does_recomputeReferences hs hr hd'
    exact ⟨_, hdo''.runOn, hdone.unique hdone'⟩

/-- A way whose nodes are referred to by keys of the other layout and by bytes that are no set. -/
theorem recomputeReferences_repairs_unreadable :
    let way : Element := ⟨⟨4611686018427387911⟩, 1, true, ∅, .way [⟨3⟩, ⟨4⟩, ⟨3⟩]⟩
    let damaged : Contents := ((Contents.empty.put .elements way.id.key way.encode).put .references
      (referenceKey ⟨5⟩ way.id) []).put .references (ElementId.key ⟨3⟩) [1, 2, 3]
    let a : Atlas := ⟨.flat ⟨damaged, true⟩, {}⟩
    ∃ a', (Pass.recomputeReferences a.config.referenceLayout .whole).runOn a = (.ok 2, a') ∧
      a.ReferencesRepaired 2 a' := by
  intro way damaged a
  have hk : damaged.IsKeyed :=
    Contents.isKeyed_of_one (e := way) (by decide +kernel) fun k => by simp [damaged, Contents.get_put]
  have hd : Division.whole.Complete := Division.fair_whole.complete
  have hcount : ((damaged.elements.filter (·.visible)).map (·.referents.length)).sum = 2 := by decide +kernel
  obtain ⟨records, hr⟩ := hk.exists_readIn
  obtain ⟨s', hdo, -⟩ := Pass.does_recomputeReferences (l := a.config.referenceLayout) (s := a.store) rfl hr hd
  obtain ⟨hrepaired, -⟩ := recomputeReferences_repairs (a := a) hd hk hdo.runOn
  have hn := hrepaired.count.trans hcount
  rw [hn] at hdo hrepaired
  exact ⟨_, hdo.runOn, hrepaired⟩

/-! ## Tiles -/

/-- Whether an element belongs in any tile. -/
def isPlaced (a : Atlas) (e : Element) : Bool := (a.config.place a.store.reader e).toOption.join.isSome

/-- The tile columns of an index hold the placements of its elements and nothing else, this is what was counted, and
but for flags nothing else is other than before. -/
structure TilesRepaired (a : Atlas) (r : TileRebuild) (a' : Atlas) : Prop where
  derived : a'.TilesDerived
  placed : ∀ e ∈ a.store.contents.elements, ∃ p, a.config.place a.store.reader e = .ok p ∧ a'.Stands e.id p
  summary : r = ⟨a.store.contents.elements.length, (a.store.contents.elements.filter a.isPlaced).length,
    (Columns.get a'.store.contents .tiles).size⟩
  frame : ∀ c : Column, c.isPlacing = false → Columns.get a'.store.contents c = Columns.get a.store.contents c

/-- **Tiles are repaired from whatever there was,** and come out the same however the work is divided. -/
theorem rebuildTiles_repairs (hd : divide.Complete) (hk : a.store.contents.IsKeyed) {r : TileRebuild}
    (h : (Pass.rebuildTiles a.config divide).runOn a = (.ok r, a')) :
    a.TilesRepaired r a' ∧
    ∀ divide' : Division, divide'.Complete → ∃ a'', (Pass.rebuildTiles a.config divide').runOn a = (.ok r, a'') ∧
      a''.store.contents = a'.store.contents := by
  obtain ⟨records, hr⟩ := hk.exists_readIn
  obtain ⟨hdo, ha'⟩ := Pass.does_of_runOn h
  obtain ⟨hs, n, old, hn, hold⟩ := hdo.exists_of_rebuild
  obtain ⟨s', hdo', -, hdone⟩ := Pass.does_rebuildTiles hs hr hn hold hd
  obtain ⟨rfl, rfl⟩ := hdo.unique hdo'
  have hconfig : a'.config = a.config := by rw [ha']
  have hplaces : a'.Places records := ⟨hr.of_column (hdone.frame rfl), by rw [hconfig]; exact hdone.placed⟩
  have hplace : ∀ e ∈ a.store.contents.elements,
      a.config.place a.store.reader e = .ok (a.config.placeAt records e.id) := fun e he => by
    rw [hr.elements_eq, hr.mem_elements] at he
    rw [Store.reader_eq, a.config.place_eq hr.toReadAt, IndexConfig.placeAt, he]; rfl
  refine ⟨⟨hplaces.tilesDerived, fun e he => ⟨_, hplace e he, ?_⟩, ?_, fun c hc => Contents.columns_get_eq (hdone.frame hc)⟩,
    fun divide' hd' => ?_⟩
  · rw [← hconfig]
    exact hplaces.stands e.id
  · have hfilter : a.store.contents.elements.filter a.isPlaced =
        a.store.contents.elements.filter fun e => (a.config.placeAt records e.id).isSome :=
      List.filter_congr fun e he => by rw [isPlaced, hplace e he]; rfl
    have hsize := hdone.placed.size_tiles hr.nodup_ids fun id p hp => by
      obtain ⟨e, he, -⟩ := Option.bind_eq_some_iff.1 hp
      exact List.mem_map.2 ⟨e, hr.mem_elements.2 (by rw [hr.id_eq he, he]), hr.id_eq he⟩
    rw [Pass.summary_eq fun id p hp => IndexConfig.placeAt_valid hp, hfilter, hsize, hr.elements_eq, List.map_map]
    rfl
  · obtain ⟨s'', hdo'', -, hdone'⟩ := Pass.does_rebuildTiles hs hr hn hold hd'
    exact ⟨_, hdo''.runOn, hdone.unique hdone'⟩

/-- A coastline with a count that is no number, beside entries that are nobody's. -/
theorem rebuildTiles_repairs_unreadable :
    let coast : Element := ⟨⟨13835058055282163713⟩, 1, true, ∅, .coastline (some (.line [⟨0, 0⟩, ⟨90000000, 0⟩]))⟩
    let damaged : Contents := (((Contents.empty.put .elements coast.id.key coast.encode).put .tileCounts
      coast.id.key [9]).put .tiles [1, 2, 3] []).put .elementTiles [7] [0, 0, 0, 0, 0, 0, 0, 5]
    let a : Atlas := ⟨.flat ⟨damaged, true⟩, {}⟩
    ∃ r a', (Pass.rebuildTiles a.config .whole).runOn a = (.ok r, a') ∧ a.TilesRepaired r a' ∧ r.elements = 1 := by
  intro coast damaged a
  have hk : damaged.IsKeyed :=
    Contents.isKeyed_of_one (e := coast) (by decide +kernel) fun k => by simp [damaged, Contents.get_put]
  have hd : Division.whole.Complete := Division.fair_whole.complete
  obtain ⟨n, p, hn, -⟩ := Store.isWalkable_iff.1 (show a.store.IsWalkable from rfl)
  have hread : Pass.recordedTiles n = .ok [⟨5⟩] := by
    have hrows : n.pairsFrom .elementTiles [] = [([7], [0, 0, 0, 0, 0, 0, 0, 5])] := by
      rw [(Store.snapshot_reads hn).2]
      decide +kernel
    rw [Pass.recordedTiles, hrows]
    decide +kernel
  obtain ⟨records, hr⟩ := hk.exists_readIn
  obtain ⟨s', hdo, -⟩ := @Pass.does_rebuildTiles a.config records a.store rfl hr n hn _ hread _ hd
  generalize Pass.summary _ _ = r at hdo
  have hrun := hdo.runOn
  obtain ⟨hrepaired, -⟩ := rebuildTiles_repairs (a := a) hd hk hrun
  have hone : a.store.contents.elements.length = 1 := by decide +kernel
  exact ⟨r, _, hrun, hrepaired, by rw [hrepaired.summary, ← hone]⟩

end Atlas
end TileAtlas
