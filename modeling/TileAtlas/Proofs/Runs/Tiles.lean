import TileAtlas.Proofs.Runs.Basic
/-!
# Tiles after a run

Whatever was done with an index, its tile columns are those that its records call for
(`Atlas.run_tilesDerived`).  An element has an entry in every tile of its placement and in no other, all with
the same contents; the number and the list of these tiles are right; the feature is kept outside exactly if the
entries are markers.  So a tile that is read shows every element in it once, as its record has it now.
-/
namespace TileAtlas

namespace Atlas

/-- The placement of an element, computed from what the index has of it now. -/
def placementOf (a : Atlas) (id : ElementId) : Except IndexError (Option Placement) := do
  match ← Elements.get a.store.reader id with
  | some e => a.config.place a.store.reader e
  | none => return none

/-- The tile columns have an element where its placement puts it. -/
structure Stands (a : Atlas) (id : ElementId) (p : Option Placement) : Prop where
  entries : ∀ t, a.store.reader.get .tiles (Membership.key ⟨t, id⟩) =
    .ok (p.bind fun q => if t ∈ q.tiles then some q.entry else none)
  list : ElementTiles.get a.store.reader id = .ok (Placement.tilesOf p)
  /-- The count never wrapped. -/
  count : ∃ n, TileCounts.get a.store.reader id = .ok n ∧ n.toNat = (Placement.tilesOf p).size
  outside : ExternalFeature.get a.store.reader id = .ok (p.bind Placement.outside)
  absent : p = none → ∀ c : Column, c.isStanding = true → a.store.reader.get c id.key = .ok none

/-- A tile lists the elements that belong there, ascending, and each of them comes to one feature, with the tags of
its record and its geometry of now. -/
structure Lists (a : Atlas) (t : TilePosition) (found : List (ElementId × Bytes)) : Prop where
  ascending : (found.map (·.1)).Pairwise fun x y => compare x y = .lt
  mem : ∀ id, id ∈ found.map (·.1) ↔ ∃ p, a.placementOf id = .ok (some p) ∧ t ∈ p.tiles
  feature : ∀ id v, (id, v) ∈ found → ∃ e g shown, Elements.get a.store.reader id = .ok (some e) ∧
    e.geometry? a.store.reader = .ok (some g) ∧ g.simplify {} a.config.tileLevel = some shown ∧
    Membership.resolve a.store.reader id v = .ok (some (Feature.encode ⟨id, e.tags, shown⟩))

/-- The tile columns are exactly those that the records call for. -/
structure TilesDerived (a : Atlas) : Prop where
  stands : ∀ id, ∃ p, a.placementOf id = .ok p ∧ a.Stands id p
  unrecorded : ∀ id, Elements.get a.store.reader id = .ok none → a.placementOf id = .ok none
  /-- Nothing else is in these columns. -/
  entryKeys : ∀ {k v}, a.store.reader.get .tiles k = .ok (some v) → ∃ m : Membership, k = m.key
  idKeys : ∀ {c k v}, c.isStanding = true → a.store.reader.get c k = .ok (some v) → ∃ id : ElementId, k = id.key
  tiles : ∀ t, ∃ found, Membership.inTile a.store.reader t = .ok found ∧ a.Lists t found

/-- The elements of an index read as some records, and its tile columns hold the placements of these. -/
structure Places (a : Atlas) (records : Records) : Prop where
  read : records.ReadIn a.store.contents
  placed : Placements.StoredIn (a.config.placeAt records) a.store.contents

variable {a : Atlas} {records : Records}

theorem placementOf_eq (h : records.ReadAt a.store.contents) (id : ElementId) :
    a.placementOf id = .ok (a.config.placeAt records id) := by
  rw [placementOf, a.store.reader_eq, h.elements_get, IndexConfig.placeAt]
  cases records[id]? with
  | none => rfl
  | some e => exact a.config.place_eq h e

theorem Places.stands (h : a.Places records) (id : ElementId) : a.Stands id (a.config.placeAt records id) := by
  have hreads : (a.store.contents.standing id).ReadsAs (a.config.placeAt records id) :=
    h.placed.readsAs fun _ => IndexConfig.placeAt_valid
  constructor
  · intro t
    rw [a.store.reader_eq, Contents.reader_get]
    exact congrArg Except.ok (hreads.entries t)
  · rw [a.store.reader_eq]
    exact hreads.list
  · rw [a.store.reader_eq]
    exact hreads.count
  · rw [a.store.reader_eq, ExternalFeature.get, Contents.reader_get]
    exact congrArg Except.ok hreads.outside
  · intro hnone c hc
    have hstanding := h.placed.standing id
    rw [hnone] at hstanding
    rw [a.store.reader_eq, Contents.reader_get]
    refine congrArg Except.ok ?_
    cases c with
    | tileCounts => exact congrArg Standing.count hstanding
    | elementTiles => exact congrArg Standing.list hstanding
    | external => exact congrArg Standing.outside hstanding
    | _ => cases hc

theorem Places.feature (h : a.Places records) {id : ElementId} {p : Placement}
    (hp : a.config.placeAt records id = some p) : ∃ e g shown, Elements.get a.store.reader id = .ok (some e) ∧
      e.geometry? a.store.reader = .ok (some g) ∧ g.simplify {} a.config.tileLevel = some shown ∧
      p.payload = Feature.encode ⟨id, e.tags, shown⟩ := by
  obtain ⟨e, he, hplace⟩ := Option.bind_eq_some_iff.1 hp
  rw [IndexConfig.placeIn] at hplace
  split at hplace
  · obtain ⟨g, hg, hgeom⟩ := Option.bind_eq_some_iff.1 hplace
    obtain ⟨shown, hshown, -, -, -, hpayload⟩ := IndexConfig.placeGeometry_eq hgeom
    refine ⟨e, g, shown, ?_, ?_, hshown, by rw [hpayload, h.read.id_eq he]⟩
    · rw [a.store.reader_eq, h.read.elements_get, he]
    · rw [a.store.reader_eq, h.read.geometry?_eq, hg]
  · cases hplace

theorem Places.lists (h : a.Places records) (t : TilePosition) :
    ∃ found, Membership.inTile a.store.reader t = .ok found ∧ a.Lists t found := by
  obtain ⟨found, hfound, hasc, hmem⟩ := h.placed.inTile t
  rw [← a.store.reader_eq] at hfound
  refine ⟨found, hfound, hasc, fun id => ?_, fun id v hv => ?_⟩
  · rw [placementOf_eq h.read.toReadAt]
    constructor
    · intro hid
      obtain ⟨⟨x, v⟩, hv, rfl⟩ := List.mem_map.1 hid
      obtain ⟨p, hp, ht, -⟩ := (hmem x v).1 hv
      exact ⟨p, congrArg Except.ok hp, ht⟩
    · rintro ⟨p, hp, ht⟩
      exact List.mem_map.2 ⟨(id, p.entry), (hmem id _).2 ⟨p, Except.ok.inj hp, ht, rfl⟩, rfl⟩
  · obtain ⟨p, hp, -, rfl⟩ := (hmem id v).1 hv
    obtain ⟨e, g, shown, he, hg, hshown, hpayload⟩ := h.feature hp
    refine ⟨e, g, shown, he, hg, hshown, ?_⟩
    rw [← hpayload, a.store.reader_eq, h.placed.resolve hp (IndexConfig.placeAt_valid hp)]

theorem Places.tilesDerived (h : a.Places records) : a.TilesDerived where
  stands id := ⟨_, placementOf_eq h.read.toReadAt id, h.stands id⟩
  unrecorded id hid := by rw [placementOf, hid]; rfl
  entryKeys {k v} hk := by
    rw [a.store.reader_eq, Contents.reader_get] at hk
    exact h.placed.entryKeys (Except.ok.inj hk)
  idKeys {c k v} hc hk := by
    rw [a.store.reader_eq, Contents.reader_get] at hk
    exact h.placed.idKeys hc (Except.ok.inj hk)
  tiles := h.lists

theorem Tells.tilesDerived {config : IndexConfig} {l : Ledger} (h : a.Tells config l) : a.TilesDerived := by
  obtain ⟨rfl, h⟩ := h
  exact Places.tilesDerived ⟨h.indexed.readIn, h.placed⟩

/-- **After every run the tile columns are exactly those that the records call for.** -/
theorem run_tilesDerived (config : IndexConfig) (start : OpenStore) (actions : List Action) :
    (run config start.toEmptyStore actions).TilesDerived := (run_tells config start actions).1.tilesDerived

end Atlas
end TileAtlas
