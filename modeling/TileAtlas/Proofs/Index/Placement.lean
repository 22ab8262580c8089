import Mathlib.Data.List.Basic
import TileAtlas.Index.Placement
import TileAtlas.Proofs.Index.Elements
import TileAtlas.Proofs.Tile.Bounds
/-!
# Where elements belong

The placement of an element is a function of the records (`IndexConfig.placeIn`), and `place` computes it
from the column that holds them.  It looks at the records that the element names and, for a relation, at
those that its member ways name, so that it stays what it was unless one of these changed
(`placeIn_of_closed`).
-/
namespace TileAtlas

/-! ## Geometry from records -/

namespace Records

variable {records records' : Records} {s : Contents}

/-- The places of those nodes that have one. -/
def locations (records : Records) (nodes : List ElementId) : List Point :=
  nodes.filterMap fun n => (records[n]?).bind Element.location?

/-- A member that is a visible way. -/
def memberWay? (records : Records) (m : Member) : Option MemberWay :=
  ((records[m.id]?).bind Element.wayNodes?).map fun nodes => ⟨m.role, records.locations nodes⟩

/-- Those members of a relation that are ways. -/
def memberWays (records : Records) (members : List Member) : List MemberWay :=
  (members.filter (·.id.kind == .way)).filterMap records.memberWay?

/-- The full geometry of an element. -/
def geometry? (records : Records) (e : Element) : Option Geometry :=
  match e.body with
  | .node location => location.map .point
  | .way nodes => Assembly.ofWay? e.tags (records.locations nodes)
  | .relation members => Assembly.ofRelation? e.tags (records.memberWays members)
  | .coastline geometry => geometry

theorem ReadAt.locations_eq (h : records.ReadAt s) (nodes : List ElementId) :
    Elements.locations s.reader nodes = .ok (records.locations nodes) := by
  rw [Elements.locations, h.elements_getMany, locations]
  change Except.ok _ = Except.ok _
  rw [List.filterMap_map]; rfl

theorem ReadAt.memberWay?_eq (h : records.ReadAt s) (m : Member) :
    TileAtlas.memberWay? s.reader m records[m.id]? = .ok (records.memberWay? m) := by
  rw [TileAtlas.memberWay?, memberWay?]
  cases hw : (records[m.id]?).bind Element.wayNodes? with
  | none => rfl
  | some nodes =>
    simp only [h.locations_eq]
    rfl

theorem ReadAt.memberWays_eq (h : records.ReadAt s) (members : List Member) :
    TileAtlas.memberWays s.reader members = .ok (records.memberWays members) := by
  have hmap : (((members.filter (·.id.kind == .way)).zip
      (((members.filter (·.id.kind == .way)).map (·.id)).map fun id => records[id]?)).mapM fun p =>
        TileAtlas.memberWay? s.reader p.1 p.2) = .ok ((members.filter (·.id.kind == .way)).map records.memberWay?) := by
    rw [List.map_map, zip_map_self]
    exact mapM_map_ok fun m _ => h.memberWay?_eq m
  rw [TileAtlas.memberWays]
  simp only [h.elements_getMany, bind, Except.bind] at hmap ⊢
  rw [hmap]
  change Except.ok _ = Except.ok _
  rw [List.filterMap_map]; rfl

theorem ReadAt.geometry?_eq (h : records.ReadAt s) (e : Element) :
    e.geometry? s.reader = .ok (records.geometry? e) := by
  unfold Element.geometry? geometry?
  cases e.body with
  | node location => rfl
  | way nodes => simp only [h.locations_eq]; rfl
  | relation members => simp only [h.memberWays_eq]; rfl
  | coastline g => rfl

/-- The geometry of an element stays the same with the records that it is made of. -/
theorem geometry?_congr {e : Element} (h : ∀ r ∈ e.body.memberIds, records[r]? = records'[r]? ∧
    ∀ nodes, (records[r]?).bind Element.wayNodes? = some nodes → ∀ n ∈ nodes, records[n]? = records'[n]?) :
    records.geometry? e = records'.geometry? e := by
  have hloc : ∀ nodes : List ElementId, (∀ n ∈ nodes, records[n]? = records'[n]?) →
      records.locations nodes = records'.locations nodes := fun nodes hn =>
    List.filterMap_congr fun n hmem => by rw [hn n hmem]
  rw [ geometry?.eq_def, geometry?.eq_def]
  split
  · rfl
  · rename_i nodes hbody
    rw [hloc nodes fun n hn => (h n (by rwa [hbody])).1]
  · rename_i members hbody
    have hways : records.memberWays members = records'.memberWays members :=
      List.filterMap_congr fun m hm => by
        have hid : m.id ∈ e.body.memberIds := by
          rw [hbody]; exact List.mem_map_of_mem (List.mem_filter.1 hm).1
        obtain ⟨hsame, hnodes⟩ := h m.id hid
        rw [memberWay?, memberWay?, ← hsame]
        cases hw : (records[m.id]?).bind Element.wayNodes? with
        | none => rfl
        | some nodes => simp only [Option.map_some, hloc nodes (hnodes nodes hw)]
    rw [hways]
  · rfl

end Records

/-! ## Placements -/

theorem Element.visible_of_wayNodes {e : Element} {nodes : List ElementId} (h : e.wayNodes? = some nodes) :
    e.visible = true ∧ e.body.memberIds = nodes := by
  rw [wayNodes?] at h
  split at h
  · rename_i hv
    split at h
    · rename_i ns hbody
      cases h
      exact ⟨hv, by rw [hbody]; rfl⟩
    · cases h
  · cases h

theorem Element.visible_of_isShown {e : Element} (h : e.isShown = true) : e.visible = true := by
  rw [isShown, Bool.and_eq_true] at h
  exact h.1

namespace IndexConfig

/-- The placement of an element among some records. -/
def placeIn (config : IndexConfig) (records : Records) (e : Element) : Option Placement :=
  if e.isShown then (records.geometry? e).bind (config.placeGeometry e.id e.tags) else none

/-- The placement of the record of an identifier. -/
def placeAt (config : IndexConfig) (records : Records) (id : ElementId) : Option Placement :=
  (records[id]?).bind (config.placeIn records)

/-- **`place` computes the placement from the column of elements.** -/
theorem place_eq (config : IndexConfig) {records : Records} {s : Contents} (h : records.ReadAt s)
    (e : Element) : config.place s.reader e = .ok (config.placeIn records e) := by
  rw [place, placeIn]
  split
  · rw [h.geometry?_eq]; rfl
  · rfl

/-- **A placement stays what it was outside of a set of elements that holds whatever changed, and whatever is made of
its members.** -/
theorem placeIn_of_closed (config : IndexConfig) {records records' : Records} {dirty : ElementId → Prop}
    (hclosed : ∀ r e, records'.links r e → dirty r → dirty e)
    (hsame : ∀ id, ¬ dirty id → records'[id]? = records[id]?) {id : ElementId} {e : Element} (hid : ¬ dirty id)
    (he : records'[id]? = some e) : config.placeIn records' e = config.placeIn records e := by
  rw [placeIn, placeIn]
  split
  · rename_i hshown
    have hvis := Element.visible_of_isShown hshown
    have hgeom : records'.geometry? e = records.geometry? e := Records.geometry?_congr fun r hr => by
      -- a member that is dirty makes the element dirty, and a node of a member way makes the member so
      have hr' : ¬ dirty r := fun hd => hid (hclosed r id ⟨e, he, hvis, Element.mem_referents.2 hr⟩ hd)
      refine ⟨hsame r hr', fun nodes hnodes n hn => hsame n fun hd => hr' ?_⟩
      obtain ⟨w, hw, hwn⟩ := Option.bind_eq_some_iff.1 hnodes
      obtain ⟨hwv, hwm⟩ := Element.visible_of_wayNodes hwn
      exact hclosed n r ⟨w, hw, hwv, Element.mem_referents.2 (by rwa [hwm])⟩ hd
    rw [hgeom]
  · rfl

theorem placeAt_of_closed (config : IndexConfig) {records records' : Records} {dirty : ElementId → Prop}
    (hclosed : ∀ r e, records'.links r e → dirty r → dirty e)
    (hsame : ∀ id, ¬ dirty id → records'[id]? = records[id]?) {id : ElementId} (hid : ¬ dirty id) :
    config.placeAt records' id = config.placeAt records id := by
  rw [placeAt, placeAt, ← hsame id hid]
  cases he : records'[id]? with
  | none => rfl
  | some e => exact config.placeIn_of_closed hclosed hsame hid he

/-- What a placement is made of. -/
theorem placeGeometry_eq {config : IndexConfig} {id : ElementId} {tags : Tags} {g : Geometry} {p : Placement}
    (h : config.placeGeometry id tags g = some p) : ∃ shown, g.simplify {} config.tileLevel = some shown ∧
      (shown.tileSet config.tileLevel).isEmpty = false ∧ p.tiles = shown.tileSet config.tileLevel ∧
      p.form = .decide id.kind p.tiles.size p.payload.length config.inlineLimit ∧
      p.payload = Feature.encode ⟨id, tags, shown⟩ := by
  rw [placeGeometry] at h
  obtain ⟨shown, hshown, h⟩ := Option.bind_eq_some_iff.1 h
  dsimp only at h
  split at h
  · cases h
  · rename_i hne
    cases h
    exact ⟨shown, hshown, Bool.eq_false_iff.2 hne, rfl, rfl, rfl⟩

end IndexConfig

/-- What every placement keeps to: it has tiles, so many that they can be counted, and its payload is not taken
for a marker. -/
structure Placement.Valid (p : Placement) : Prop where
  tiles_ne : p.tiles.isEmpty = false
  size_lt : p.tiles.size < UInt64.size
  payload_ne : p.payload ≠ []

namespace IndexConfig

theorem placeGeometry_valid {config : IndexConfig} {id : ElementId} {tags : Tags} {g : Geometry} {p : Placement}
    (h : config.placeGeometry id tags g = some p) : p.Valid := by
  obtain ⟨shown, -, hne, htiles, -, hpayload⟩ := placeGeometry_eq h
  refine ⟨by rw [htiles, hne], by rw [htiles]; exact shown.tileSet_size_lt _, ?_⟩
  rw [hpayload]
  exact List.cons_ne_nil _ _

theorem placeIn_valid {config : IndexConfig} {records : Records} {e : Element} {p : Placement}
    (h : config.placeIn records e = some p) : p.Valid := by
  rw [placeIn] at h
  split at h
  · obtain ⟨g, -, hg⟩ := Option.bind_eq_some_iff.1 h
    exact placeGeometry_valid hg
  · cases h

theorem placeAt_valid {config : IndexConfig} {records : Records} {id : ElementId} {p : Placement}
    (h : config.placeAt records id = some p) : p.Valid := by
  obtain ⟨e, -, he⟩ := Option.bind_eq_some_iff.1 h
  exact placeIn_valid he

end IndexConfig
end TileAtlas
