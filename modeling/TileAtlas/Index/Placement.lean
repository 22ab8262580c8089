import TileAtlas.Assembly
import TileAtlas.Config
import TileAtlas.Index.Elements
import TileAtlas.Index.Tiles
import TileAtlas.Simplify
import TileAtlas.Tile.Cover
/-!
# Placing elements in tiles

Where an element goes follows from its record and the records it is made of: its geometry is
assembled from the places of nodes, thinned for the level of the index, and covered with tiles.
Elements that are deleted, that nothing is said about, or that come to nothing go nowhere.

`place` reads, `Placement.write` and `Placement.clear` are the writes that follow.
-/
namespace TileAtlas

structure Placement where
  tiles : TileSet
  form : StorageForm
  /-- The record of the feature. -/
  payload : Bytes

/-! ## Geometry of a record -/

/-- The place of a visible node. -/
def Element.location? (e : Element) : Option Point :=
  if e.visible then
    match e.body with
    | .node location => location
    | _ => none
  else none

/-- The nodes of a visible way. -/
def Element.wayNodes? (e : Element) : Option (List ElementId) :=
  if e.visible then
    match e.body with
    | .way nodes => some nodes
    | _ => none
  else none

/-- The places of those nodes that have one. -/
def Elements.locations (r : Reader) (nodes : List ElementId) : Except IndexError (List Point) := do
  return (← Elements.getMany r nodes).filterMap fun record => record.bind Element.location?

/-- A member with its record, as a member way. -/
def memberWay? (r : Reader) (m : Member) (record : Option Element) :
    Except IndexError (Option MemberWay) :=
  match record.bind Element.wayNodes? with
  | none => .ok none
  | some nodes => do return some ⟨m.role, ← Elements.locations r nodes⟩

/-- Those members of a relation that are ways. -/
def memberWays (r : Reader) (members : List Member) : Except IndexError (List MemberWay) := do
  let ways := members.filter (·.id.kind == .way)
  let records ← Elements.getMany r (ways.map (·.id))
  return (← (ways.zip records).mapM fun p => memberWay? r p.1 p.2).filterMap id

namespace Element

/-- The full geometry of an element. -/
def geometry? (r : Reader) (e : Element) : Except IndexError (Option Geometry) :=
  match e.body with
  | .node location => .ok (location.map .point)
  | .way nodes => do return Assembly.ofWay? e.tags (← Elements.locations r nodes)
  | .relation members => do return Assembly.ofRelation? e.tags (← memberWays r members)
  | .coastline geometry => .ok geometry

/-- Whether an element is to be shown: coastlines need no tags. -/
def isShown (e : Element) : Bool := e.visible && (!e.tags.isEmpty || e.id.kind == .coastline)

end Element

/-! ## Placement of a record -/

/-- The placement of a geometry with its tags. -/
def IndexConfig.placeGeometry (config : IndexConfig) (id : ElementId) (tags : Tags) (g : Geometry) :
    Option Placement := do
  let shown ← g.simplify {} config.tileLevel
  let tiles := shown.tileSet config.tileLevel
  if tiles.isEmpty then none
  else
    let payload := Feature.encode ⟨id, tags, shown⟩
    some ⟨tiles, .decide id.kind tiles.size payload.length config.inlineLimit, payload⟩

/-- The placement of an element, unless it goes nowhere. -/
def IndexConfig.place (config : IndexConfig) (r : Reader) (e : Element) :
    Except IndexError (Option Placement) :=
  if e.isShown then do
    return (← e.geometry? r).bind (config.placeGeometry e.id e.tags)
  else .ok none

namespace Placement

/-- Take out of the index what stands there of an element in some tiles. -/
def clear (id : ElementId) (tiles : TileSet) : List Op :=
  if tiles.isEmpty then []
  else
    Membership.remove tiles.toList id ++
      [ExternalFeature.delete id, TileCounts.change id (-tiles.size), ElementTiles.delete id]

/-- Put an element into the tiles of its placement. -/
def writeTiles (id : ElementId) (p : Placement) : List Op :=
  match p.form with
  | .inline => Membership.add p.tiles.toList id p.payload
  | .reference => ExternalFeature.put id p.payload :: Membership.add p.tiles.toList id []

/-- Put an element where it belongs, or note that it belongs nowhere. -/
def write (id : ElementId) : Option Placement → List Op
  | none => [TileCounts.delete id]
  | some p => p.writeTiles id ++ [TileCounts.change id p.tiles.size, ElementTiles.set id p.tiles]

end Placement
end TileAtlas
