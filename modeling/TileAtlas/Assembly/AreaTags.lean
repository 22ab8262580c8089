import TileAtlas.Element
/-!
# Tags that make an area

Whether a closed way bounds an area or is a path that returns to its beginning is told by its tags:
by the area tag if it says yes or no, and otherwise by any tag that describes an area.  Some keys
describe areas but for a few values, others do for a few values only, and no tag with the value no
does.
-/
namespace TileAtlas

/-- For which values a key describes an area. -/
inductive AreaValues where
  | except (values : List String)
  | only (values : List String)
deriving DecidableEq

def AreaValues.holds : AreaValues → String → Bool
  | except values, v => !values.contains v
  | only values, v => values.contains v

namespace AreaTags

def rules : List (String × AreaValues) :=
  [("natural", .except ["coastline", "cliff", "ridge", "arete", "tree_row"]),
   ("man_made", .except ["cutline", "embankment", "pipeline"]),
   ("aeroway", .except ["taxiway", "runway", "parking_position"]),
   ("highway", .only ["services", "rest_area", "platform"]),
   ("railway", .only ["station", "turntable", "roundhouse", "platform"]),
   ("waterway", .only ["riverbank", "dock", "boatyard", "dam"]),
   ("power", .only ["plant", "substation", "generator", "transformer"])]

/-- The keys of which every value describes an area. -/
def keys : List String :=
  ["building", "building:part", "landuse", "leisure", "amenity", "water", "place", "boundary",
    "shop", "tourism", "historic", "military", "office", "craft", "golf", "public_transport"]

/-- What a key says of its values. -/
def valuesOf (key : String) : AreaValues :=
  match rules.lookup key with
  | some values => values
  | none => if keys.contains key then .except [] else .only []

def describesArea (tag : String × String) : Bool := tag.2 != "no" && (valuesOf tag.1).holds tag.2

end AreaTags

namespace Tags

/-- Whether a closed way with these tags is an area. -/
def isWayArea (tags : Tags) : Bool :=
  match tags["area"]? with
  | some "yes" => true
  | some "no" => false
  | _ => tags.toList.any AreaTags.describesArea

/-- Whether a relation with these tags is an area, made of its members' rings. -/
def isRelationArea (tags : Tags) : Bool :=
  match tags["type"]? with
  | some t => t == "multipolygon" || t == "boundary"
  | none => false

end Tags
end TileAtlas
