import TileAtlas.Record
import TileAtlas.Store.Op
/-!
# What can be wrong with an index

The columns of an index hold keys and values of known layouts.  Reading finds out when one has
another layout, and says which.
-/
namespace TileAtlas

/-- A part of a stored entry. -/
inductive IndexPart where
  | elementKey
  | tileKey
  | membershipKey
  | tileCount
  | tileList
  | propertyValue
deriving DecidableEq

def IndexPart.name : IndexPart → String
  | elementKey => "element key"
  | tileKey => "tile key"
  | membershipKey => "membership key"
  | tileCount => "tile count"
  | tileList => "tile list"
  | propertyValue => "property value"

inductive IndexError where
  | store (source : StoreError)
  | codec (what : RecordType) (id : ElementId) (source : CodecError)
  /-- The set of an element's referrers cannot be read. -/
  | references (referent : ElementId) (source : MergeError)
  | corrupt (column : Column) (what : IndexPart)
deriving DecidableEq

def IndexError.message : IndexError → String
  | store e => e.message
  | codec what id e => s!"failed to encode or decode the {what.name} of {id.text}: {e.message}"
  | references r e => s!"reference set of {r.text} is unreadable: {e.message}"
  | corrupt c what => s!"malformed {what.name} in column {c.title}"

/-- Ask a store, as a part of asking an index. -/
def asking (r : Except StoreError α) : Except IndexError α := r.mapError .store

/-- The element that a key names. -/
def Column.elementOf (c : Column) (key : Bytes) : Except IndexError ElementId :=
  match ElementId.ofKey? key with
  | some id => .ok id
  | none => .error (.corrupt c .elementKey)

end TileAtlas
