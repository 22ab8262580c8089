import TileAtlas.Element
import TileAtlas.Index.Error
/-!
# Stored elements

The record of an element, or of what is left of a deleted one, under its identifier.
-/
namespace TileAtlas
namespace Elements

/-- The element that a record tells; errors name the element it is stored under. -/
def read (id : ElementId) (record : Bytes) : Except IndexError Element :=
  (Element.decode record).mapError (.codec .element id)

def readStored (id : ElementId) : Option Bytes → Except IndexError (Option Element)
  | none => .ok none
  | some record => some <$> read id record

def get (r : Reader) (id : ElementId) : Except IndexError (Option Element) := do
  readStored id (← asking (r.get .elements id.key))

/-- The elements of some identifiers, in their order. -/
def getMany (r : Reader) (ids : List ElementId) : Except IndexError (List (Option Element)) := do
  let records ← asking (r.getMany .elements (ids.map (·.key)))
  (ids.zip records).mapM fun p => readStored p.1 p.2

def put (e : Element) : Op := .put .elements e.id.key e.encode

/-- The element of an entry of the column. -/
def ofPair (p : Pair) : Except IndexError Element := do
  read (← Column.elements.elementOf p.1) p.2

end Elements
end TileAtlas
