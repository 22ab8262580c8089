import TileAtlas.Config
import TileAtlas.Index.Error
/-!
# Who refers to an element

For every element that others are made of, the index keeps those others.  In the merged layout
they are one value, changed by merging, so that a change needs no reading; in the legacy layout
each of them is a key of its own, which begins with the element referred to.
-/
namespace TileAtlas

/-- The key of one reference in the legacy layout. -/
def referenceKey (referent referrer : ElementId) : Bytes := referent.key ++ referrer.key

namespace ReferenceLayout

/-- Note that `referrer` is made of `referent`. -/
def add (l : ReferenceLayout) (referent referrer : ElementId) : Op :=
  match l with
  | merged => .merge .references referent.key (ReferenceCounts.adding referrer)
  | legacy => .put .references (referenceKey referent referrer) []

/-- Note that `referrer` is not made of `referent` any more. -/
def remove (l : ReferenceLayout) (referent referrer : ElementId) : Op :=
  match l with
  | merged => .merge .references referent.key (ReferenceCounts.removing referrer)
  | legacy => .delete .references (referenceKey referent referrer)

/-- Forget everyone who refers to an element. -/
def removeAll (l : ReferenceLayout) (referent : ElementId) : Op :=
  match l with
  | merged => .delete .references referent.key
  | legacy => .deleteRange .references (.beginningWith referent.key)

/-- The elements that a stored set lists. -/
def readSet (referent : ElementId) (set : Bytes) : Except IndexError (List ElementId) :=
  match ReferenceCounts.decode .referenceSet set with
  | .ok counts => .ok counts.members
  | .error e => .error (.references referent e)

/-- The elements that refer to one, ascending. -/
def referrers (l : ReferenceLayout) (r : Reader) (referent : ElementId) :
    Except IndexError (List ElementId) :=
  match l with
  | merged => do
    match ← asking (r.get .references referent.key) with
    | some set => readSet referent set
    | none => return []
  | legacy => do
    let pairs ← asking (r.scan .references (.beginningWith referent.key) .ascending)
    pairs.mapM fun p => Column.references.elementOf (p.1.drop 8)

end ReferenceLayout
end TileAtlas
