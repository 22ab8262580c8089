import TileAtlas.Element
/-!
# Features

A feature is what a tile shows of an element: its tags and its assembled geometry.  An element in
several tiles with a long feature keeps it once, outside the tiles, and leaves a marker in each of
them.  Coastlines always do.
-/
namespace TileAtlas

structure Feature where
  id : ElementId
  tags : Tags
  geometry : Geometry
deriving DecidableEq

namespace Feature

def format : Format Feature :=
  (Format.elementId.pair (Format.tags.pair Format.geometry)).via (fun f => ⟨f.1, f.2.1, f.2.2⟩)
    fun f => (f.id, f.tags, f.geometry)

def encode (f : Feature) : Bytes := format.encodeRecord f

def decode (bs : Bytes) : Except CodecError Feature := format.decodeRecord .feature bs

end Feature

inductive StorageForm where
  /-- Every tile holds the feature. -/
  | inline
  /-- Every tile holds a marker. -/
  | reference
deriving DecidableEq

namespace StorageForm

def name : StorageForm → String
  | inline => "Inline"
  | reference => "Reference"

/-- The longest feature that is repeated in several tiles, unless configured otherwise. -/
def defaultInlineLimit : Nat := 2048

/-- The form of a feature of `length` bytes in `tiles` tiles. -/
def decide (kind : ElementKind) (tiles length inlineLimit : Nat) : StorageForm :=
  if kind = .coastline then reference
  else if 1 < tiles && inlineLimit < length then reference
  else inline

end StorageForm
end TileAtlas
