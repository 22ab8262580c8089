import TileAtlas.Bytes
/-!
# Columns

A store keeps nine maps from keys to values side by side, one for each kind of fact.
-/
namespace TileAtlas

inductive Column where
  /-- Element to its record. -/
  | elements
  /-- Element to the elements made of it. -/
  | references
  /-- Tile and element to the feature, or to a marker. -/
  | tiles
  /-- Element to the number of its tiles. -/
  | tileCounts
  /-- Element to its tiles. -/
  | elementTiles
  /-- Element to its feature, when its tiles hold markers. -/
  | external
  | dirtyTiles
  | dirtyElements
  /-- Name to value. -/
  | properties
deriving DecidableEq, Repr

namespace Column

def all : List Column :=
  [elements, references, tiles, tileCounts, elementTiles, external, dirtyTiles, dirtyElements,
    properties]

def name : Column → String
  | elements => "elements"
  | references => "references"
  | tiles => "tiles"
  | tileCounts => "tile_counts"
  | elementTiles => "element_tiles"
  | external => "external"
  | dirtyTiles => "dirty_tiles"
  | dirtyElements => "dirty_elements"
  | properties => "properties"

/-- The name in diagnostics. -/
def title : Column → String
  | elements => "Elements"
  | references => "References"
  | tiles => "Tiles"
  | tileCounts => "TileCounts"
  | elementTiles => "ElementTiles"
  | external => "External"
  | dirtyTiles => "DirtyTiles"
  | dirtyElements => "DirtyElements"
  | properties => "Properties"

/-- The number under which a file keeps the column. -/
def number : Column → Nat
  | elements => 0
  | references => 1
  | tiles => 2
  | tileCounts => 3
  | elementTiles => 4
  | external => 5
  | dirtyTiles => 6
  | dirtyElements => 7
  | properties => 8

def ofName? (s : String) : Option Column := all.find? (·.name = s)

def ofNumber? (n : Nat) : Option Column := all.find? (·.number = n)

theorem mem_all (c : Column) : c ∈ all := by cases c <;> decide

end Column

/-- One value for each column. -/
structure Columns (α : Type) where
  elements : α
  references : α
  tiles : α
  tileCounts : α
  elementTiles : α
  external : α
  dirtyTiles : α
  dirtyElements : α
  properties : α
deriving DecidableEq

namespace Columns

variable {α : Type}

def const (a : α) : Columns α := ⟨a, a, a, a, a, a, a, a, a⟩

def get (cs : Columns α) : Column → α
  | .elements => cs.elements
  | .references => cs.references
  | .tiles => cs.tiles
  | .tileCounts => cs.tileCounts
  | .elementTiles => cs.elementTiles
  | .external => cs.external
  | .dirtyTiles => cs.dirtyTiles
  | .dirtyElements => cs.dirtyElements
  | .properties => cs.properties

def set (cs : Columns α) (c : Column) (a : α) : Columns α :=
  match c with
  | .elements => { cs with elements := a }
  | .references => { cs with references := a }
  | .tiles => { cs with tiles := a }
  | .tileCounts => { cs with tileCounts := a }
  | .elementTiles => { cs with elementTiles := a }
  | .external => { cs with external := a }
  | .dirtyTiles => { cs with dirtyTiles := a }
  | .dirtyElements => { cs with dirtyElements := a }
  | .properties => { cs with properties := a }

def modify (cs : Columns α) (c : Column) (f : α → α) : Columns α := cs.set c (f (cs.get c))

@[simp] theorem get_const (a : α) (c : Column) : (const a).get c = a := by cases c <;> rfl

@[simp] theorem get_set_self (cs : Columns α) (c : Column) (a : α) : (cs.set c a).get c = a := by
  cases c <;> rfl

theorem get_set_of_ne (cs : Columns α) {c d : Column} (h : d ≠ c) (a : α) :
    (cs.set c a).get d = cs.get d := by
  cases c <;> cases d <;> first | rfl | exact absurd rfl h

theorem get_set (cs : Columns α) (c d : Column) (a : α) :
    (cs.set c a).get d = if d = c then a else cs.get d := by
  by_cases h : d = c
  · subst h; simp
  · simp [h, get_set_of_ne cs h]

theorem ext_get {cs ds : Columns α} (h : ∀ c, cs.get c = ds.get c) : cs = ds := by
  cases cs; cases ds
  simp only [mk.injEq]
  exact ⟨h .elements, h .references, h .tiles, h .tileCounts, h .elementTiles, h .external,
    h .dirtyTiles, h .dirtyElements, h .properties⟩

end Columns
end TileAtlas
