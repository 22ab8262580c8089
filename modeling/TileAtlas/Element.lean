import TileAtlas.ElementId
import TileAtlas.Geometry
import TileAtlas.Record
import Std.Data.ExtTreeSet.Lemmas
/-!
# Elements

An element is a numbered state of a node, a way, a relation or a coastline: its tags, and what it
is made of.  A way is a list of nodes and a relation a list of members with roles; those are its
**referents**.  A deleted element leaves a tombstone, which keeps its version.
-/
namespace TileAtlas

/-- Tags in the order of their keys. -/
abbrev Tags := Std.ExtTreeMap String String

structure Member where
  id : ElementId
  role : String
deriving DecidableEq

inductive ElementBody where
  | node (location : Option Point)
  | way (nodes : List ElementId)
  | relation (members : List Member)
  | coastline (geometry : Option Geometry)
deriving DecidableEq

namespace ElementBody

/-- What is left of a deleted element. -/
def empty : ElementKind → ElementBody
  | .node => node none
  | .way => way []
  | .relation => relation []
  | .coastline => coastline none

def kind : ElementBody → ElementKind
  | node _ => .node
  | way _ => .way
  | relation _ => .relation
  | coastline _ => .coastline

/-- The elements that a body names, as it names them. -/
def memberIds : ElementBody → List ElementId
  | way nodes => nodes
  | relation members => members.map (·.id)
  | _ => []

def hasMembers (b : ElementBody) : Bool := !b.memberIds.isEmpty

end ElementBody

structure Element where
  id : ElementId
  version : UInt32
  visible : Bool
  tags : Tags
  body : ElementBody
deriving DecidableEq

namespace Element

def tombstone (id : ElementId) (version : UInt32) : Element :=
  ⟨id, version, false, ∅, .empty id.kind⟩

/-- The elements that this one is made of, ascending and each once. -/
def referents (e : Element) : List ElementId := (Std.ExtTreeSet.ofList e.body.memberIds).toList

end Element

/-! ## Formats -/

namespace Format

def elementId : Format ElementId := (word 8).via (fun n => ⟨UInt64.ofNat n⟩) (·.raw.toNat)

def int32 : Format Int32 := (word 4).via (fun n => (UInt32.ofNat n).toInt32) (·.toUInt32.toNat)

def point : Format Point := (int32.pair int32).via (fun p => ⟨p.1, p.2⟩) fun p => (p.x, p.y)

def shape : Format Shape :=
  ((list point).pair (list (list point))).via (fun s => ⟨s.1, s.2⟩) fun s => (s.outer, s.holes)

def geometry : Format Geometry :=
  choice
    (fun
      | .point _ => 0
      | .multiPoint _ => 1
      | .line _ => 2
      | .area _ => 3)
    (fun
      | 0 => some <| point.via .point fun
        | .point p => p
        | _ => ⟨0, 0⟩
      | 1 => some <| (list point).via .multiPoint fun
        | .multiPoint ps => ps
        | _ => []
      | 2 => some <| (list point).via .line fun
        | .line ps => ps
        | _ => []
      | 3 => some <| (list shape).via .area fun
        | .area shapes => shapes
        | _ => []
      | _ => none)

/-- Tags are written in the order of their keys; of tags read with one key the last one counts. -/
def tags : Format Tags :=
  (list (string.pair string)).via (fun ts => Std.ExtTreeMap.ofList ts) fun ts => ts.toList

def member : Format Member := (elementId.pair string).via (fun m => ⟨m.1, m.2⟩) fun m => (m.id, m.role)

def elementBody : Format ElementBody :=
  choice
    (fun b => b.kind.code)
    (fun
      | 0 => some <| (option point).via .node fun
        | .node location => location
        | _ => none
      | 1 => some <| (list elementId).via .way fun
        | .way nodes => nodes
        | _ => []
      | 2 => some <| (list member).via .relation fun
        | .relation members => members
        | _ => []
      | 3 => some <| (option geometry).via .coastline fun
        | .coastline g => g
        | _ => none
      | _ => none)

def element : Format Element :=
  (elementId.pair ((word 4).pair (bool.pair (tags.pair elementBody)))).via
    (fun e => ⟨e.1, UInt32.ofNat e.2.1, e.2.2.1, e.2.2.2.1, e.2.2.2.2⟩)
    fun e => (e.id, e.version.toNat, e.visible, e.tags, e.body)

end Format

namespace Element

def encode (e : Element) : Bytes := Format.element.encodeRecord e

def decode (bs : Bytes) : Except CodecError Element := Format.element.decodeRecord .element bs

end Element
end TileAtlas
