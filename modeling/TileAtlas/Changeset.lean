import TileAtlas.Element
import TileAtlas.Json.Parse
/-!
# Changesets

A changeset is a list of entries that create, modify or delete elements, in the order in which they
apply.  An entry carries the whole new state of its element.  A changeset may have a number in a
sequence and a time, and its entries times of their own.

Documents are read strictly: a field of a record may not come twice, and null stands only for
numbers and geometries that may be missing.
-/
namespace TileAtlas

inductive Operation where
  | create
  | modify
  | delete
deriving DecidableEq

namespace Operation

def name : Operation → String
  | create => "create"
  | modify => "modify"
  | delete => "delete"

/-- The name in diagnostics. -/
def title : Operation → String
  | create => "Create"
  | modify => "Modify"
  | delete => "Delete"

def ofName? (s : String) : Option Operation := [create, modify, delete].find? (·.name = s)

end Operation

structure MemberDelta where
  kind : ElementKind
  number : Nat
  role : String
deriving DecidableEq

/-- The new state of an element, as an entry tells it. -/
structure ElementDelta where
  kind : ElementKind
  number : Nat
  version : UInt32
  tags : Tags := ∅
  lon : Option Float := none
  lat : Option Float := none
  nodes : List Nat := []
  members : List MemberDelta := []
  geometry : Option Geometry := none

structure ChangesetEntry where
  op : Operation
  /-- Seconds since 1970. -/
  timestamp : Option Int64 := none
  element : ElementDelta

structure Changeset where
  sequence : Option UInt64 := none
  timestamp : Option Int64 := none
  entries : List ChangesetEntry

/-- A part of an element that an entry must tell. -/
inductive RequiredField where
  | location
  | geometry
deriving DecidableEq

def RequiredField.name : RequiredField → String
  | location => "location"
  | geometry => "geometry"

inductive ChangesetError where
  | id (source : ElementIdError)
  | location (id : ElementId) (source : PointError)
  | missing (id : ElementId) (field : RequiredField)
deriving DecidableEq

def ChangesetError.message : ChangesetError → String
  | id e => s!"invalid element id: {e.message}"
  | location i e => s!"{i.text} has an invalid location: {e.message}"
  | missing i f => s!"{i.text} is missing its {f.name}"

namespace ElementDelta

def elementId (d : ElementDelta) : Except ChangesetError ElementId :=
  (ElementId.ofLocal d.kind d.number).mapError .id

def hasMembers (d : ElementDelta) : Bool := !d.nodes.isEmpty || !d.members.isEmpty

def MemberDelta.member (m : MemberDelta) : Except ElementIdError Member := do
  return ⟨← ElementId.ofLocal m.kind m.number, m.role⟩

/-- What the element is made of. -/
def body (d : ElementDelta) (id : ElementId) : Except ChangesetError ElementBody :=
  match d.kind with
  | .node =>
    match d.lon, d.lat with
    | some lon, some lat =>
      match Point.ofDegrees lon lat with
      | .ok p => .ok (.node (some p))
      | .error e => .error (.location id e)
    | _, _ => .error (.missing id .location)
  | .way =>
    match d.nodes.mapM (ElementId.ofLocal .node) with
    | .ok nodes => .ok (.way nodes)
    | .error e => .error (.id e)
  | .relation =>
    match d.members.mapM MemberDelta.member with
    | .ok members => .ok (.relation members)
    | .error e => .error (.id e)
  | .coastline =>
    match d.geometry with
    | some g => .ok (.coastline (some g))
    | none => .error (.missing id .geometry)

/-- The visible element that the entry tells. -/
def toElement (d : ElementDelta) : Except ChangesetError Element := do
  let id ← d.elementId
  return ⟨id, d.version, true, d.tags, ← d.body id⟩

end ElementDelta

/-- The time of a changeset, or else of its newest entry. -/
def Changeset.effectiveTimestamp (c : Changeset) : Option Int64 :=
  match c.timestamp with
  | some t => some t
  | none => (c.entries.filterMap (·.timestamp)).max?

/-! ## Documents -/

namespace Document

def kind? (j : Json) : Option ElementKind := do ElementKind.ofName? (← j.choice?)

def operation? (j : Json) : Option Operation := do Operation.ofName? (← j.choice?)

def coordinate? (j : Json) : Option Int32 :=
  (j.intIn? Int32.minValue.toInt Int32.maxValue.toInt).map Int32.ofInt

/-- A time in whole seconds. -/
def time? (j : Json) : Option Int64 := j.signedWord?.map Int64.ofInt

def listOf? (read : Json → Option α) (j : Json) : Option (List α) := do (← j.items?).mapM read

def point? (j : Json) : Option Point := do
  match ← j.record? ["x", "y"] with
  | [some x, some y] => return ⟨← coordinate? x, ← coordinate? y⟩
  | _ => none

def shape? (j : Json) : Option Shape := do
  match ← j.record? ["outer", "holes"] with
  | [some outer, some holes] => return ⟨← listOf? point? outer, ← listOf? (listOf? point?) holes⟩
  | _ => none

def geometry? : Json → Option Geometry
  | .obj [(some "Point", j)] => (point? j).map .point
  | .obj [(some "MultiPoint", j)] => (listOf? point? j).map .multiPoint
  | .obj [(some "Line", j)] => (listOf? point? j).map .line
  | .obj [(some "Area", j)] => (listOf? shape? j).map .area
  | _ => none

/-- Of tags with one key the last one counts. -/
def tags? : Json → Option Tags
  | .obj fields => do
    let tags ← fields.mapM fun f => do return (← f.1, ← f.2.text?)
    return .ofList tags
  | _ => none

def member? (j : Json) : Option MemberDelta := do
  match ← j.record? ["kind", "id", "role"] with
  | [some k, some n, role] =>
    return ⟨← kind? k, ← n.word?, ← role.elim (some "") Json.text?⟩
  | _ => none

/-- A field that may be missing, but not null. -/
def orElse (a : α) (read : Json → Option α) : Option Json → Option α
  | none => some a
  | some j => read j

/-- A field that may be missing or null. -/
def orNull (read : Json → Option α) : Option Json → Option (Option α)
  | none => some none
  | some j => j.optional read

/-- The nesting that a document has room for: entries stand three levels deep in it. -/
def roomInEntry : Nat := 127 - 3

/-- The further fields of an entry are all read, known or not. -/
def entryIsReadable (fields : List (Option String × Json)) : Bool :=
  fields.all fun f => f.1.isSome && f.2.readable && f.2.depth ≤ roomInEntry

def element? (j : Json) : Option ElementDelta := do
  match ← j.record? ["kind", "id", "version", "tags", "lon", "lat", "nodes", "members", "geometry"] with
  | [some k, some n, some v, tags, lon, lat, nodes, members, geometry] =>
    return {
      kind := ← kind? k
      number := ← n.word?
      version := UInt32.ofNat (← v.natUpTo? (UInt32.size - 1))
      tags := ← orElse ∅ tags? tags
      lon := ← orNull Json.float? lon
      lat := ← orNull Json.float? lat
      nodes := ← orElse [] (listOf? Json.word?) nodes
      members := ← orElse [] (listOf? member?) members
      geometry := ← orNull geometry? geometry }
  | _ => none

/-- An entry is an object: operation and time stand among the fields of the element. -/
def entry? (j : Json) : Option ChangesetEntry :=
  match j with
  | .obj fields => do
    if entryIsReadable fields then
      match ← j.record? ["op", "timestamp"] with
      | [some op, time] =>
        return {
          op := ← operation? op
          timestamp := ← orNull time? time
          element := ← element? j }
      | _ => none
    else none
  | _ => none

def changeset? (j : Json) : Option Changeset := do
  match ← j.record? ["sequence", "timestamp", "entries"] with
  | [sequence, time, some entries] =>
    return {
      sequence := (← orNull Json.word? sequence).map UInt64.ofNat
      timestamp := ← orNull time? time
      entries := ← listOf? entry? entries }
  | _ => none

end Document

def Changeset.ofText? (s : String) : Option Changeset := do Document.changeset? (← Json.parse? s)

end TileAtlas
