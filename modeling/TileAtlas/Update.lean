import TileAtlas.Changeset
import TileAtlas.Index.Bookkeeping
import TileAtlas.Index.Placement
import TileAtlas.Index.References
import TileAtlas.Store
import TileAtlas.Update.Closure
/-!
# Applying changesets

A changeset applies as a whole or not at all.  Each entry is held against the rules in its turn, and
sees the entries before it; then everything that depends on a changed element is placed anew, and
the tiles that it leaves or enters are flagged.  Entries that are not newer than the index has
reached are passed over.
-/
namespace TileAtlas

/-- Why an entry cannot be applied. -/
inductive Rule where
  | versionNotInitial (found : UInt32)
  | alreadyExists
  | alreadyReferenced (referrer : ElementId)
  | notFound
  /-- A deleted element may not be modified. -/
  | deleted
  | alreadyDeleted
  | versionNotSuccessor (stored found : UInt32)
  | brokenBackReference (referent : ElementId)
  | membersOnDelete
deriving DecidableEq

def Rule.message : Rule → String
  | versionNotInitial found => s!"created elements must have version 1, found {found}"
  | alreadyExists => "the element already exists"
  | alreadyReferenced r => s!"the element is already referenced by {r.text}"
  | notFound => "the element does not exist"
  | deleted => "the element is deleted"
  | alreadyDeleted => "the element is already deleted"
  | versionNotSuccessor stored found => s!"version {found} does not follow stored version {stored}"
  | brokenBackReference r => s!"{r.text} does not record the element as a referrer"
  | membersOnDelete => "deletions must not list nodes or members"

inductive UpdateError where
  | impossible (id : ElementId) (op : Operation) (rule : Rule)
  | outOfSequence (stored found : UInt64)
  | index (source : IndexError)
  | changeset (source : ChangesetError)
deriving DecidableEq

def UpdateError.message : UpdateError → String
  | impossible id op rule => s!"cannot {op.title} {id.text}: {rule.message}"
  | outOfSequence stored found => s!"changeset {found} does not follow applied changeset {stored}"
  | index e => e.message
  | changeset e => e.message

/-- An index: a store, and the settings by which it is kept. -/
structure Atlas where
  store : Store
  config : IndexConfig

/-- What applying a changeset did. -/
structure UpdateReport where
  created : Nat := 0
  modified : Nat := 0
  deleted : Nat := 0
  /-- Entries that were passed over. -/
  skipped : Nat := 0
  /-- The elements that were placed anew. -/
  dirtyElements : ElementSet := ∅
  /-- The tiles that they left or entered. -/
  dirtyTiles : TileSet := ∅
  sequence : Option UInt64 := none

namespace UpdateReport

def count (r : UpdateReport) : Operation → UpdateReport
  | .create => { r with created := r.created + 1 }
  | .modify => { r with modified := r.modified + 1 }
  | .delete => { r with deleted := r.deleted + 1 }

end UpdateReport

namespace Update

/-- Ask the index, as a part of an update. -/
def reading (r : Except IndexError α) : Except UpdateError α := r.mapError .index

/-- Make some writes, as a part of an update. -/
def writing (t : Transaction) (ops : List Op) : Except UpdateError Transaction :=
  (t.recordAll ops).mapError fun e => .index (.store e)

/-! ## Entries -/

/-- An entry's version must be the one after the stored one, if there is one after it. -/
def checkSuccessor (stored found : UInt32) : Except Rule Unit :=
  if stored.toNat + 1 = found.toNat then .ok () else .error (.versionNotSuccessor stored found)

/-- A referent of an element that does not know of it. -/
def brokenBackReference? (config : IndexConfig) (r : Reader) (old : Element) :
    List ElementId → Except IndexError (Option ElementId)
  | [] => .ok none
  | referent :: rest => do
    if (← config.referenceLayout.referrers r referent).contains old.id then
      brokenBackReference? config r old rest
    else return some referent

def checkBackReferences (config : IndexConfig) (t : Transaction) (id : ElementId) (op : Operation)
    (old : Element) : Except UpdateError Unit := do
  match ← reading (brokenBackReference? config t.reader old old.referents) with
  | some referent => throw (.impossible id op (.brokenBackReference referent))
  | none => return ()

/-- The writes that create an element. -/
def createOps (l : ReferenceLayout) (e : Element) : List Op :=
  Elements.put e :: e.referents.map fun referent => l.add referent e.id

/-- The writes that turn one state of an element into the next. -/
def modifyOps (l : ReferenceLayout) (old e : Element) : List Op :=
  ((e.referents.filter fun r => !old.referents.contains r).map fun referent => l.add referent e.id)
    ++ ((old.referents.filter fun r => !e.referents.contains r).map fun referent =>
      l.remove referent e.id)
    ++ [Elements.put e]

/-- The writes that leave a tombstone of an element. -/
def deleteOps (l : ReferenceLayout) (old : Element) (id : ElementId) (version : UInt32) : List Op :=
  (old.referents.map fun referent => l.remove referent id)
    ++ [Elements.put (.tombstone id version)]

def applyCreate (config : IndexConfig) (t : Transaction) (id : ElementId) (delta : ElementDelta)
    (stored : Option Element) : Except UpdateError Transaction := do
  if delta.version ≠ 1 then throw (.impossible id .create (.versionNotInitial delta.version))
  if stored.isSome then throw (.impossible id .create .alreadyExists)
  match ← reading (config.referenceLayout.referrers t.reader id) with
  | referrer :: _ => throw (.impossible id .create (.alreadyReferenced referrer))
  | [] =>
    let e ← delta.toElement.mapError .changeset
    writing t (createOps config.referenceLayout e)

def applyModify (config : IndexConfig) (t : Transaction) (id : ElementId) (delta : ElementDelta)
    (stored : Option Element) : Except UpdateError Transaction := do
  match stored with
  | none => throw (.impossible id .modify .notFound)
  | some old =>
    if !old.visible && config.strictModify then throw (.impossible id .modify .deleted)
    (checkSuccessor old.version delta.version).mapError (.impossible id .modify)
    checkBackReferences config t id .modify old
    let e ← delta.toElement.mapError .changeset
    writing t (modifyOps config.referenceLayout old e)

def applyDelete (config : IndexConfig) (t : Transaction) (id : ElementId) (delta : ElementDelta)
    (stored : Option Element) : Except UpdateError Transaction := do
  match stored with
  | none => throw (.impossible id .delete .notFound)
  | some old =>
    if !old.visible then throw (.impossible id .delete .alreadyDeleted)
    (checkSuccessor old.version delta.version).mapError (.impossible id .delete)
    if delta.hasMembers then throw (.impossible id .delete .membersOnDelete)
    checkBackReferences config t id .delete old
    writing t (deleteOps config.referenceLayout old id delta.version)

/-- Apply one entry; also the element that it is about. -/
def applyEntry (config : IndexConfig) (t : Transaction) (entry : ChangesetEntry) :
    Except UpdateError (ElementId × Transaction) := do
  let id ← entry.element.elementId.mapError .changeset
  let stored ← reading (Elements.get t.reader id)
  let t ← match entry.op with
    | .create => applyCreate config t id entry.element stored
    | .modify => applyModify config t id entry.element stored
    | .delete => applyDelete config t id entry.element stored
  return (id, t)

/-- Whether an index that has reached a time passes over an entry. -/
def ChangesetEntry.isStale (reached : Option Int64) (entry : ChangesetEntry) : Bool :=
  match reached, entry.timestamp with
  | some now, some time => time ≤ now
  | _, _ => false

/-- An update under way: its writes, the elements changed, and the counts. -/
structure Progress where
  transaction : Transaction
  changed : ElementSet := ∅
  report : UpdateReport

/-- Apply an entry or pass over it. -/
def Progress.step (config : IndexConfig) (reached : Option Int64) (p : Progress)
    (entry : ChangesetEntry) : Except UpdateError Progress :=
  if ChangesetEntry.isStale reached entry then
    .ok { p with report := { p.report with skipped := p.report.skipped + 1 } }
  else
    match applyEntry config p.transaction entry with
    | .error e => .error e
    | .ok (id, t) => .ok ⟨t, p.changed.insert id, p.report.count entry.op⟩

/-! ## Placing anew -/

/-- Place an element anew; also the tiles that it leaves or enters. -/
def reindex (config : IndexConfig) (t : Transaction) (id : ElementId) :
    Except UpdateError (TileSet × Transaction) := do
  let before ← reading (ElementTiles.get t.reader id)
  let placement ← match ← reading (Elements.get t.reader id) with
    | some e => reading (config.place t.reader e)
    | none => pure none
  let t ← writing t (Placement.clear id before ++ Placement.write id placement)
  return (before.insertMany (placement.elim [] (·.tiles.toList)), t)

/-- Place flagged elements anew, one after another, and take their flags away. -/
def reindexAll (config : IndexConfig) :
    List ElementId → TileSet × Transaction → Except UpdateError (TileSet × Transaction)
  | [], s => .ok s
  | id :: ids, (touched, t) => do
    let (tiles, t) ← reindex config t id
    let t ← writing t [DirtyElements.unmark id]
    reindexAll config ids (touched.insertMany tiles.toList, t)

/-! ## Changesets -/

/-- A changeset with a number must be the one after the last one. -/
def checkSequence (state : ReplicationState) (c : Changeset) : Except UpdateError Unit :=
  match state.sequence, c.sequence with
  | some stored, some found =>
    if stored.toNat + 1 = found.toNat then .ok () else .error (.outOfSequence stored found)
  | _, _ => .ok ()

/-- The writes that take number and time of a changeset down. -/
def replicationOps (state : ReplicationState) (c : Changeset) : List Op :=
  (c.sequence.map ReplicationState.setSequence).toList ++
    match c.effectiveTimestamp with
    | none => []
    | some time =>
      if state.timestamp.all (· < time) then [ReplicationState.setTimestamp time] else []

/-- Apply a changeset within a transaction. -/
def applyIn (config : IndexConfig) (t : Transaction) (c : Changeset) :
    Except UpdateError (UpdateReport × Transaction) := do
  let state ← reading (ReplicationState.read t.reader)
  checkSequence state c
  let p ← c.entries.foldlM (Progress.step config state.timestamp)
    { transaction := t, report := { sequence := c.sequence } }
  let dirty ← reading
    (Closure.of (config.referenceLayout.referrers p.transaction.reader) p.changed)
  let t ← writing p.transaction (dirty.toList.map DirtyElements.mark)
  let (touched, t) ← reindexAll config dirty.toList (∅, t)
  let t ← writing t (replicationOps state c)
  return ({ p.report with dirtyElements := dirty, dirtyTiles := touched }, t)

end Update

namespace Atlas

/-- Take over what a transaction wrote. -/
def commit (a : Atlas) (t : Transaction) : Except UpdateError Atlas :=
  match a.store.commit t with
  | .ok store => .ok { a with store := store }
  | .error e => .error (.index (.store e))

/-- Apply a changeset.  The atlas stays what it was when an entry is refused. -/
def apply (a : Atlas) (c : Changeset) : Except UpdateError (UpdateReport × Atlas) := do
  let (report, t) ← Update.applyIn a.config (.begin a.store.reader) c
  return (report, ← a.commit t)

/-- Place all flagged elements anew; also the tiles that they leave or enter. -/
def reindexDirty (a : Atlas) : Except UpdateError (TileSet × Atlas) := do
  let t := Transaction.begin a.store.reader
  let pending ← Update.reading (DirtyElements.list t.reader)
  let (touched, t) ← Update.reindexAll a.config pending (∅, t)
  return (touched, ← a.commit t)

end Atlas
end TileAtlas
