import TileAtlas.Proofs.Index.Elements
import TileAtlas.Update
/-!
# A plain model of an index

All that matters about an index is the records of its elements and how far it has come; the rest is
derived.  `Ledger.apply` tells what a changeset does to these: it folds the entries that are due over the
records, and the first rule that one of them breaks refuses the changeset.  There is no transaction in
it, no graph of references and no tiles.

A record is only ever created at version 1 and followed by the next version, so that the version of a
record counts the entries that were accepted for its element (`Ledger.version_eq_countP`).
-/
namespace TileAtlas

/-! ## Entries -/

namespace Records

/-- The visible elements that are made of an element, ascending. -/
def dependents (records : Records) (id : ElementId) : List ElementId :=
  (records.toList.filter fun p => p.2.visible && p.2.referents.contains id).map (·.1)

/-- Create an element: at version 1, where there is no record and nothing depends on one. -/
def create (records : Records) (id : ElementId) (delta : ElementDelta) : Except UpdateError Records :=
  if delta.version ≠ 1 then .error (.impossible id .create (.versionNotInitial delta.version))
  else if records.contains id then .error (.impossible id .create .alreadyExists)
  else
    match records.dependents id with
    | referrer :: _ => .error (.impossible id .create (.alreadyReferenced referrer))
    | [] =>
      match delta.toElement with
      | .ok e => .ok (records.insert id e)
      | .error e => .error (.changeset e)

/-- Modify an element that there is, also a deleted one unless that is forbidden: by one version. -/
def modify (strict : Bool) (records : Records) (id : ElementId) (delta : ElementDelta) :
    Except UpdateError Records :=
  match records[id]? with
  | none => .error (.impossible id .modify .notFound)
  | some old =>
    if !old.visible && strict then .error (.impossible id .modify .deleted)
    else if old.version.toNat + 1 ≠ delta.version.toNat then
      .error (.impossible id .modify (.versionNotSuccessor old.version delta.version))
    else
      match delta.toElement with
      | .ok e => .ok (records.insert id e)
      | .error e => .error (.changeset e)

/-- Delete a visible element: by one version, with an entry that lists no nodes or members. -/
def delete (records : Records) (id : ElementId) (delta : ElementDelta) : Except UpdateError Records :=
  match records[id]? with
  | none => .error (.impossible id .delete .notFound)
  | some old =>
    if !old.visible then .error (.impossible id .delete .alreadyDeleted)
    else if old.version.toNat + 1 ≠ delta.version.toNat then
      .error (.impossible id .delete (.versionNotSuccessor old.version delta.version))
    else if delta.hasMembers then .error (.impossible id .delete .membersOnDelete)
    else .ok (records.insert id (.tombstone id delta.version))

/-- Apply one entry. -/
def applyEntry (strict : Bool) (records : Records) (entry : ChangesetEntry) : Except UpdateError Records :=
  match entry.element.elementId with
  | .error e => .error (.changeset e)
  | .ok id =>
    match entry.op with
    | .create => records.create id entry.element
    | .modify => records.modify strict id entry.element
    | .delete => records.delete id entry.element

end Records

/-! ## Changesets -/

/-- The state after a changeset: its number if it has one, and its time if that is later. -/
def ReplicationState.advance (state : ReplicationState) (c : Changeset) : ReplicationState where
  sequence :=
    match c.sequence with
    | some n => some n
    | none => state.sequence
  timestamp :=
    match c.effectiveTimestamp with
    | some time => if state.timestamp.all (· < time) then some time else state.timestamp
    | none => state.timestamp

/-- The records of an index, and how far it has come. -/
structure Ledger where
  records : Records
  replication : ReplicationState

namespace Ledger

def empty : Ledger := ⟨∅, ⟨none, none⟩⟩

/-- The entries of a changeset that are newer than the index. -/
def due (l : Ledger) (c : Changeset) : List ChangesetEntry :=
  c.entries.filter fun entry => !Update.ChangesetEntry.isStale l.replication.timestamp entry

/-- Some entry that is due is about an element. -/
def Names (l : Ledger) (c : Changeset) (x : ElementId) : Prop := ∃ entry ∈ l.due c, entry.element.elementId = .ok x

/-- Apply a changeset as a whole. -/
def apply (strict : Bool) (l : Ledger) (c : Changeset) : Except UpdateError Ledger :=
  match Update.checkSequence l.replication c with
  | .error e => .error e
  | .ok () =>
    match (l.due c).foldlM (Records.applyEntry strict) l.records with
    | .error e => .error e
    | .ok records => .ok ⟨records, l.replication.advance c⟩

end Ledger

/-! ## What an entry does to the records -/

/-- The element that an entry tells has a record that can be counted: it fits in memory. -/
def ChangesetEntry.IsStorable (entry : ChangesetEntry) : Prop :=
  ∀ e, entry.element.toElement = .ok e → e.IsStorable

instance (entry : ChangesetEntry) : Decidable entry.IsStorable :=
  match h : entry.element.toElement with
  | .ok e => decidable_of_iff e.IsStorable (by simp [ChangesetEntry.IsStorable, h])
  | .error _ => .isTrue fun _ he => nomatch h.symm.trans he

/-- So have the elements of all entries. -/
def Changeset.IsStorable (c : Changeset) : Prop := ∀ entry ∈ c.entries, entry.IsStorable

instance (c : Changeset) : Decidable c.IsStorable := inferInstanceAs (Decidable (∀ entry ∈ c.entries, entry.IsStorable))

theorem ElementDelta.toElement_id {d : ElementDelta} {id : ElementId} {e : Element} (hid : d.elementId = .ok id)
    (h : d.toElement = .ok e) : e.id = id ∧ e.version = d.version ∧ e.visible = true := by
  rw [toElement, hid] at h
  change (d.body id).bind _ = _ at h
  cases hb : d.body id with
  | error x => rw [hb] at h; cases h
  | ok b => rw [hb] at h; cases h; exact ⟨rfl, rfl, rfl⟩

namespace Records

/-- The version of a record; nothing if there is none. -/
def version (records : Records) (id : ElementId) : Nat := (records[id]?).elim 0 (·.version.toNat)

variable {records records' : Records} {id : ElementId} {delta : ElementDelta}

theorem create_ok (hid : delta.elementId = .ok id) (h : records.create id delta = .ok records') :
    ∃ e, records' = records.insert id e ∧ e.version.toNat = records.version id + 1 := by
  rw [create] at h
  split at h
  · cases h
  · rename_i hver
    split at h
    · cases h
    · rename_i hnone
      split at h
      · cases h
      · split at h
        · rename_i e he
          cases h
          obtain ⟨-, hev, -⟩ := ElementDelta.toElement_id hid he
          have hget : records[id]? = none :=
            Std.ExtTreeMap.getElem?_eq_none_of_contains_eq_false (Bool.eq_false_iff.2 hnone)
          refine ⟨e, rfl, ?_⟩
          rw [version, hget, hev, Classical.not_not.1 hver]; rfl
        · cases h

theorem modify_ok {strict : Bool} (hid : delta.elementId = .ok id) (h : records.modify strict id delta = .ok records') :
    ∃ e, records' = records.insert id e ∧ e.version.toNat = records.version id + 1 := by
  rw [modify] at h
  split at h
  · cases h
  · rename_i old hold
    split at h
    · cases h
    · split at h
      · cases h
      · rename_i hver
        split at h
        · rename_i e he
          cases h
          obtain ⟨-, hev, -⟩ := ElementDelta.toElement_id hid he
          refine ⟨e, rfl, ?_⟩
          rw [version, hold, hev, ← Classical.not_not.1 hver]; rfl
        · cases h

theorem delete_ok (h : records.delete id delta = .ok records') :
    ∃ e, records' = records.insert id e ∧ e.version.toNat = records.version id + 1 := by
  rw [delete] at h
  split at h
  · cases h
  · rename_i old hold
    split at h
    · cases h
    · split at h
      · cases h
      · rename_i hver
        split at h
        · cases h
        · cases h
          refine ⟨_, rfl, ?_⟩
          rw [version, hold]
          exact (Classical.not_not.1 hver).symm

/-- **An entry that is accepted leaves the next version of its element.** -/
theorem applyEntry_ok {strict : Bool} {entry : ChangesetEntry} (h : records.applyEntry strict entry = .ok records') :
    ∃ id e, entry.element.elementId = .ok id ∧ records' = records.insert id e ∧
      e.version.toNat = records.version id + 1 := by
  rw [applyEntry] at h
  cases hid : entry.element.elementId with
  | error x => rw [hid] at h; cases h
  | ok id =>
    rw [hid] at h
    dsimp only at h
    have hnext : ∃ e, records' = records.insert id e ∧ e.version.toNat = records.version id + 1 := by
      split at h
      · exact create_ok hid h
      · exact modify_ok hid h
      · exact delete_ok h
    obtain ⟨e, he, hv⟩ := hnext
    exact ⟨id, e, rfl, he, hv⟩

theorem version_insert (records : Records) (id x : ElementId) (e : Element) :
    version (records.insert id e) x = if x = id then e.version.toNat else records.version x := by
  rw [version, Std.ExtTreeMap.getElem?_insert]
  by_cases hx : x = id
  · subst hx; simp
  · rw [if_neg fun hc => hx (Std.LawfulEqOrd.eq_of_compare hc).symm, if_neg hx]; rfl

/-- Whether an entry is about an element. -/
def isAbout (id : ElementId) (entry : ChangesetEntry) : Bool :=
  match entry.element.elementId with
  | .ok x => x = id
  | .error _ => false

theorem version_applyEntry {strict : Bool} {entry : ChangesetEntry}
    (h : records.applyEntry strict entry = .ok records') (id : ElementId) :
    records'.version id = records.version id + if isAbout id entry then 1 else 0 := by
  obtain ⟨x, e, hx, rfl, hv⟩ := applyEntry_ok h
  rw [version_insert, isAbout, hx]
  by_cases hid : id = x
  · subst hid; simp [hv]
  · simp [hid, Ne.symm hid]

theorem version_foldlM {strict : Bool} (id : ElementId) : ∀ {entries : List ChangesetEntry} {records records' : Records},
    entries.foldlM (Records.applyEntry strict) records = .ok records' →
    records'.version id = records.version id + entries.countP (isAbout id)
  | [], records, records', h => by cases h; rfl
  | entry :: entries, records, records', h => by
    rw [List.foldlM_cons] at h
    cases h₁ : records.applyEntry strict entry with
    | error e => rw [h₁] at h; cases h
    | ok records₁ =>
      rw [h₁] at h
      rw [version_foldlM id h, version_applyEntry h₁, List.countP_cons]
      omega

end Records

/-! ## Runs of the plain model -/

namespace Ledger

/-- The ledger after a changeset that may have been refused. -/
def perform (strict : Bool) (l : Ledger) (c : Changeset) : Ledger :=
  match l.apply strict c with
  | .ok l' => l'
  | .error _ => l

/-- The entries that were applied in a run of changesets. -/
def accepted (strict : Bool) : Ledger → List Changeset → List ChangesetEntry
  | _, [] => []
  | l, c :: cs =>
    match l.apply strict c with
    | .ok l' => l.due c ++ accepted strict l' cs
    | .error _ => accepted strict l cs

theorem apply_ok {strict : Bool} {l l' : Ledger} {c : Changeset} (h : l.apply strict c = .ok l') :
    Update.checkSequence l.replication c = .ok () ∧
      (l.due c).foldlM (Records.applyEntry strict) l.records = .ok l'.records ∧
      l'.replication = l.replication.advance c := by
  rw [apply] at h
  split at h
  · cases h
  · rename_i hseq
    split at h
    · cases h
    · rename_i records hrecords
      cases h
      exact ⟨hseq, hrecords, rfl⟩

/-- **The version of a record counts the entries that were accepted for its element.** -/
theorem version_eq_countP (strict : Bool) (id : ElementId) : ∀ (cs : List Changeset) (l : Ledger),
    (cs.foldl (perform strict) l).records.version id =
      l.records.version id + (accepted strict l cs).countP (Records.isAbout id)
  | [], l => rfl
  | c :: cs, l => by
    rw [List.foldl_cons, version_eq_countP strict id cs, accepted, perform]
    cases h : l.apply strict c with
    | error e => rfl
    | ok l' =>
      dsimp only
      rw [Records.version_foldlM id (apply_ok h).2.1, List.countP_append, Nat.add_assoc]

end Ledger

/-! ## Dependents are the links of the records -/

namespace Records

theorem mem_dependents {records : Records} {id e : ElementId} : e ∈ records.dependents id ↔ records.links id e := by
  rw [dependents, List.mem_map]
  constructor
  · rintro ⟨⟨k, x⟩, hmem, rfl⟩
    obtain ⟨hget, hx⟩ := List.mem_filter.1 hmem
    rw [Bool.and_eq_true, List.contains_iff_mem] at hx
    exact ⟨x, Std.ExtTreeMap.mem_toList_iff_getElem?_eq_some.1 hget, hx.1, hx.2⟩
  · rintro ⟨x, hget, hv, hr⟩
    refine ⟨(e, x), List.mem_filter.2 ⟨Std.ExtTreeMap.mem_toList_iff_getElem?_eq_some.2 hget, ?_⟩, rfl⟩
    rw [Bool.and_eq_true, List.contains_iff_mem]
    exact ⟨hv, hr⟩

theorem ascending_dependents (records : Records) (id : ElementId) :
    (records.dependents id).Pairwise fun a b => compare a b = .lt := by
  rw [dependents, List.pairwise_map]
  exact (Ascending.toList records).filter _

/-- What the records are made of after one was written: the new record has its own links. -/
theorem links_insert (records : Records) (id : ElementId) (x : Element) (r e : ElementId) :
    links (records.insert id x) r e ↔
      if e = id then x.visible = true ∧ r ∈ x.referents else records.links r e := by
  rw [links, links, Std.ExtTreeMap.getElem?_insert]
  by_cases he : e = id
  · subst he; simp
  · rw [if_neg fun hc => he (Std.LawfulEqOrd.eq_of_compare hc).symm, if_neg he]

end Records
end TileAtlas
