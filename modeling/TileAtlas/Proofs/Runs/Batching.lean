import TileAtlas.Proofs.Runs.Basic
import TileAtlas.Proofs.Update.Writes
/-!
# Two changesets at once

Changesets that tell neither numbers nor times may be put together: applied at once they come to what they come to
one after another.  On the way the one index is placed anew for records that the other never sees, and the two take
different sets of dependents for it.  In the end both tell the same ledger (`Ledger.apply_join`), and placements
follow from the records alone; the records and the references are left by the same writes, in the same order
(`Records.ops_append`).
-/
namespace TileAtlas

namespace Changeset

/-- Neither the changeset nor any of its entries tells a number or a time. -/
structure IsPlain (c : Changeset) : Prop where
  sequence : c.sequence = none
  timestamp : c.timestamp = none
  entries : ∀ entry ∈ c.entries, entry.timestamp = none

/-- The entries of two changesets, without a number or a time. -/
def join (A B : Changeset) : Changeset := { entries := A.entries ++ B.entries }

theorem IsStorable.join {A B : Changeset} (hA : A.IsStorable) (hB : B.IsStorable) : (A.join B).IsStorable :=
  fun entry hentry => (List.mem_append.1 hentry).elim (hA entry) (hB entry)

theorem IsPlain.join {A B : Changeset} (hA : A.IsPlain) (hB : B.IsPlain) : (A.join B).IsPlain where
  sequence := rfl
  timestamp := rfl
  entries entry hentry := (List.mem_append.1 hentry).elim (hA.entries entry) (hB.entries entry)

theorem IsPlain.effectiveTimestamp {c : Changeset} (h : c.IsPlain) : c.effectiveTimestamp = none := by
  rw [Changeset.effectiveTimestamp, h.timestamp, List.filterMap_eq_nil_iff.2 h.entries]; rfl

end Changeset

/-- The entries of two changesets as one changeset. -/
def StorableChangeset.join (A B : StorableChangeset) : StorableChangeset := ⟨A.1.join B.1, A.2.join B.2⟩

/-! ## The plain model -/

namespace Ledger

variable {strict : Bool} {l : Ledger} {c A B : Changeset}

/-- Every entry is due that tells no time. -/
theorem due_of_isPlain (l : Ledger) (h : c.IsPlain) : l.due c = c.entries :=
  List.filter_eq_self.2 fun entry hentry => by
    have hfresh : Update.ChangesetEntry.isStale l.replication.timestamp entry = false := by
      rw [Update.ChangesetEntry.isStale.eq_def, h.entries entry hentry]
      cases l.replication.timestamp <;> rfl
    rw [hfresh]; rfl

/-- A changeset without number and time changes the records only. -/
theorem apply_of_isPlain (h : c.IsPlain) : l.apply strict c =
    (c.entries.foldlM (Records.applyEntry strict) l.records).map fun records => ⟨records, l.replication⟩ := by
  have hseq : Update.checkSequence l.replication c = .ok () := by
    rw [Update.checkSequence, h.sequence]
    cases l.replication.sequence <;> rfl
  have hadvance : l.replication.advance c = l.replication := by
    rw [ReplicationState.advance, h.sequence, h.effectiveTimestamp]
  rw [apply, hseq, due_of_isPlain l h, hadvance]
  cases c.entries.foldlM (Records.applyEntry strict) l.records <;> rfl

/-- **Two changesets at once do to a ledger what they do one after another.** -/
theorem apply_join (hA : A.IsPlain) (hB : B.IsPlain) :
    l.apply strict (A.join B) = (l.apply strict A).bind fun l₁ => l₁.apply strict B := by
  rw [apply_of_isPlain hA, apply_of_isPlain (hA.join hB), Changeset.join, List.foldlM_append]
  cases A.entries.foldlM (Records.applyEntry strict) l.records with
  | error e => rfl
  | ok records => exact (apply_of_isPlain (l := ⟨records, l.replication⟩) hB).symm

end Ledger

/-! ## Indexes -/

namespace Reader

/-- Two readers answer every question about a column in the same way. -/
structure SameIn (r r' : Reader) (c : Column) : Prop where
  get : ∀ k, r.get c k = r'.get c k
  scan : ∀ range order, r.scan c range order = r'.scan c range order

end Reader

theorem Contents.sameIn {s s' : Contents} {c : Column} (h : ∀ k, s.get c k = s'.get c k) :
    s.reader.SameIn s'.reader c where
  get k := congrArg Except.ok (h k)
  scan range order := by
    have htable : Columns.get s c = Columns.get s' c := Std.ExtTreeMap.ext_getElem? fun {k} => h k
    rw [reader_scan, reader_scan, htable]

/-- The columns that hold the elements and all that follows from them. -/
def Column.indexColumns : List Column := [.elements, .references, .tiles, .tileCounts, .elementTiles, .external]

namespace Atlas

/-- Two changesets at once come to what they come to one after another: they are refused for what the first of them
is refused for, or else for what the second is, and otherwise every column of the index reads the same. -/
def AppliesAtOnce (a : Atlas) (A B : StorableChangeset) : Prop :=
  match a.apply A with
  | .error e => a.apply (A.join B) = .error e
  | .ok (_, a₁) =>
    match a₁.apply B with
    | .error e => a.apply (A.join B) = .error e
    | .ok (_, a₂) => ∃ report a', a.apply (A.join B) = .ok (report, a') ∧
        ∀ c ∈ Column.indexColumns, a'.store.reader.SameIn a₂.store.reader c

variable {config : IndexConfig} {a a' a₁ a₂ : Atlas} {l l' l₁ l₂ : Ledger} {A B : StorableChangeset}

theorem Tells.refused (h : a.Tells config l) {c : StorableChangeset} {e : UpdateError} :
    a.apply c = .error e ↔ l.apply config.strictModify c = .error e := by
  have hspec := apply_spec (h.config_eq ▸ h.stored) c.2
  rw [h.config_eq] at hspec
  cases hl : l.apply config.strictModify c with
  | error e' =>
    rw [hl] at hspec
    rw [show a.apply c = .error e' from hspec]
    exact ⟨fun he => by cases he; rfl, fun he => by cases he; rfl⟩
  | ok l' =>
    rw [hl] at hspec
    obtain ⟨report, a', ha, -⟩ := hspec
    rw [ha]
    exact ⟨nofun, nofun⟩

/-- Two indexes that tell one ledger place the same. -/
theorem Tells.get_eq (h : a.Tells config l) (h' : a'.Tells config l) {c : Column} (hc : c = .tiles ∨ c.isStanding = true)
    (k : Bytes) : a'.store.contents.get c k = a.store.contents.get c k :=
  h.stored.placed.unique h'.stored.placed hc k

/-- **Records and references are left by the same writes,** whether these are made at once or not. -/
theorem Tells.get_join (h : a.Tells config l) (hA : A.1.IsPlain) (hB : B.1.IsPlain) {r r₁ r₂ : UpdateReport}
    (ha₁ : a.apply A = .ok (r₁, a₁)) (ha₂ : a₁.apply B = .ok (r₂, a₂)) (ha : a.apply (A.join B) = .ok (r, a'))
    {c : Column} (hc : c = .elements ∨ c = .references) (k : Bytes) :
    a'.store.contents.get c k = a₂.store.contents.get c k := by
  obtain ⟨l₁, hl₁, h₁, -⟩ := h.accepted ha₁
  obtain ⟨s₁, hs₁, hcol₁⟩ := apply_writes (h.config_eq ▸ h.stored) A.2 ha₁
  obtain ⟨s₂, hs₂, hcol₂⟩ := apply_writes (h₁.config_eq ▸ h₁.stored) B.2 ha₂
  obtain ⟨s, hs, hcol⟩ := apply_writes (h.config_eq ▸ h.stored) (A.join B).2 ha
  rw [h.config_eq] at hs₁ hs
  rw [h₁.config_eq] at hs₂
  rw [Ledger.due_of_isPlain _ hB] at hs₂
  have hfold := (Ledger.apply_ok hl₁).2.1
  have hdue : l.due (A.join B).1 = A.1.entries ++ B.1.entries := l.due_of_isPlain (hA.join hB)
  rw [Ledger.due_of_isPlain _ hA] at hs₁ hfold
  rw [hdue, Records.ops_append hfold, Contents.apply_append hs₁] at hs
  rw [hcol hc, hcol₂ hc]
  exact Contents.get_apply_congr hs₂ hs (fun k => (hcol₁ hc k).symm) k

/-- **Whatever an index tells, two changesets without numbers and times may be applied at once.** -/
theorem Tells.appliesAtOnce (h : a.Tells config l) (hA : A.1.IsPlain) (hB : B.1.IsPlain) : a.AppliesAtOnce A B := by
  have hjoin : l.apply config.strictModify (A.join B) = _ := Ledger.apply_join hA hB
  rw [AppliesAtOnce]
  cases ha₁ : a.apply A with
  | error e =>
    dsimp only
    rw [h.refused, hjoin, h.refused.1 ha₁]; rfl
  | ok out₁ =>
    obtain ⟨r₁, a₁⟩ := out₁
    obtain ⟨l₁, hl₁, h₁, -⟩ := h.accepted ha₁
    rw [hl₁] at hjoin
    dsimp only
    cases ha₂ : a₁.apply B with
    | error e =>
      dsimp only
      rw [h.refused, hjoin]
      exact h₁.refused.1 ha₂
    | ok out₂ =>
      obtain ⟨r₂, a₂⟩ := out₂
      obtain ⟨l₂, hl₂, h₂, -⟩ := h₁.accepted ha₂
      obtain ⟨report, a', ha, h', -⟩ := h.accepts (hjoin.trans hl₂)
      refine ⟨report, a', ha, fun c hc => ?_⟩
      rw [a'.store.reader_eq, a₂.store.reader_eq]
      refine Contents.sameIn fun k => ?_
      have hcolumn : (c = .elements ∨ c = .references) ∨ c = .tiles ∨ c.isStanding = true := by
        simp only [Column.indexColumns, List.mem_cons, List.not_mem_nil, or_false] at hc
        rcases hc with rfl | rfl | rfl | rfl | rfl | rfl <;> decide
      exact hcolumn.elim (fun hc => h.get_join hA hB ha₁ ha₂ ha hc k) fun hc => h₂.get_eq h' hc k

/-- **After every run of changesets it does not matter whether the next ones come one after another or at once.** -/
theorem run_appliesAtOnce (config : IndexConfig) (start : EmptyStore) (cs : List StorableChangeset) {A B : StorableChangeset}
    (hA : A.1.IsPlain) (hB : B.1.IsPlain) : (run config start (cs.map .apply)).AppliesAtOnce A B :=
  ((tells_start config start).foldl_apply cs).appliesAtOnce hA hB

/-- A coastline moves away and back, while a way that lists it comes and goes: at once, it is never seen elsewhere. -/
theorem run_appliesAtOnce_moved :
    let first : StorableChangeset := ⟨{ entries := [
      { op := .create, element :=
        { kind := .coastline, number := 1, version := 1, geometry := some (.line [⟨0, 0⟩, ⟨450000000, 0⟩]) } }] },
      by decide +kernel⟩
    let A : StorableChangeset := ⟨{ entries := [
      { op := .modify, element :=
        { kind := .coastline, number := 1, version := 2, geometry := some (.line [⟨0, 0⟩, ⟨0, 450000000⟩]) } },
      { op := .create, element := { kind := .relation, number := 7, version := 1, members := [⟨.coastline, 1, ""⟩] } }] },
      by decide +kernel⟩
    let B : StorableChangeset := ⟨{ entries := [
      { op := .modify, element :=
        { kind := .coastline, number := 1, version := 3, geometry := some (.line [⟨0, 0⟩, ⟨450000000, 0⟩]) } },
      { op := .delete, element := { kind := .relation, number := 7, version := 2 } }] }, by decide +kernel⟩
    let a := run {} .segmented [.apply first]
    A.1.IsPlain ∧ B.1.IsPlain ∧ (∃ r₁ a₁ r₂ a₂, a.apply A = .ok (r₁, a₁) ∧ a₁.apply B = .ok (r₂, a₂)) ∧
      a.AppliesAtOnce A B := by
  intro first A B a
  have h := (tells_start {} .segmented).foldl_apply [first]
  have hA : A.1.IsPlain := ⟨rfl, rfl, by decide +kernel⟩
  have hB : B.1.IsPlain := ⟨rfl, rfl, by decide +kernel⟩
  have hok : ((Ledger.perform false .empty first).apply false A).isOk = true := by decide +kernel
  have hok' : ((Ledger.perform false (Ledger.perform false .empty first) A).apply false B).isOk = true := by decide +kernel
  obtain ⟨r₁, a₁, ha₁⟩ := h.exists_apply hok
  obtain ⟨l₁, hl₁, h₁, -⟩ := h.accepted ha₁
  have hnext : Ledger.perform false (Ledger.perform false .empty first) A = l₁ := by
    rw [Ledger.perform, show Ledger.apply false (Ledger.perform false .empty first) A = .ok l₁ from hl₁]
  rw [hnext] at hok'
  obtain ⟨r₂, a₂, ha₂⟩ := h₁.exists_apply hok'
  exact ⟨hA, hB, ⟨r₁, a₁, r₂, a₂, ha₁, ha₂⟩, run_appliesAtOnce {} .segmented [first] hA hB⟩

end Atlas
end TileAtlas
