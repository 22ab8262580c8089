import TileAtlas.Proofs.Runs.Basic
/-!
# Records after a run

An index to which changesets are applied, in whatever store, goes through the states of the plain model: it
accepts what the model accepts, refuses the rest with the same error, and what it stores are the records of the
model (`Atlas.run_refines`).
-/
namespace TileAtlas

/-- What a reader finds is what a ledger says. -/
structure Ledger.ShownBy (l : Ledger) (r : Reader) : Prop where
  get : ∀ id, Elements.get r id = .ok l.records[id]?
  list : r.scan .elements .all .ascending = .ok (l.records.toList.map fun p => (p.1.key, p.2.encode))
  replication : ReplicationState.read r = .ok l.replication

theorem Ledger.StoredIn.shownBy {config : IndexConfig} {l : Ledger} {s : Contents} (h : l.StoredIn config s) :
    l.ShownBy s.reader where
  get := h.indexed.readIn.elements_get
  list := by rw [Contents.reader_scan, Table.scan_all, h.indexed.stored.toList_eq h.indexed.valid]; rfl
  replication := h.replication.read

namespace Atlas

variable {config : IndexConfig}

/-- An index agrees with the plain model about the next changeset. -/
def Agrees (a : Atlas) (l : Ledger) (c : StorableChangeset) : Prop :=
  match l.apply a.config.strictModify c with
  | .ok l' => ∃ report a', a.apply c = .ok (report, a') ∧ l'.ShownBy a'.store.reader ∧ Update.Reports l c report
  | .error e => a.apply c = .error e ∧ a.perform (.apply c) = a

theorem Tells.agrees {a : Atlas} {l : Ledger} (h : a.Tells config l) (c : StorableChangeset) : a.Agrees l c := by
  have hspec := apply_spec (h.config_eq ▸ h.stored) c.2
  rw [Agrees]
  cases hl : l.apply a.config.strictModify c with
  | error e =>
    rw [hl] at hspec
    exact ⟨hspec, by rw [Atlas.perform, show a.apply c = .error e from hspec]⟩
  | ok l' =>
    rw [hl] at hspec
    obtain ⟨report, a', ha', -, hl', hreports, -⟩ := hspec
    refine ⟨report, a', ha', ?_, hreports⟩
    rw [a'.store.reader_eq]
    exact hl'.shownBy

/-- **Applying changesets is the plain model.**  After every run of changesets, whether they were accepted or refused,
the store shows the ledger of the same run; of the next changeset index and model think the same; and the version
of a record counts the entries that were accepted for its element. -/
theorem run_refines (config : IndexConfig) (start : EmptyStore) (cs : List StorableChangeset) :
    ((cs.map (·.1)).foldl (Ledger.perform config.strictModify) .empty).ShownBy
        (run config start (cs.map .apply)).store.reader ∧
      (∀ c, (run config start (cs.map .apply)).Agrees
        ((cs.map (·.1)).foldl (Ledger.perform config.strictModify) .empty) c) ∧
      ∀ id, ∃ record, Elements.get (run config start (cs.map .apply)).store.reader id = .ok record ∧
        record.elim 0 (·.version.toNat) =
          (Ledger.accepted config.strictModify .empty (cs.map (·.1))).countP (Records.isAbout id) := by
  have h := (tells_start config start).foldl_apply cs
  have hshown := h.stored.shownBy
  rw [← Store.reader_eq] at hshown
  refine ⟨hshown, h.agrees, fun id => ⟨_, hshown.get id, ?_⟩⟩
  have hversion := Ledger.version_eq_countP config.strictModify id (cs.map (·.1)) .empty
  rw [show Ledger.empty.records.version id = 0 by simp [Records.version, Ledger.empty], Nat.zero_add] at hversion
  exact hversion

end Atlas
end TileAtlas
