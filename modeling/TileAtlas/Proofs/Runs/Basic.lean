import TileAtlas.Proofs.Pass.References
import TileAtlas.Proofs.Pass.Tiles
/-!
# Runs of an index

An index begins in an empty store.  Changesets are applied to it, some of which are refused; what is flagged is
placed anew; references are recomputed and tiles rebuilt, by however many workers.  Whatever is done, the index
tells the ledger that the changesets alone lead to (`Atlas.run_tells`).
-/
namespace TileAtlas

/-- A store with nothing in it. -/
structure EmptyStore where
  store : Store
  contents_eq : store.contents = .empty

/-- An empty store that can be walked: its snapshots are available. -/
structure OpenStore extends EmptyStore where
  isOpen : store.IsOpen

namespace EmptyStore

def segmented : EmptyStore := ⟨.segmented .empty, SegmentedStore.contents_empty⟩

/-- Tables in a file, or private to their owner. -/
def flat (shared : Bool) : EmptyStore := ⟨.flat { shared := shared }, rfl⟩

end EmptyStore

namespace OpenStore

def segmented : OpenStore where
  toEmptyStore := .segmented
  isOpen c := by rw [SegmentedStore.column, SegmentedStore.empty, Columns.get_const]; rfl

def file : OpenStore := ⟨.flat true, rfl⟩

end OpenStore

/-- A changeset whose elements fit in memory. -/
abbrev StorableChangeset := { c : Changeset // c.IsStorable }

/-- A way to divide pieces among workers that leaves nothing out. -/
abbrev FairDivision := { divide : Division // divide.Fair }

/-- What may be done with an index. -/
inductive Action where
  | apply (c : StorableChangeset)
  | reindexDirty
  | recomputeReferences (divide : FairDivision)
  | rebuildTiles (divide : FairDivision)

namespace Atlas

/-- Do something with an index.  A refused changeset leaves it alone; a pass may have stopped half way. -/
def perform (a : Atlas) : Action → Atlas
  | .apply c =>
    match a.apply c with
    | .ok (_, a') => a'
    | .error _ => a
  | .reindexDirty =>
    match a.reindexDirty with
    | .ok (_, a') => a'
    | .error _ => a
  | .recomputeReferences divide => ((Pass.recomputeReferences a.config.referenceLayout divide).runOn a).2
  | .rebuildTiles divide => ((Pass.rebuildTiles a.config divide).runOn a).2

/-- The index that some actions lead to from an empty store. -/
def run (config : IndexConfig) (start : EmptyStore) (actions : List Action) : Atlas :=
  actions.foldl perform ⟨start.store, config⟩

end Atlas

/-- What an action does to the ledger: only changesets matter. -/
def Ledger.follow (strict : Bool) (l : Ledger) : Action → Ledger
  | .apply c => l.perform strict c
  | _ => l

/-- The ledger that some actions lead to. -/
def Ledger.run (strict : Bool) (actions : List Action) : Ledger := actions.foldl (Ledger.follow strict) .empty

theorem Ledger.storedIn_empty (config : IndexConfig) : Ledger.empty.StoredIn config .empty where
  indexed :=
    { stored := Records.storedIn_empty fun _ => Contents.get_empty ..
      valid := Records.valid_empty
      links := (ReferenceLayout.holds_empty _ fun _ => Contents.get_empty ..).congr fun r e =>
        ⟨False.elim, fun ⟨x, hx, _⟩ => by simp [Ledger.empty] at hx⟩ }
  placed := by
    have hnone : config.placeAt Ledger.empty.records = fun _ => none := funext fun x => by
      simp [IndexConfig.placeAt, Ledger.empty]
    rw [hnone]
    exact Placements.storedIn_empty fun _ _ _ => Contents.get_empty ..
  clean _ := Contents.get_empty ..
  replication := ReplicationState.storedIn_empty fun _ => Contents.get_empty ..

namespace Atlas

/-- An index tells a ledger: its contents do. -/
structure Tells (a : Atlas) (config : IndexConfig) (l : Ledger) : Prop where
  config_eq : a.config = config
  stored : l.StoredIn config a.store.contents

variable {a a' : Atlas} {config : IndexConfig} {l : Ledger}

theorem config_of_commit {t : Transaction} (h : a.commit t = .ok a') : a'.config = a.config := by
  unfold commit at h
  split at h
  · cases h; rfl
  · cases h

/-- **An index accepts what its ledger does.** -/
theorem Tells.accepts (h : a.Tells config l) {c : StorableChangeset} {l' : Ledger}
    (hl : l.apply config.strictModify c = .ok l') : ∃ report a', a.apply c = .ok (report, a') ∧ a'.Tells config l' ∧
      Update.Touches config l.records l'.records (l.Names c) report.dirtyElements report.dirtyTiles
        a.store.contents a'.store.contents := by
  obtain ⟨rfl, h⟩ := h
  have hspec := apply_spec h c.2
  rw [hl] at hspec
  obtain ⟨report, a', ha, ⟨t, ht⟩, hl', -, htouches⟩ := hspec
  exact ⟨report, a', ha, ⟨config_of_commit ht, hl'⟩, htouches⟩

theorem Tells.exists_apply (h : a.Tells config l) {c : StorableChangeset}
    (hok : (l.apply config.strictModify c).isOk = true) : ∃ report a', a.apply c = .ok (report, a') := by
  cases hl : l.apply config.strictModify c with
  | error e => rw [hl] at hok; cases hok
  | ok l' =>
    obtain ⟨report, a', ha, -⟩ := h.accepts hl
    exact ⟨report, a', ha⟩

/-- **A changeset that an index accepts leads to an index that tells the next ledger.** -/
theorem Tells.accepted (h : a.Tells config l) {c : StorableChangeset} {report : UpdateReport}
    (ha : a.apply c = .ok (report, a')) : ∃ l', l.apply config.strictModify c = .ok l' ∧ a'.Tells config l' ∧
      Update.Touches config l.records l'.records (l.Names c) report.dirtyElements report.dirtyTiles
        a.store.contents a'.store.contents := by
  cases hl : l.apply config.strictModify c with
  | error e =>
    have hspec := apply_spec (h.config_eq ▸ h.stored) c.2
    rw [h.config_eq, hl, ha] at hspec
    cases hspec
  | ok l' =>
    obtain ⟨report', a'', ha', hl', htouches⟩ := h.accepts hl
    cases ha.symm.trans ha'
    exact ⟨l', rfl, hl', htouches⟩

theorem Tells.apply (h : a.Tells config l) (c : StorableChangeset) :
    (a.perform (.apply c)).Tells config (l.perform config.strictModify c) ∧
      (a.store.IsWalkable → (a.perform (.apply c)).store.IsWalkable) := by
  obtain ⟨rfl, h⟩ := h
  have hspec := apply_spec h c.2
  rw [perform, Ledger.perform]
  cases hl : l.apply a.config.strictModify c with
  | error e =>
    rw [hl] at hspec
    rw [show a.apply c = .error e from hspec]
    exact ⟨⟨rfl, h⟩, id⟩
  | ok l' =>
    rw [hl] at hspec
    obtain ⟨report, a', ha', ⟨t, ht⟩, hl', -⟩ := hspec
    rw [ha']
    rw [commit] at ht
    split at ht
    · rename_i store hstore
      cases ht
      exact ⟨⟨rfl, hl'⟩, fun hs => hs.commit hstore⟩
    · cases ht

theorem Tells.foldl_apply : ∀ (cs : List StorableChangeset) {a : Atlas} {l : Ledger}, a.Tells config l →
    ((cs.map Action.apply).foldl Atlas.perform a).Tells config
      ((cs.map (·.1)).foldl (Ledger.perform config.strictModify) l)
  | [], _, _, h => h
  | c :: cs, _, _, h => foldl_apply cs (h.apply c).1

/-- **Whatever is done, an index in a store that can be walked tells the ledger that follows.** -/
theorem Tells.perform (h : a.Tells config l) (hs : a.store.IsWalkable) (action : Action) :
    (a.perform action).Tells config (l.follow config.strictModify action) ∧ (a.perform action).store.IsWalkable := by
  cases action with
  | apply c =>
    obtain ⟨h', hs'⟩ := h.apply c
    exact ⟨h', hs' hs⟩
  | reindexDirty =>
    obtain ⟨rfl, h⟩ := h
    rw [Atlas.perform, reindexDirty_eq h]
    exact ⟨⟨rfl, h⟩, hs⟩
  | recomputeReferences divide =>
    obtain ⟨rfl, h⟩ := h
    obtain ⟨s', hdo, hs', hdone⟩ := Pass.does_recomputeReferences hs h.indexed.readIn divide.2.complete
    rw [Atlas.perform, hdo.runOn]
    exact ⟨⟨rfl, hdone.storedIn h⟩, hs'⟩
  | rebuildTiles divide =>
    obtain ⟨rfl, h⟩ := h
    obtain ⟨n, p, hn, -⟩ := Store.isWalkable_iff.1 hs
    obtain ⟨old, hold⟩ := Pass.recordedTiles_ok h.placed (Store.snapshot_reads hn).2
    obtain ⟨s', hdo, hs', hdone⟩ := Pass.does_rebuildTiles hs h.indexed.readIn hn hold divide.2.complete
    rw [Atlas.perform, hdo.runOn]
    exact ⟨⟨rfl, hdone.storedIn h⟩, hs'⟩

theorem Tells.foldl_perform : ∀ (actions : List Action) {a : Atlas} {l : Ledger}, a.Tells config l →
    a.store.IsWalkable →
    (actions.foldl Atlas.perform a).Tells config (actions.foldl (Ledger.follow config.strictModify) l) ∧
      (actions.foldl Atlas.perform a).store.IsWalkable
  | [], _, _, h, hs => ⟨h, hs⟩
  | action :: actions, _, _, h, hs => foldl_perform actions (h.perform hs action).1 (h.perform hs action).2

theorem tells_start (config : IndexConfig) (start : EmptyStore) :
    Tells ⟨start.store, config⟩ config .empty :=
  ⟨rfl, by rw [start.contents_eq]; exact Ledger.storedIn_empty config⟩

/-- **After every run an index tells the ledger of its changesets.** -/
theorem run_tells (config : IndexConfig) (start : OpenStore) (actions : List Action) :
    (run config start.toEmptyStore actions).Tells config (Ledger.run config.strictModify actions) ∧
      (run config start.toEmptyStore actions).store.IsWalkable :=
  Tells.foldl_perform actions (tells_start config start.toEmptyStore) start.isOpen.isWalkable

end Atlas
end TileAtlas
