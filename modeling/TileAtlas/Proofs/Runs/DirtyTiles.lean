import TileAtlas.Command.Inspect
import TileAtlas.Proofs.Runs.Basic
/-!
# Which tiles a changeset changed

Between changesets, whoever watches the tiles of an index takes the flags away.  No change is missed: a tile
that shows anything else after a changeset than before is told of, and all that is told of is flagged beside
what was flagged before (`Atlas.visits_dirtyTiles`).
-/
namespace TileAtlas

/-- What is done with an index whose flags are watched. -/
inductive Visit where
  | apply (c : StorableChangeset)
  | clearDirtyTiles

def Ledger.see (strict : Bool) (l : Ledger) : Visit → Ledger
  | .apply c => l.perform strict c
  | .clearDirtyTiles => l

theorem Ledger.StoredIn.of_columns {config : IndexConfig} {l : Ledger} {s s' : Contents} (h : l.StoredIn config s)
    (hs : ∀ c : Column, c ≠ .dirtyTiles → ∀ k, s'.get c k = s.get c k) : l.StoredIn config s' where
  indexed := h.indexed.of_columns fun c hc => hs c (by rcases hc with rfl | rfl <;> decide)
  placed := h.placed.of_columns fun c hc => hs c (by
    rintro rfl
    rcases hc with hc | hc <;> cases hc)
  clean k := by rw [hs _ (by decide), h.clean]
  replication := h.replication.of_column (hs _ (by decide))

namespace Atlas

/-- What a tile shows: the elements in it, ascending, and the feature that stands for each. -/
def shown (a : Atlas) (t : TilePosition) : Except IndexError (List (ElementId × Option Bytes)) := do
  let found ← Membership.inTile a.store.reader t
  found.mapM fun e => do return (e.1, ← Membership.resolve a.store.reader e.1 e.2)

def visit (a : Atlas) : Visit → Atlas
  | .apply c => a.perform (.apply c)
  | .clearDirtyTiles =>
    match a.clearDirtyTiles with
    | .ok a' => a'
    | .error _ => a

def visits (config : IndexConfig) (start : EmptyStore) (vs : List Visit) : Atlas := vs.foldl visit ⟨start.store, config⟩

/-- An index tells a ledger, and its flags are those of some tiles. -/
structure Flags (a : Atlas) (config : IndexConfig) (l : Ledger) (flags : TileSet) : Prop where
  tells : a.Tells config l
  stored : DirtyTiles.StoredIn flags a.store.contents

variable {a a' : Atlas} {config : IndexConfig} {l l' : Ledger} {flags : TileSet} {report : UpdateReport}

theorem flags_start (config : IndexConfig) (start : EmptyStore) : Flags ⟨start.store, config⟩ config .empty ∅ where
  tells := tells_start config start
  stored := DirtyTiles.storedIn_empty fun k => by
    rw [start.contents_eq]
    exact Contents.get_empty ..

/-- The flagged tiles can always be listed. -/
theorem Flags.dirtyTiles_eq (h : a.Flags config l flags) : a.dirtyTiles = .ok flags.toList := by
  rw [dirtyTiles, Store.reader_eq]
  exact h.stored.list

/-- **What is told of an accepted changeset is flagged.** -/
theorem Flags.accepted (h : a.Flags config l flags) {c : StorableChangeset} (ha : a.apply c = .ok (report, a')) :
    ∃ l', a'.Flags config l' (flags ∪ report.dirtyTiles) ∧
      Update.Touches config l.records l'.records (l.Names c) report.dirtyElements report.dirtyTiles
        a.store.contents a'.store.contents := by
  obtain ⟨l', -, h', htouches⟩ := h.tells.accepted ha
  exact ⟨l', ⟨h', h.stored.flagged htouches.flags⟩, htouches⟩

/-- **Flags can be taken away at any time,** and nothing goes with them. -/
theorem Flags.clear (h : a.Flags config l flags) : ∃ a', a.clearDirtyTiles = .ok a' ∧ a'.Flags config l ∅ := by
  let cleared : Contents := a.store.contents.modify .dirtyTiles (·.deleteRange .all)
  have hget : ∀ c k, cleared.get c k = if c = .dirtyTiles then none else a.store.contents.get c k := fun c k => by
    rw [Contents.get_deleteRange]
    simp
  obtain ⟨store, hstore, hcontents⟩ :=
    Store.write_of_contents (s := a.store) (b := [DirtyTiles.clear]) (t := cleared) rfl
  refine ⟨{ a with store := store }, by rw [clearDirtyTiles, hstore]; rfl, ⟨h.tells.config_eq, ?_⟩, ?_⟩
  · change l.StoredIn config store.contents
    rw [hcontents]
    exact h.tells.stored.of_columns fun c hc k => by rw [hget, if_neg hc]
  · change DirtyTiles.StoredIn ∅ store.contents
    rw [hcontents]
    exact DirtyTiles.storedIn_empty fun k => by rw [hget, if_pos rfl]

theorem Flags.visit (h : a.Flags config l flags) (v : Visit) :
    ∃ flags', (a.visit v).Flags config (l.see config.strictModify v) flags' := by
  cases v with
  | apply c =>
    have htells := (h.tells.apply c).1
    cases ha : a.apply c with
    | error e =>
      refine ⟨flags, htells, ?_⟩
      rw [Atlas.visit, perform, ha]
      exact h.stored
    | ok p =>
      obtain ⟨l', h', -⟩ := h.accepted ha
      refine ⟨flags ∪ p.1.dirtyTiles, htells, ?_⟩
      rw [Atlas.visit, perform, ha]
      exact h'.stored
  | clearDirtyTiles =>
    obtain ⟨a', ha, h'⟩ := h.clear
    rw [Atlas.visit, ha]
    exact ⟨∅, h'⟩

theorem Flags.foldl_visit : ∀ (vs : List Visit) {a : Atlas} {l : Ledger} {flags : TileSet}, a.Flags config l flags →
    ∃ flags', (vs.foldl Atlas.visit a).Flags config (vs.foldl (Ledger.see config.strictModify) l) flags'
  | [], _, _, flags, h => ⟨flags, h⟩
  | v :: vs, _, _, _, h => by
    obtain ⟨flags', h'⟩ := h.visit v
    exact foldl_visit vs h'

/-- **After all visits an index has the flags of some tiles,** and tells the ledger of the changesets alone. -/
theorem visits_flags (config : IndexConfig) (start : EmptyStore) (vs : List Visit) :
    ∃ flags, (visits config start vs).Flags config (vs.foldl (Ledger.see config.strictModify) .empty) flags :=
  Flags.foldl_visit vs (flags_start config start)

/-- **A tile shows the features that stand in it.** -/
theorem shown_ok (hkeys : ∀ {k v}, a.store.contents.get .tiles k = some v → ∃ m : Membership, k = m.key)
    (t : TilePosition) : ∃ found, a.shown t = .ok found ∧ (found.Pairwise fun x y => compare x.1 y.1 = .lt) ∧
    ∀ x, x ∈ found ↔ (a.store.contents.standing x.1).feature t = some x.2 := by
  obtain ⟨found, hfound, hasc, hmem⟩ := a.store.contents.inTile hkeys t
  let feature (e : ElementId × Bytes) : ElementId × Option Bytes :=
    (e.1, if e.2.isEmpty then (a.store.contents.standing e.1).outside else some e.2)
  have hresolve : found.mapM (fun e => do return (e.1, ← Membership.resolve a.store.reader e.1 e.2)) =
      (.ok (found.map feature) : Except IndexError _) := mapM_eq_ok fun e _ => by
    rw [a.store.reader_eq, Contents.resolve_eq]
    rfl
  refine ⟨found.map feature, ?_, ?_, fun x => ?_⟩
  · unfold shown
    rw [a.store.reader_eq, hfound, ← a.store.reader_eq]
    exact hresolve
  · rw [List.pairwise_map] at hasc ⊢
    exact hasc
  · rw [List.mem_map, Standing.feature, Option.map_eq_some_iff]
    constructor
    · rintro ⟨⟨id, v⟩, he, rfl⟩
      exact ⟨v, (hmem id v).1 he, rfl⟩
    · rintro ⟨v, hv, hx⟩
      exact ⟨(x.1, v), (hmem x.1 v).2 hv, Prod.ext rfl hx⟩

/-- A tile that shows the same of every element shows the same. -/
theorem shown_congr (hkeys : ∀ {k v}, a.store.contents.get .tiles k = some v → ∃ m : Membership, k = m.key)
    (hkeys' : ∀ {k v}, a'.store.contents.get .tiles k = some v → ∃ m : Membership, k = m.key) {t : TilePosition}
    (h : ∀ x, (a'.store.contents.standing x).feature t = (a.store.contents.standing x).feature t) :
    a'.shown t = a.shown t := by
  obtain ⟨before, hbefore, hasc, hmem⟩ := a.shown_ok hkeys t
  obtain ⟨after, hafter, hasc', hmem'⟩ := a'.shown_ok hkeys' t
  have heq : after = before := eq_of_ascending_by Prod.fst hasc' hasc fun x => by rw [hmem, hmem', h]
  rw [hafter, hbefore, heq]

theorem Tells.readsAs (h : a.Tells config l) (id : ElementId) :
    (a.store.contents.standing id).ReadsAs (config.placeAt l.records id) :=
  h.stored.placed.readsAs fun _ => IndexConfig.placeAt_valid

theorem Tells.standing_agrees (h : a.Tells config l) (id : ElementId) :
    (a.store.contents.standing id).Agrees (Placement.tilesOf (config.placeAt l.records id)) :=
  (h.readsAs id).agrees fun _ => IndexConfig.placeAt_valid

/-- **A tile shows the elements that are placed in it,** whichever way their features are kept. -/
theorem Tells.shown (h : a.Tells config l) (t : TilePosition) : ∃ found, a.shown t = .ok found ∧
    (found.Pairwise fun x y => compare x.1 y.1 = .lt) ∧
    ∀ x, x ∈ found ↔ ∃ p, config.placeAt l.records x.1 = some p ∧ t ∈ p.tiles ∧ x.2 = some p.payload := by
  obtain ⟨found, hfound, hasc, hmem⟩ := a.shown_ok h.stored.placed.entryKeys t
  refine ⟨found, hfound, hasc, fun x => (hmem x).trans ?_⟩
  exact (h.readsAs x.1).feature_eq_some fun _ => IndexConfig.placeAt_valid

/-- **A tile that is not told of shows what it did.** -/
theorem Tells.shown_eq (h : a.Tells config l) (h' : a'.Tells config l') {changed : ElementId → Prop} {dirty : ElementSet}
    {touched : TileSet} (ht : Update.Touches config l.records l'.records changed dirty touched
      a.store.contents a'.store.contents) {t : TilePosition} (hout : t ∉ touched) : a'.shown t = a.shown t := by
  refine shown_congr h.stored.placed.entryKeys h'.stored.placed.entryKeys fun x => ?_
  by_cases hx : x ∈ dirty
  · -- an element that was placed anew was not in this tile, and is not
    have hnot : ¬ Placement.Touches (config.placeAt l.records x) (config.placeAt l'.records x) t :=
      fun htouch => hout ((ht.tiles t).2 ⟨x, hx, htouch⟩)
    rw [(h.standing_agrees x).feature_eq_none fun hin => hnot (.inl hin),
      (h'.standing_agrees x).feature_eq_none fun hin => hnot (.inr hin)]
  · rw [h'.stored.placed.standing, h.stored.placed.standing, Update.placeAt_of_dependent ht.dependent ht.unchanged hx]

/-- What a tile showed and shows, and whether it is told of: a change is told, and what is told is about an element
that was reached. -/
structure Watches (a : Atlas) (report : UpdateReport) (a' : Atlas) (t : TilePosition)
    (before after : List (ElementId × Option Bytes)) : Prop where
  shown : a.shown t = .ok before
  shown' : a'.shown t = .ok after
  told : before ≠ after → t ∈ report.dirtyTiles
  reached : t ∈ report.dirtyTiles → ∃ x ∈ report.dirtyElements, ∃ v, (x, v) ∈ before ∨ (x, v) ∈ after

theorem Tells.watches (h : a.Tells config l) (h' : a'.Tells config l') {changed : ElementId → Prop}
    (ht : Update.Touches config l.records l'.records changed report.dirtyElements report.dirtyTiles
      a.store.contents a'.store.contents) (t : TilePosition) : ∃ before after, a.Watches report a' t before after := by
  obtain ⟨before, hbefore, -, hmem⟩ := h.shown t
  obtain ⟨after, hafter, -, hmem'⟩ := h'.shown t
  refine ⟨before, after, hbefore, hafter, fun hne => ?_, fun hin => ?_⟩
  · by_contra hout
    have heq := h.shown_eq h' ht hout
    rw [hbefore, hafter] at heq
    exact hne (Except.ok.inj heq).symm
  · obtain ⟨x, hx, htouch⟩ := (ht.tiles t).1 hin
    rcases htouch with hold | hnew
    · obtain ⟨p, hp, htile⟩ := Placement.mem_tilesOf.1 hold
      exact ⟨x, hx, some p.payload, .inl ((hmem _).2 ⟨p, hp, htile, rfl⟩)⟩
    · obtain ⟨p, hp, htile⟩ := Placement.mem_tilesOf.1 hnew
      exact ⟨x, hx, some p.payload, .inr ((hmem' _).2 ⟨p, hp, htile, rfl⟩)⟩

/-- **No changed tile is missed.**  Whatever was applied to an index and whenever its flags were taken away, a tile that
an accepted changeset makes show anything else is told of, nothing is told of without cause, and the flags are those
of before and of what is told. -/
theorem visits_dirtyTiles (config : IndexConfig) (start : EmptyStore) (vs : List Visit) {c : StorableChangeset}
    {report : UpdateReport} {a' : Atlas} (ha : (visits config start vs).apply c = .ok (report, a')) :
    (∀ t, ∃ before after, (visits config start vs).Watches report a' t before after) ∧
    ∃ flags : TileSet, (visits config start vs).dirtyTiles = .ok flags.toList ∧
      a'.dirtyTiles = .ok (flags ∪ report.dirtyTiles).toList := by
  obtain ⟨flags, h⟩ := visits_flags config start vs
  obtain ⟨l', h', htouches⟩ := h.accepted ha
  refine ⟨fun t => h.tells.watches h'.tells htouches t, flags, ?_, ?_⟩
  · rw [dirtyTiles, Store.reader_eq]
    exact h.stored.list
  · rw [dirtyTiles, Store.reader_eq]
    exact h'.stored.list

/-- A coastline moves after the flags that it raised were taken away. -/
theorem visits_dirtyTiles_moved :
    let first : StorableChangeset := ⟨{ entries := [
      { op := .create, element :=
        { kind := .coastline, number := 1, version := 1, geometry := some (.line [⟨0, 0⟩, ⟨90000000, 0⟩]) } }] },
      by decide +kernel⟩
    let next : StorableChangeset := ⟨{ entries := [
      { op := .modify, element :=
        { kind := .coastline, number := 1, version := 2, geometry := some (.line [⟨0, 0⟩, ⟨0, 90000000⟩]) } }] },
      by decide +kernel⟩
    let a := visits {} .segmented [.apply first, .clearDirtyTiles]
    ∃ report a', a.apply next = .ok (report, a') ∧ (∀ t, ∃ before after, a.Watches report a' t before after) ∧
      ∃ flags : TileSet, a.dirtyTiles = .ok flags.toList ∧ a'.dirtyTiles = .ok (flags ∪ report.dirtyTiles).toList := by
  intro first next a
  have hok : ((Ledger.perform false .empty first).apply false next).isOk = true := by decide +kernel
  obtain ⟨flags, h⟩ := visits_flags {} .segmented [.apply first, .clearDirtyTiles]
  obtain ⟨report, a', ha⟩ := h.tells.exists_apply hok
  exact ⟨report, a', ha, visits_dirtyTiles {} .segmented [.apply first, .clearDirtyTiles] ha⟩

end Atlas
end TileAtlas
