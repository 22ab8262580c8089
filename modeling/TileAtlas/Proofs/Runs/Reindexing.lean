import TileAtlas.Proofs.Runs.DirtyTiles
import TileAtlas.Proofs.Runs.Tiles
/-!
# Elements that wait to be placed anew

Whoever changes the records of an index without placing their elements flags these instead.  Each is then out of
date in its own way: it may have no record any more, or only a deleted one, or stand nowhere yet, or in other tiles, or
in the same ones in another form.  Placing all that wait leaves every element where its record has it, whatever was
known of it before (`Atlas.reindexDirty_refreshes`).
-/
namespace TileAtlas

namespace Atlas

/-- An element is flagged to be placed anew. -/
def Waits (a : Atlas) (id : ElementId) : Prop := DirtyElements.contains a.store.reader id = .ok true

/-- What the tile columns hold of each element agrees, and is what its record calls for unless the element waits. -/
structure IsPending (a : Atlas) : Prop where
  readable : ∀ id, ∃ e, Elements.get a.store.reader id = .ok e
  agrees : ∀ id, ∃ tiles, (a.store.contents.standing id).Agrees tiles
  current : ∀ id, ¬ a.Waits id → ∃ p, a.placementOf id = .ok p ∧ (a.store.contents.standing id).ReadsAs p
  /-- Nothing else is in these columns. -/
  entryKeys : ∀ {k v}, a.store.contents.get .tiles k = some v → ∃ m : Membership, k = m.key
  flagKeys : ∀ {k v}, a.store.contents.get .dirtyElements k = some v → ∃ id : ElementId, k = id.key

/-- Every element of an index stands where its record of before has it, none waits, and nothing else is other than
before but the flags of tiles. -/
structure Refreshes (a : Atlas) (touched : TileSet) (a' : Atlas) : Prop where
  config_eq : a'.config = a.config
  placed : ∀ id, ∃ p, a.placementOf id = .ok p ∧ a'.placementOf id = .ok p ∧ (a'.store.contents.standing id).ReadsAs p
  settled : DirtyElements.list a'.store.reader = .ok []
  mem_touched : ∀ t, t ∈ touched ↔ ∃ id, a.Waits id ∧ ∃ before after, ElementTiles.get a.store.reader id = .ok before ∧
    ElementTiles.get a'.store.reader id = .ok after ∧ (t ∈ before ∨ t ∈ after)
  shown : ∀ t, ∃ before after, a.shown t = .ok before ∧ a'.shown t = .ok after ∧ (before ≠ after → t ∈ touched)
  flags : DirtyTiles.Flagged (· ∈ touched) a.store.contents a'.store.contents
  others : ∀ id, ¬ a.Waits id → a'.store.contents.standing id = a.store.contents.standing id
  frame : ∀ c : Column, c.isPlacing = false → c ≠ .dirtyElements →
    Columns.get a'.store.contents c = Columns.get a.store.contents c

variable {a a' : Atlas} {records : Records} {old : ElementId → TileSet} {ids : List ElementId} {touched : TileSet}

theorem waits_iff {id : ElementId} : a.Waits id ↔ a.store.contents.get .dirtyElements id.key ≠ none := by
  unfold Waits DirtyElements.contains
  rw [a.store.reader_eq, Contents.reader_get]
  cases a.store.contents.get .dirtyElements id.key with
  | none => exact ⟨nofun, fun h => absurd rfl h⟩
  | some v => exact ⟨fun _ => nofun, fun _ => rfl⟩

theorem IsPending.exists_records (h : a.IsPending) : ∃ records : Records, records.ReadAt a.store.contents := by
  refine ⟨_, Contents.readAt_records fun id => ?_⟩
  obtain ⟨e, he⟩ := h.readable id
  rw [a.store.reader_eq] at he
  exact ⟨e, he⟩

/-- Elements that were on these lists were placed anew, all that waited. -/
structure Reindexes (a : Atlas) (records : Records) (old : ElementId → TileSet) (ids : List ElementId)
    (touched : TileSet) (a' : Atlas) : Prop where
  config_eq : a'.config = a.config
  mem : ∀ id, id ∈ ids ↔ a.Waits id
  reindexed : Update.Reindexed (a.config.placeAt records) old ids a.store.contents a'.store.contents
  mem_touched : ∀ t, t ∈ touched ↔ ∃ id ∈ ids, t ∈ old id ∨ t ∈ Placement.tilesOf (a.config.placeAt records id)

/-- **All that wait can be placed anew.** -/
theorem IsPending.exists_reindexes (h : a.IsPending) (hr : records.ReadAt a.store.contents)
    (hold : ∀ id, (a.store.contents.standing id).Agrees (old id)) :
    ∃ ids touched a', a.reindexDirty = .ok (touched, a') ∧ a.Reindexes records old ids touched a' := by
  obtain ⟨ids, hids, hasc, hmem⟩ := DirtyElements.list_ok h.flagKeys
  have hbegin := Transaction.Over.begin a.store.contents
  obtain ⟨touched, t, s', ht, hover, hdone, htouched⟩ :=
    Update.reindexAll_ok a.config ids ∅ (nodup_of_ascending hasc) hbegin hr fun id _ => hold id
  obtain ⟨a', ha, hconfig, rfl⟩ := exists_commit hover
  refine ⟨ids, touched, a', ?_, hconfig, fun id => (hmem id).trans waits_iff.symm, hdone, fun u => ?_⟩
  · have hlist : Update.reading (DirtyElements.list (Transaction.begin a.store.contents.reader).reader) = .ok ids := by
      rw [hbegin.reader, hids]
      rfl
    rw [reindexDirty, a.store.reader_eq]
    simp only [hlist, bind, Except.bind, ht, ha]
    rfl
  · rw [htouched]
    exact or_iff_right Std.ExtTreeSet.not_mem_empty

namespace Reindexes

variable (h : a.Reindexes records old ids touched a') (hp : a.IsPending) (hr : records.ReadAt a.store.contents)
  (hold : ∀ id, (a.store.contents.standing id).Agrees (old id))

include h

theorem others {id : ElementId} (hw : ¬ a.Waits id) : a'.store.contents.standing id = a.store.contents.standing id :=
  h.reindexed.others id fun hid => hw ((h.mem id).1 hid)

include hp in
/-- **Nothing waits any more.** -/
theorem get_dirtyElements (k : Bytes) : a'.store.contents.get .dirtyElements k = none := by
  rw [h.reindexed.unmarked]
  split
  · rfl
  · rename_i hk
    refine Classical.byContradiction fun hne => hk ?_
    obtain ⟨v, hv⟩ := Option.ne_none_iff_exists'.1 hne
    obtain ⟨id, rfl⟩ := hp.flagKeys hv
    exact List.mem_map_of_mem ((h.mem id).2 (waits_iff.2 hne))

include hr in
theorem readAt : records.ReadAt a'.store.contents := hr.of_column (h.reindexed.frame rfl (by decide))

include hp hr hold

/-- **An element stands where its record has it,** be it that it was placed anew or that it always stood there. -/
theorem readsAs (id : ElementId) : (a'.store.contents.standing id).ReadsAs (a.config.placeAt records id) := by
  by_cases hw : a.Waits id
  · exact h.reindexed.readsAs ((h.mem id).2 hw) (hold id) fun _ => IndexConfig.placeAt_valid
  · obtain ⟨p, hplace, hreads⟩ := hp.current id hw
    rw [placementOf_eq hr] at hplace
    rw [h.others hw, Except.ok.inj hplace]
    exact hreads

/-- **A tile that no element leaves or enters shows what it did.** -/
theorem shown_eq {t : TilePosition} (hout : t ∉ touched) : a'.shown t = a.shown t := by
  refine shown_congr hp.entryKeys (h.reindexed.entryKeys hp.entryKeys) fun x => ?_
  by_cases hw : a.Waits x
  · have hnot : ¬ (t ∈ old x ∨ t ∈ Placement.tilesOf (a.config.placeAt records x)) := fun hin =>
      hout ((h.mem_touched t).2 ⟨x, (h.mem x).2 hw, hin⟩)
    have hagrees := (h.readsAs hp hr hold x).agrees fun _ => IndexConfig.placeAt_valid
    rw [(hold x).feature_eq_none fun hin => hnot (.inl hin), hagrees.feature_eq_none fun hin => hnot (.inr hin)]
  · rw [h.others hw]

theorem refreshes : a.Refreshes touched a' where
  config_eq := h.config_eq
  placed id := by
    refine ⟨a.config.placeAt records id, placementOf_eq hr id, ?_, h.readsAs hp hr hold id⟩
    rw [placementOf_eq (h.readAt hr), h.config_eq]
  settled := by
    rw [a'.store.reader_eq]
    exact DirtyElements.list_eq_nil (h.get_dirtyElements hp)
  mem_touched t := by
    rw [h.mem_touched]
    refine exists_congr fun id => and_congr (h.mem id) ?_
    have hbefore : ElementTiles.get a.store.reader id = .ok (old id) := by
      rw [a.store.reader_eq]
      exact (hold id).list
    have hafter : ElementTiles.get a'.store.reader id = .ok (Placement.tilesOf (a.config.placeAt records id)) := by
      rw [a'.store.reader_eq]
      exact (h.readsAs hp hr hold id).list
    simp only [hbefore, hafter, Except.ok.injEq, exists_eq_left', exists_and_left]
  shown t := by
    obtain ⟨before, hbefore, -⟩ := a.shown_ok hp.entryKeys t
    obtain ⟨after, hafter, -⟩ := a'.shown_ok (h.reindexed.entryKeys hp.entryKeys) t
    refine ⟨before, after, hbefore, hafter, fun hne => Classical.byContradiction fun hout => hne ?_⟩
    rw [h.shown_eq hp hr hold hout, hbefore] at hafter
    exact Except.ok.inj hafter
  flags := h.reindexed.flags.congr fun t => (h.mem_touched t).symm
  others _ := h.others
  frame _ hc hne := Contents.columns_get_eq (h.reindexed.frame hc hne)

end Reindexes

/-- **Placing all that wait leaves every element where its record has it,** whatever was known of those before, and
tells of every tile that shows anything else since. -/
theorem reindexDirty_refreshes (h : a.IsPending) :
    ∃ touched a', a.reindexDirty = .ok (touched, a') ∧ a.Refreshes touched a' := by
  obtain ⟨records, hr⟩ := h.exists_records
  choose old hold using h.agrees
  obtain ⟨ids, touched, a', ha, hdone⟩ := h.exists_reindexes hr hold
  exact ⟨touched, a', ha, hdone.refreshes h hr hold⟩

/-- A coastline that stands nowhere yet, and a node that stands where a record had it that is gone. -/
theorem reindexDirty_refreshes_stale :
    let coast : Element := ⟨⟨13835058055282163713⟩, 1, true, ∅, .coastline (some (.line [⟨0, 0⟩, ⟨90000000, 0⟩]))⟩
    let gone : ElementId := ⟨5⟩
    let tile : TilePosition := ⟨7⟩
    let stale : Contents := (((((Contents.empty.put .elements coast.id.key coast.encode).put .dirtyElements
      coast.id.key []).put .dirtyElements gone.key []).put .tiles (Membership.key ⟨tile, gone⟩) [1]).put .tileCounts
      gone.key (Counter.encode 1)).put .elementTiles gone.key tile.key
    let a : Atlas := ⟨.flat ⟨stale, true⟩, {}⟩
    ∃ touched a', a.reindexDirty = .ok (touched, a') ∧ a.Refreshes touched a' := by
  intro coast gone tile stale a
  have hget : ∀ c k, a.store.contents.get c k = if c = .elementTiles ∧ k = gone.key then some tile.key else
      if c = .tileCounts ∧ k = gone.key then some (Counter.encode 1) else
      if c = .tiles ∧ k = Membership.key ⟨tile, gone⟩ then some [1] else
      if c = .dirtyElements ∧ k = gone.key then some [] else
      if c = .dirtyElements ∧ k = coast.id.key then some [] else
      if c = .elements ∧ k = coast.id.key then some coast.encode else none := fun c k => by
    change stale.get c k = _
    simp only [stale, Contents.get_put, Contents.get_empty]
  have hstorable : coast.IsStorable := by decide +kernel
  clear_value a coast
  let was (id : ElementId) : Option Placement := if id = gone then some ⟨.ofList [tile], .inline, [1]⟩ else none
  have hvalid : ∀ id p, was id = some p → p.Valid := fun id p hp => by
    simp only [was, Option.ite_none_right_eq_some, Option.some.injEq] at hp
    obtain ⟨-, rfl⟩ := hp
    exact ⟨rfl, by decide +kernel, nofun⟩
  have hreads : ∀ id, (a.store.contents.standing id).ReadsAs (was id) := fun id => by
    have hstanding : a.store.contents.standing id = Placement.standing (was id) := by
      by_cases hid : id = gone
      · subst hid
        simp only [Contents.standing, hget, reduceCtorEq, false_and, ↓reduceIte, Membership.key_eq_iff, and_true,
          true_and, and_self, Placement.standing, Std.ExtTreeSet.ofList_singleton, Std.ExtTreeSet.mem_insert,
          Std.LawfulEqCmp.compare_eq_iff_eq, Std.ExtTreeSet.not_mem_empty, or_false, Placement.entry,
          Placement.outside, Standing.mk.injEq, Option.some.injEq, was]
        exact ⟨funext fun t => if_congr eq_comm rfl rfl, rfl, rfl⟩
      · simp [Contents.standing, hget, ElementId.key_eq_iff, Membership.key_eq_iff, was, hid, Placement.standing]
    rw [hstanding]
    exact Placement.standing_readsAs (hvalid id)
  have hwaits : ∀ id, a.Waits id ↔ id = gone ∨ id = coast.id := fun id => by
    rw [waits_iff, hget]
    by_cases hg : id = gone <;> by_cases hc : id = coast.id <;> simp [hg, hc, ElementId.key_eq_iff]
  have hread : ∀ id, Elements.get a.store.reader id = .ok (if id = coast.id then some coast else none) := fun id => by
    have hrecord : a.store.contents.get .elements id.key = if id = coast.id then some coast.encode else none := by
      simp [hget, ElementId.key_eq_iff]
    rw [a.store.reader_eq, Elements.get, Contents.reader_get, hrecord]
    split
    · exact Records.readStored_encode hstorable id
    · rfl
  have h : a.IsPending :=
    { readable := fun id => ⟨_, hread id⟩
      agrees := fun id => ⟨_, (hreads id).agrees (hvalid id)⟩
      current := fun id hid => by
        rw [hwaits, not_or] at hid
        refine ⟨was id, ?_, hreads id⟩
        rw [placementOf, hread, if_neg hid.2, show was id = none from if_neg hid.1]
        rfl
      entryKeys := fun {k v} hk => by
        simp only [hget, reduceCtorEq, false_and, ↓reduceIte, true_and, Option.ite_none_right_eq_some] at hk
        exact ⟨_, hk.1⟩
      flagKeys := fun {k v} hk => by
        by_cases hg : k = gone.key
        · exact ⟨_, hg⟩
        · by_cases hc : k = coast.id.key
          · exact ⟨_, hc⟩
          · simp [hget, hg, hc] at hk }
  exact reindexDirty_refreshes h

end Atlas
end TileAtlas
