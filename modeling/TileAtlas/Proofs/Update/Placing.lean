import TileAtlas.Proofs.Index.Flags
import TileAtlas.Proofs.Update.Entries
/-!
# Placing elements anew

An element is taken out of the tiles on its list and put into those of its placement, and its count is only ever
changed by a difference.  What comes of it is right as long as the columns agreed about the element before
(`Standing.Agrees`), wherever it stood.  Elements that are placed anew one after another do not meet, so that each
finds what there was of it at first (`Update.reindexAll_ok`).
-/
namespace TileAtlas
namespace Update

/-- What is held once some elements, which had these tiles on their lists, are placed anew and wait no longer. -/
structure Reindexed (new : Placements) (old : ElementId → TileSet) (ids : List ElementId) (s s' : Contents) : Prop where
  /-- A list that was there and named no tiles stays where an element goes nowhere. -/
  placed : ∀ id ∈ ids, s'.standing id =
    { Placement.standing (new id) with
      list := (Placement.standing (new id)).list.or (if (old id).isEmpty then (s.standing id).list else none) }
  others : ∀ x, x ∉ ids → s'.standing x = s.standing x
  filled : ∀ {c k v}, s'.get c k = some v → (∃ op : Op, op.Places ∧ op.Fills c k) ∨ ∃ w, s.get c k = some w
  unmarked : ∀ k, s'.get .dirtyElements k = if k ∈ ids.map (·.key) then none else s.get .dirtyElements k
  frame : ∀ {c : Column}, c.isPlacing = false → c ≠ .dirtyElements → ∀ k, s'.get c k = s.get c k
  flags : DirtyTiles.Flagged (fun u => ∃ id ∈ ids, u ∈ old id ∨ u ∈ Placement.tilesOf (new id)) s s'

variable {base s s₁ s' : Contents} {t : Transaction} {records : Records} {new : Placements} {old : ElementId → TileSet}
  {ids : List ElementId} {id : ElementId}

theorem Reindexed.nil (new : Placements) (old : ElementId → TileSet) (s : Contents) : Reindexed new old [] s s where
  placed _ hid := absurd hid List.not_mem_nil
  others _ _ := rfl
  filled hk := .inr ⟨_, hk⟩
  unmarked k := by simp
  frame _ _ _ := rfl
  flags := (DirtyTiles.Flagged.of_column fun _ => rfl).congr fun u => by simp

theorem Reindexed.cons (h₁ : Reindexed new old [id] s s₁) (h : Reindexed new old ids s₁ s') (hid : id ∉ ids) :
    Reindexed new old (id :: ids) s s' where
  placed x hx := by
    rcases List.mem_cons.1 hx with rfl | hx
    · rw [h.others x hid, h₁.placed x (List.mem_singleton_self x)]
    · have hne : x ∉ [id] := fun heq => hid (List.mem_singleton.1 heq ▸ hx)
      rw [h.placed x hx, h₁.others x hne]
  others x hx := by
    rw [List.mem_cons, not_or] at hx
    rw [h.others x hx.2, h₁.others x fun heq => hx.1 (List.mem_singleton.1 heq)]
  filled hk := (h.filled hk).elim .inl fun ⟨_, hw⟩ => h₁.filled hw
  unmarked k := by
    rw [h.unmarked, h₁.unmarked]
    by_cases hk : k = id.key
    · simp [hk]
    · simp [hk]
  frame hc hne k := (h.frame hc hne k).trans (h₁.frame hc hne k)
  flags := (h₁.flags.trans h.flags).congr fun u => by simp

/-- An element is placed anew by the writes that take it out of its tiles and put it into those of its placement. -/
theorem reindex_eq (config : IndexConfig) (h : t.Over base s) (hr : records.ReadAt s)
    (ha : (s.standing id).Agrees (old id)) : reindex config t id =
      (writing t (Placement.clear id (old id) ++ Placement.write id (config.placeAt records id))).map
        fun t₁ => ((old id).insertMany ((config.placeAt records id).elim [] (·.tiles.toList)), t₁) := by
  have htiles : reading (ElementTiles.get s.reader id) = .ok (old id) := congrArg reading ha.list
  have hrecord : reading (Elements.get s.reader id) = .ok records[id]? := congrArg reading (hr.elements_get id)
  rw [reindex, h.reader, htiles]
  simp only [bind, Except.bind, hrecord]
  cases he : records[id]? with
  | none =>
    have hat : config.placeAt records id = none := by rw [IndexConfig.placeAt, he]; rfl
    rw [hat]
    rfl
  | some e =>
    have hat : config.placeAt records id = config.placeIn records e := by rw [IndexConfig.placeAt, he]; rfl
    have hplace : reading (config.place s.reader e) = .ok (config.placeIn records e) :=
      congrArg reading (config.place_eq hr e)
    rw [hat]
    simp only [hplace]
    rfl

/-- What those writes, and the one that takes its flag away, make of what is held. -/
theorem Reindexed.one (hs₁ : AppliesAt s (Placement.clear id (old id) ++ Placement.write id (new id)) id
      { Placement.standing (new id) with
        list := (Placement.standing (new id)).list.or (if (old id).isEmpty then (s.standing id).list else none) } s₁) :
    Reindexed new old [id] s (s₁.erase .dirtyElements id.key) := by
  have hops : ∀ op ∈ Placement.clear id (old id) ++ Placement.write id (new id), op.Places :=
    fun op hop => (List.mem_append.1 hop).elim (Placement.places_clear _ _ op) (Placement.places_write _ _ op)
  have hsame : ∀ c : Column, c ≠ .dirtyElements → ∀ k, (s₁.erase .dirtyElements id.key).get c k = s₁.get c k :=
    fun c hc k => (Contents.get_erase ..).trans (if_neg fun hk => hc hk.1)
  have hstanding : ∀ x, (s₁.erase .dirtyElements id.key).standing x = s₁.standing x :=
    Contents.standing_of_columns fun c hc => hsame c (by rintro rfl; rcases hc with hc | hc <;> cases hc)
  have hmarks := ((DirtyTiles.Marks.clear id (old id)).append (DirtyTiles.Marks.write id (new id))).flagged hs₁.apply
  constructor
  · intro x hx
    obtain rfl := List.mem_singleton.1 hx
    rw [hstanding, hs₁.standing]
  · intro x hx
    rw [hstanding, hs₁.others x fun heq => hx (List.mem_singleton.2 heq)]
  · intro c k v hk
    rw [Contents.get_erase] at hk
    split at hk
    · cases hk
    · refine (Contents.exists_of_apply hs₁.apply hk).imp_left fun hfills => ?_
      obtain ⟨op, hop, hf⟩ := hfills
      exact ⟨op, hops op hop, hf⟩
  · intro k
    rw [Contents.get_erase, Placements.frame_of_places hops hs₁.apply rfl]
    simp
  · intro c hc hne k
    rw [hsame c hne, Placements.frame_of_places hops hs₁.apply hc]
  · exact (hmarks.trans (.of_column (hsame _ (by decide)))).congr fun u => by simp

/-- **An element is placed anew where its record belongs,** the tiles that it leaves or enters are flagged, and it
waits no longer. -/
theorem reindex_ok (config : IndexConfig) (h : t.Over base s) (hr : records.ReadAt s)
    (ha : (s.standing id).Agrees (old id)) :
    ∃ tiles t₁ t' s', reindex config t id = .ok (tiles, t₁) ∧ writing t₁ [DirtyElements.unmark id] = .ok t' ∧
      t'.Over base s' ∧ Reindexed (config.placeAt records) old [id] s s' ∧
      ∀ u, u ∈ tiles ↔ u ∈ old id ∨ u ∈ Placement.tilesOf (config.placeAt records id) := by
  obtain ⟨s₁, hs₁⟩ := Contents.apply_replace ha (config.placeAt records id)
  obtain ⟨t₁, ht₁, h₁⟩ := writing_ok h hs₁.apply
  obtain ⟨t', ht', h'⟩ := writing_ok h₁ (show s₁.apply [DirtyElements.unmark id] = .ok (s₁.erase .dirtyElements id.key)
    from rfl)
  have htiles := reindex_eq config h hr ha
  rw [ht₁] at htiles
  refine ⟨_, t₁, t', _, htiles, ht', h', Reindexed.one hs₁, fun u => ?_⟩
  rw [Std.ExtTreeSet.mem_insertMany_list, List.contains_iff_mem]
  cases config.placeAt records id with
  | none => simp [Placement.tilesOf]
  | some p => simp [Placement.tilesOf, Std.ExtTreeSet.mem_toList]

/-- **Elements are placed anew one after another.** -/
theorem reindexAll_ok (config : IndexConfig) : ∀ (ids : List ElementId) {t : Transaction} {s : Contents} (touched : TileSet), ids.Nodup →
    t.Over base s → records.ReadAt s → (∀ id ∈ ids, (s.standing id).Agrees (old id)) →
    ∃ touched' t' s', reindexAll config ids (touched, t) = .ok (touched', t') ∧ t'.Over base s' ∧
      Reindexed (config.placeAt records) old ids s s' ∧
      ∀ u, u ∈ touched' ↔ u ∈ touched ∨ ∃ id ∈ ids, u ∈ old id ∨ u ∈ Placement.tilesOf (config.placeAt records id)
  | [], t, s, touched, _, h, _, _ => ⟨touched, t, s, rfl, h, .nil .., fun u => by simp⟩
  | id :: ids, t, s, touched, hnd, h, hr, ha => by
    obtain ⟨hid, hnd⟩ := List.nodup_cons.1 hnd
    obtain ⟨tiles, t₁, t₂, s₂, ht₁, ht₂, h₂, hone, htiles⟩ := reindex_ok config h hr (ha id List.mem_cons_self)
    have hr₂ : records.ReadAt s₂ := hr.of_column (hone.frame rfl (by decide))
    have ha₂ : ∀ x ∈ ids, (s₂.standing x).Agrees (old x) := fun x hx => by
      rw [hone.others x fun heq => hid (List.mem_singleton.1 heq ▸ hx)]
      exact ha x (List.mem_cons_of_mem id hx)
    obtain ⟨touched', t', s', ht', h', hrest, htouched⟩ :=
      reindexAll_ok config ids (touched.insertMany tiles.toList) hnd h₂ hr₂ ha₂
    refine ⟨touched', t', s', ?_, h', hone.cons hrest hid, fun u => ?_⟩
    · rw [reindexAll, ht₁]
      simp only [bind, Except.bind, ht₂]
      exact ht'
    · rw [htouched, Std.ExtTreeSet.mem_insertMany_list, List.contains_iff_mem, Std.ExtTreeSet.mem_toList, htiles]
      simp [or_assoc]

/-- **What is held of an element that was placed anew reads as its placement.** -/
theorem Reindexed.readsAs (h : Reindexed new old ids s s') (hid : id ∈ ids) (ha : (s.standing id).Agrees (old id))
    (hv : ∀ q, new id = some q → q.Valid) : (s'.standing id).ReadsAs (new id) := by
  rw [h.placed id hid]
  refine { Placement.standing_readsAs hv with list := ?_ }
  cases new id with
  | some p => exact ElementTiles.read_toList p.tiles
  | none =>
    change ElementTiles.readStored (if (old id).isEmpty then (s.standing id).list else none) = .ok ∅
    split
    · rename_i hempty
      rw [ha.list, Std.ExtTreeSet.isEmpty_iff.1 hempty]
    · rfl

theorem Reindexed.entryKeys (h : Reindexed new old ids s s')
    (hkeys : ∀ {k v}, s.get .tiles k = some v → ∃ m : Membership, k = m.key) {k v : Bytes}
    (hk : s'.get .tiles k = some v) : ∃ m : Membership, k = m.key := by
  rcases h.filled hk with ⟨op, hop, hf⟩ | ⟨w, hw⟩
  · exact hop.entryKeys hf
  · exact hkeys hw

/-- **Placements that were told are told again,** once all elements are placed anew that belong elsewhere now. -/
theorem Reindexed.storedIn {places : Placements} (h : Reindexed new (fun id => Placement.tilesOf (places id)) ids s s')
    (hp : places.StoredIn s) (hv : ∀ id q, places id = some q → q.Valid) (hsame : ∀ x, x ∉ ids → new x = places x) :
    new.StoredIn s' where
  standing x := by
    by_cases hx : x ∈ ids
    · -- no list was there that named no tiles
      have hlist : (if (Placement.tilesOf (places x)).isEmpty then (s.standing x).list else none) = none := by
        rw [hp.standing]
        cases hplace : places x with
        | none => rfl
        | some p =>
          rw [Placement.tilesOf, Option.elim_some, (hv x p hplace).tiles_ne]
          rfl
      rw [h.placed x hx, hlist, Option.or_none]
    · rw [h.others x hx, hp.standing, hsame x hx]
  entryKeys := h.entryKeys hp.entryKeys
  idKeys hc hk := by
    rcases h.filled hk with ⟨op, hop, hf⟩ | ⟨w, hw⟩
    · exact hop.idKeys hc hf
    · exact hp.idKeys hc hw

end Update
end TileAtlas
