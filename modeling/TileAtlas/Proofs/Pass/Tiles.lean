import TileAtlas.Pass.Tiles
import TileAtlas.Proofs.Pass.Basic
import TileAtlas.Proofs.Store.Refusals
import TileAtlas.Proofs.Update.Apply
/-!
# Rebuilt tiles are those of the records

The tiles which held something are flagged; then the tile columns are emptied, and every element is placed
where it stands nowhere yet.  Once all elements are done, each has the placement of its record, whatever the
columns held before, as long as their lists of tiles could be read.  An index tells the same ledger then.
-/
namespace TileAtlas

namespace TileRebuild

theorem foldl_combine : ∀ (parts : List TileRebuild) (a : TileRebuild), parts.foldl combine a =
    ⟨a.elements + (parts.map (·.elements)).sum, a.features + (parts.map (·.features)).sum,
      a.memberships + (parts.map (·.memberships)).sum⟩
  | [], _ => rfl
  | p :: parts, a => by
    rw [List.foldl_cons, foldl_combine parts]
    simp only [combine, List.map_cons, List.sum_cons, Nat.add_assoc]

theorem sum_eq (parts : List TileRebuild) : sum parts =
    ⟨(parts.map (·.elements)).sum, (parts.map (·.features)).sum, (parts.map (·.memberships)).sum⟩ := by
  rw [sum, foldl_combine]
  simp only [Nat.zero_add]

theorem sum_append (ps qs : List TileRebuild) : sum (ps ++ qs) = (sum ps).combine (sum qs) := by
  simp only [sum_eq, combine, List.map_append, List.sum_append]

theorem sum_perm {ps qs : List TileRebuild} (h : ps.Perm qs) : sum ps = sum qs := by
  rw [sum_eq, sum_eq, (h.map _).sum_nat, (h.map (·.features)).sum_nat, (h.map (·.memberships)).sum_nat]

/-- What the parts add up to does not depend on the parts. -/
theorem sum_flatMap {α : Type} (f : α → List TileRebuild) : ∀ l : List α,
    sum (l.flatMap f) = sum (l.map fun x => sum (f x))
  | [] => rfl
  | x :: l => by
    rw [List.flatMap_cons, sum_append, sum_flatMap f l, List.map_cons, ← List.singleton_append, sum_append]
    simp only [sum_eq, combine, List.map_cons, List.map_nil, List.sum_cons, List.sum_nil, Nat.add_zero]

end TileRebuild

theorem Contents.apply_emptying : ∀ (cs : List Column) (s : Contents),
    ∃ s', s.apply (cs.map fun c => .deleteRange c .all) = .ok s' ∧
      ∀ c k, s'.get c k = if c ∈ cs then none else s.get c k
  | [], s => ⟨s, rfl, fun _ _ => by simp⟩
  | c :: cs, s => by
    obtain ⟨s', hs', hget⟩ := apply_emptying cs (s.modify c (·.deleteRange .all))
    refine ⟨s', hs', fun d k => ?_⟩
    rw [hget, Contents.get_deleteRange]
    by_cases hd : d ∈ cs
    · simp [hd]
    · simp [hd]

theorem DirtyTiles.Marks.placeAll (places : Placements) : ∀ es : List Element,
    Marks (es.flatMap fun e => Placement.write e.id (places e.id)) fun t => ∃ e ∈ es, t ∈ Placement.tilesOf (places e.id)
  | [] => Marks.nil.congr fun t => by simp
  | e :: es => ((Marks.write e.id (places e.id)).append (placeAll places es)).congr fun t => by
    simp only [List.mem_cons, exists_eq_or_imp]

namespace Placements

/-- The placements of those elements that are done. -/
def ofDone (places : Placements) (done : List Element) : Placements :=
  fun x => if x ∈ done.map (·.id) then places x else none

theorem ofDone_append_singleton (places : Placements) (done : List Element) (e : Element) :
    places.ofDone (done ++ [e]) = (places.ofDone done).set e.id (places e.id) := by
  funext x
  simp only [ofDone, set, List.map_append, List.map_cons, List.map_nil, List.mem_append, List.mem_singleton]
  by_cases hx : x = e.id
  · subst hx; simp
  · simp [hx]

theorem StoredIn.placeAll {places : Placements} : ∀ {es done : List Element} {s : Contents},
    (places.ofDone done).StoredIn s → ((done ++ es).map (·.id)).Nodup →
    ∃ s', s.apply (es.flatMap fun e => Placement.write e.id (places e.id)) = .ok s' ∧
      (places.ofDone (done ++ es)).StoredIn s' ∧ ∀ {c : Column}, c.isPlacing = false → ∀ k, s'.get c k = s.get c k
  | [], done, s, h, _ => ⟨s, rfl, by rwa [List.append_nil], fun _ _ => rfl⟩
  | e :: es, done, s, h, hnd => by
    rw [List.append_cons] at hnd ⊢
    have hnew : e.id ∉ done.map (·.id) := by
      rw [List.append_assoc, List.map_append, List.nodup_append] at hnd
      exact fun hmem => hnd.2.2 _ hmem _ (List.mem_map_of_mem List.mem_cons_self) rfl
    obtain ⟨s₁, hs₁, h₁, hf₁⟩ := h.place (if_neg hnew) (places e.id)
    rw [← ofDone_append_singleton] at h₁
    obtain ⟨s', hs', h', hf'⟩ := placeAll h₁ hnd
    exact ⟨s', by rw [List.flatMap_cons, Contents.apply_append hs₁, hs'], h', fun hc k => (hf' hc k).trans (hf₁ hc k)⟩

end Placements

namespace Pass

/-- **The tiles of all elements can be listed.** -/
theorem recordedTiles_ok {places : Placements} {s : Contents} (h : places.StoredIn s) {n : Snapshot}
    (hn : ∀ c start, n.pairsFrom c start = (Columns.get s c).scan (.startingAt start)) :
    ∃ tiles, recordedTiles n = .ok tiles := by
  have hread : ∀ p ∈ n.pairsFrom .elementTiles [],
      ElementTiles.read p.2 = .ok ((ElementTiles.read p.2).toOption.getD ∅) := fun p hp => by
    rw [hn] at hp
    have hget : s.get .elementTiles p.1 = some p.2 := (Table.mem_scan_startingAt.1 (show (p.1, p.2) ∈ _ from hp)).1
    obtain ⟨id, hid⟩ := h.idKeys rfl hget
    have hlist : (Placement.standing (places id)).list = some p.2 := by
      rw [← h.standing id, ← hget, hid]; rfl
    cases hp : places id with
    | none => rw [hp] at hlist; cases hlist
    | some q =>
      rw [hp] at hlist
      rw [← Option.some.inj hlist, ElementTiles.read_toList]; rfl
  exact ⟨_, by rw [recordedTiles, mapM_eq_ok hread]; rfl⟩

theorem mem_tileColumns {c : Column} : c ∈ tileColumns ↔ c = .tiles ∨ c.isStanding = true := by
  cases c <;> decide

theorem column_clearTileOps (old : List TilePosition) : ∀ op ∈ clearTileOps old, op.column.isPlacing = true := by
  intro op hop
  rcases List.mem_append.1 hop with hop | hop
  · obtain ⟨t, -, rfl⟩ := List.mem_map.1 hop
    rfl
  · obtain ⟨c, hc, rfl⟩ := List.mem_map.1 hop
    rcases mem_tileColumns.1 hc with rfl | hc
    · rfl
    · exact Column.isPlacing_of_isStanding hc

theorem marks_clearTileOps (old : List TilePosition) : DirtyTiles.Marks (clearTileOps old) (· ∈ old) := by
  have hrest : DirtyTiles.Marks (tileColumns.map fun c => .deleteRange c .all) fun _ => False := .silent (by decide)
  exact ((DirtyTiles.Marks.marks old).append hrest).congr fun t => by rw [or_false]

/-- The tile columns are emptied, and other columns but that of flags are left alone. -/
theorem apply_clearTileOps (old : List TilePosition) (s : Contents) : ∃ s', s.apply (clearTileOps old) = .ok s' ∧
    Placements.StoredIn (fun _ => none) s' ∧ DirtyTiles.Flagged (· ∈ old) s s' ∧
    ∀ {c : Column}, c.isPlacing = false → ∀ k, s'.get c k = s.get c k := by
  obtain ⟨s₁, h₁⟩ := Contents.exists_apply_of_fits (s := s) (b := old.map DirtyTiles.mark) fun op hop => by
    obtain ⟨t, -, rfl⟩ := List.mem_map.1 hop
    exact ⟨Column.fits_of_none rfl _, Contents.fits_of_none rfl⟩
  obtain ⟨s', hs', hget⟩ := Contents.apply_emptying tileColumns s₁
  have happly : s.apply (clearTileOps old) = .ok s' := by rw [clearTileOps, Contents.apply_append h₁, hs']
  refine ⟨s', happly, Placements.storedIn_empty fun c hc k => ?_, (marks_clearTileOps old).flagged happly,
    fun hc k => Contents.get_apply_of_isPlacing (column_clearTileOps old) happly hc k⟩
  rw [hget, if_pos (mem_tileColumns.2 hc)]

/-- The elements done so far have been placed, their tiles are flagged beside the old ones, and what does not tell of
places is what it was. -/
structure Replaced (places : Placements) (old : List TilePosition) (before : Contents) (done : List Element)
    (s : Store) : Prop where
  isWalkable : s.IsWalkable
  placed : (places.ofDone done).StoredIn s.contents
  flagged : DirtyTiles.Flagged (fun t => t ∈ old ∨ ∃ e ∈ done, t ∈ Placement.tilesOf (places e.id)) before s.contents
  frame : ∀ {c : Column}, c.isPlacing = false → ∀ k, s.contents.get c k = before.get c k

/-- What the placements of some elements add up to. -/
def summary (places : Placements) (es : List Element) : TileRebuild := .sum (es.map fun e => .ofPlacement (places e.id))

/-- **The summary counts the elements, those that have tiles, and their tiles.** -/
theorem summary_eq {places : Placements} (hv : ∀ id p, places id = some p → p.Valid) (es : List Element) :
    summary places es = ⟨es.length, (es.filter fun e => (places e.id).isSome).length,
      (es.map fun e => (Placement.tilesOf (places e.id)).size).sum⟩ := by
  induction es with
  | nil => rfl
  | cons e es ih =>
    have hcons : summary places (e :: es) = (TileRebuild.ofPlacement (places e.id)).combine (summary places es) := by
      unfold summary
      rw [List.map_cons, ← List.singleton_append, TileRebuild.sum_append]
      simp [TileRebuild.sum_eq]
    rw [hcons, ih]
    simp only [TileRebuild.combine, TileRebuild.ofPlacement, List.length_cons, List.map_cons, List.sum_cons,
      TileRebuild.mk.injEq]
    cases hp : places e.id with
    | none =>
      rw [List.filter_cons_of_neg (by simp [hp])]
      exact ⟨Nat.add_comm .., Nat.zero_add _, rfl⟩
    | some p =>
      have hpos : 0 < p.tiles.size := by
        refine Nat.pos_of_ne_zero fun hzero => ?_
        have hempty := (hv e.id p hp).tiles_ne
        rw [Std.ExtTreeSet.isEmpty_iff.2 (Std.ExtTreeSet.eq_empty_iff_size_eq_zero.2 hzero)] at hempty
        cases hempty
      rw [List.filter_cons_of_pos (by simp [hp]), List.length_cons]
      exact ⟨Nat.add_comm .., by rw [Option.elim_some, if_pos hpos, Nat.add_comm], rfl⟩

theorem does_placePiece {config : IndexConfig} {records : Records} {now before : Contents} {old : List TilePosition}
    {done : List Element} {s : Store} (h : Replaced (config.placeAt records) old before done s) (hr : records.ReadIn now)
    {q : Piece} (hq : q.IsReadable) (hrec : ∀ e ∈ q.elements, records[e.id]? = some e)
    (hnd : ((done ++ q.elements).map (·.id)).Nodup) :
    ∃ s', (placePiece config now.reader q).Does s (summary (config.placeAt records) q.elements) s' ∧
      Replaced (config.placeAt records) old before (done ++ q.elements) s' := by
  obtain ⟨t, ht, hplaces, hframe⟩ := h.placed.placeAll hnd
  have hflagged := h.flagged.trans ((DirtyTiles.Marks.placeAll (config.placeAt records) q.elements).flagged ht)
  have hplace : ∀ e ∈ q.elements, placeElement config now.reader e =
      .ok (.ofPlacement (config.placeAt records e.id), Placement.write e.id (config.placeAt records e.id)) :=
    fun e he => by
      have hat : config.placeAt records e.id = config.placeIn records e := by
        rw [IndexConfig.placeAt, hrec e he]; rfl
      rw [placeElement, config.place_eq hr.toReadAt, hat]; rfl
  have hmap := Piece.mapElements_eq hq hplace
  have hops : (q.elements.map fun e => (TileRebuild.ofPlacement (config.placeAt records e.id),
      Placement.write e.id (config.placeAt records e.id))).flatMap (·.2) =
      q.elements.flatMap fun e => Placement.write e.id (config.placeAt records e.id) := List.flatMap_map ..
  have hsum : (q.elements.map fun e => (TileRebuild.ofPlacement (config.placeAt records e.id),
      Placement.write e.id (config.placeAt records e.id))).map (·.1) =
      q.elements.map fun e => .ofPlacement (config.placeAt records e.id) := List.map_map ..
  rw [← hops] at ht
  obtain ⟨s', hw, hs', rfl⟩ := does_write h.isWalkable ht
  rw [summary, ← hsum]
  refine ⟨s', (does_ofIndex hmap s).bind (hw.bind (does_pure _ s')), hs', hplaces, hflagged.congr fun t => ?_,
    fun hc k => (hframe hc k).trans (h.frame hc k)⟩
  simp only [List.mem_append, or_and_right, exists_or, or_assoc]

/-- Elements without a record have no placement, so that nothing is missing once all others are done. -/
theorem ofDone_all {config : IndexConfig} {records : Records} {s : Contents} (hr : records.ReadIn s)
    {pieces : List Piece} (h : records.ReadBy pieces) :
    Placements.ofDone (config.placeAt records) (pieces.flatMap Piece.elements) = config.placeAt records := by
  funext x
  unfold Placements.ofDone
  split
  · rfl
  · rename_i hx
    cases he : records[x]? with
    | none => rw [IndexConfig.placeAt, he]; rfl
    | some e =>
      have hid := hr.id_eq he
      exact absurd (List.mem_map.2 ⟨e, (h.mem_iff hr).2 (by rw [hid, he]), hid⟩) hx

/-- The tile columns hold the placements of the records and nothing else, the tiles that had something and those that
have now are flagged, and the other columns are what they were. -/
structure Rebuilt (config : IndexConfig) (records : Records) (old : List TilePosition) (before after : Contents) :
    Prop where
  placed : Placements.StoredIn (config.placeAt records) after
  flagged : DirtyTiles.Flagged
    (fun t => t ∈ old ∨ ∃ e ∈ records.elements, t ∈ Placement.tilesOf (config.placeAt records e.id)) before after
  frame : ∀ {c : Column}, c.isPlacing = false → ∀ k, after.get c k = before.get c k

/-- There is one way for the contents to be then. -/
theorem Rebuilt.unique {config : IndexConfig} {records : Records} {old : List TilePosition}
    {before after after' : Contents} (h : Rebuilt config records old before after)
    (h' : Rebuilt config records old before after') : after' = after :=
  Contents.ext_get fun c k => by
    cases hc : c.isPlacing with
    | false => rw [h.frame hc, h'.frame hc]
    | true =>
      by_cases hdirty : c = .dirtyTiles
      · subst hdirty
        exact h.flagged.unique h'.flagged k
      · refine h.placed.unique h'.placed ?_ k
        cases c <;> simp_all [Column.isPlacing, Column.isStanding]

/-- **Tiles are rebuilt to those of the records,** whatever they were and however the elements are divided. -/
theorem does_rebuildTiles {config : IndexConfig} {records : Records} {s : Store} (hs : s.IsWalkable)
    (hr : records.ReadIn s.contents) {n : Snapshot} (hn : s.snapshot = .ok n) {old : List TilePosition}
    (hold : recordedTiles n = .ok old) {divide : Division} (hd : divide.Complete) :
    ∃ s', (rebuildTiles config divide).Does s (summary (config.placeAt records) records.elements) s' ∧ s'.IsWalkable ∧
      Rebuilt config records old s.contents s'.contents := by
  obtain ⟨t, ht, hnone, hflagged, hframe⟩ := apply_clearTileOps old s.contents
  obtain ⟨s₁, hs₁, hw₁, rfl⟩ := does_write hs ht
  obtain ⟨n₁, p, hn₁, hp, hwalks₁⟩ := does_snapshot hw₁
  have hr₁ : records.ReadIn s₁.contents := hr.of_column (hframe rfl)
  have hread := hd.readBy hwalks₁.piece hwalks₁.range hr₁
  have hstart : Replaced (config.placeAt records) old s.contents [] s₁ :=
    ⟨hw₁, hnone, hflagged.congr fun t => by simp, hframe⟩
  obtain ⟨s', hparts, hdone⟩ := does_each (fun q hq done t hpre ht =>
    does_placePiece ht hr₁ (hread.readable q hq)
      (fun e he => (hread.mem_iff hr₁).1 (List.mem_flatMap.2 ⟨q, hq, he⟩))
      ((hread.nodup_ids hr₁).sublist (hpre.sublist.map _))) (List.nil_append _) hstart
  rw [← hwalks₁.reader] at hparts
  have hsum : TileRebuild.sum ((divide p).map fun q => summary (config.placeAt records) q.elements) =
      summary (config.placeAt records) records.elements := by
    unfold summary
    rw [← TileRebuild.sum_flatMap, ← List.map_flatMap]
    exact TileRebuild.sum_perm (hread.elements.map _)
  have hplaces := hdone.placed
  rw [ofDone_all hr₁ hread] at hplaces
  rw [← hsum]
  refine ⟨s', (does_snapshot_of hn).bind ((does_ofIndex hold s).bind (hs₁.bind (hn₁.bind (hp.bind
    (hparts.bind (does_pure _ s')))))), hdone.isWalkable, hplaces, hdone.flagged.congr fun t => ?_, hdone.frame⟩
  simp only [hread.elements.mem_iff]

/-- An index tells the same ledger then. -/
theorem Rebuilt.storedIn {config : IndexConfig} {l : Ledger} {old : List TilePosition} {before after : Contents}
    (hb : Rebuilt config l.records old before after) (h : l.StoredIn config before) : l.StoredIn config after where
  indexed := h.indexed.of_columns fun c hc => hb.frame (by rcases hc with rfl | rfl <;> rfl)
  placed := hb.placed
  clean k := (hb.frame rfl k).trans (h.clean k)
  replication := h.replication.of_column (hb.frame rfl)

/-- A store whose tiles were rebuilt could be walked, and its lists of tiles could be read. -/
theorem Does.exists_of_rebuild {config : IndexConfig} {divide : Division} {s s' : Store} {r : TileRebuild}
    (h : (rebuildTiles config divide).Does s r s') :
    s.IsWalkable ∧ ∃ n old, s.snapshot = .ok n ∧ recordedTiles n = .ok old := by
  obtain ⟨n, s₁, hsnapshot, h₁⟩ := h.exists_of_bind
  obtain ⟨old, s₂, hread, h₂⟩ := h₁.exists_of_bind
  obtain ⟨_, s₃, hwrite, h₃⟩ := h₂.exists_of_bind
  obtain ⟨hn, rfl⟩ := hsnapshot.snapshot_eq
  obtain ⟨hold, rfl⟩ := hread.ofIndex_eq
  exact ⟨(Store.isWalkable_write hwrite.write_eq).1 h₃.isWalkable, n, old, hn, hold⟩

end Pass
end TileAtlas
