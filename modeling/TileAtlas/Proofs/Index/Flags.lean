import TileAtlas.Proofs.Index.Tiles
/-!
# Flags of tiles

Placing an element flags every tile that it takes out or puts in, and changes no other flag
(`DirtyTiles.Marks.flagged`).  What is flagged adds up over several batches, so that the flags of a
store are a set of tiles to which each batch adds its own (`DirtyTiles.StoredIn.flagged`).
-/
namespace TileAtlas

namespace DirtyTiles

variable {s s₁ s' : Contents} {tiles tiles' : TilePosition → Prop}

/-- Some tiles were flagged, and the flags of no others changed. -/
structure Flagged (tiles : TilePosition → Prop) (s s' : Contents) : Prop where
  marked : ∀ t, tiles t → s'.get .dirtyTiles t.key = some []
  others : ∀ k, (∀ t, tiles t → k ≠ t.key) → s'.get .dirtyTiles k = s.get .dirtyTiles k

theorem Flagged.of_column (h : ∀ k, s'.get .dirtyTiles k = s.get .dirtyTiles k) : Flagged (fun _ => False) s s' :=
  ⟨nofun, fun k _ => h k⟩

theorem Flagged.congr (h : Flagged tiles s s') (htiles : ∀ t, tiles t ↔ tiles' t) : Flagged tiles' s s' where
  marked t ht := h.marked t ((htiles t).2 ht)
  others k hk := h.others k fun t ht => hk t ((htiles t).1 ht)

/-- **Flags add up.** -/
theorem Flagged.trans (h : Flagged tiles s s₁) (h' : Flagged tiles' s₁ s') :
    Flagged (fun t => tiles t ∨ tiles' t) s s' where
  marked t ht := by
    by_cases ht' : tiles' t
    · exact h'.marked t ht'
    · have hkey : ∀ u, tiles' u → t.key ≠ u.key := fun u hu heq => ht' (TilePosition.key_inj heq ▸ hu)
      rw [h'.others _ hkey]
      exact h.marked t (ht.resolve_right ht')
  others k hk := by
    rw [h'.others k fun t ht => hk t (.inr ht), h.others k fun t ht => hk t (.inl ht)]

/-- There is one way for the flags to be then. -/
theorem Flagged.unique {s'' : Contents} (h : Flagged tiles s s') (h' : Flagged tiles s s'') (k : Bytes) :
    s''.get .dirtyTiles k = s'.get .dirtyTiles k := by
  by_cases hk : ∃ t, tiles t ∧ k = t.key
  · obtain ⟨t, ht, rfl⟩ := hk
    rw [h.marked t ht, h'.marked t ht]
  · have hother : ∀ t, tiles t → k ≠ t.key := fun t ht heq => hk ⟨t, ht, heq⟩
    rw [h.others k hother, h'.others k hother]

theorem flagged_mark (s : Contents) (t : TilePosition) : Flagged (· = t) s (s.put .dirtyTiles t.key []) where
  marked u hu := by rw [hu, Contents.get_put, if_pos ⟨rfl, rfl⟩]
  others k hk := by rw [Contents.get_put, if_neg fun h => hk t rfl h.2]

theorem mark_inj {t u : TilePosition} (h : mark t = mark u) : t = u := by
  simp only [mark, Op.put.injEq, true_and, and_true] at h
  exact TilePosition.key_inj h

/-! ## Writes that flag -/

/-- A batch touches flags only to set those of some tiles. -/
structure Marks (ops : List Op) (tiles : TilePosition → Prop) : Prop where
  only : ∀ op ∈ ops, op.column = .dirtyTiles → ∃ t, op = mark t
  mem : ∀ t, mark t ∈ ops ↔ tiles t

theorem Marks.congr {ops : List Op} (h : Marks ops tiles) (htiles : ∀ t, tiles t ↔ tiles' t) : Marks ops tiles' :=
  ⟨h.only, fun t => (h.mem t).trans (htiles t)⟩

theorem Marks.silent {ops : List Op} (h : ∀ op ∈ ops, op.column ≠ .dirtyTiles) : Marks ops fun _ => False where
  only op hop hcol := absurd hcol (h op hop)
  mem _ := ⟨fun ht => h _ ht rfl, False.elim⟩

theorem Marks.nil : Marks [] fun _ => False := .silent fun _ hop => absurd hop List.not_mem_nil

theorem Marks.append {ops ops' : List Op} (h : Marks ops tiles) (h' : Marks ops' tiles') :
    Marks (ops ++ ops') fun t => tiles t ∨ tiles' t where
  only op hop := (List.mem_append.1 hop).elim (h.only op) (h'.only op)
  mem t := by rw [List.mem_append, h.mem, h'.mem]

theorem Marks.mark (t : TilePosition) : Marks [DirtyTiles.mark t] (· = t) where
  only op hop _ := ⟨t, List.mem_singleton.1 hop⟩
  mem u := by rw [List.mem_singleton]; exact ⟨mark_inj, congrArg _⟩

theorem Marks.marks (tiles : List TilePosition) : Marks (tiles.map DirtyTiles.mark) (· ∈ tiles) where
  only op hop _ := (List.mem_map.1 hop).imp fun _ ht => ht.2.symm
  mem t := by
    rw [List.mem_map]
    exact ⟨fun ⟨u, hu, heq⟩ => mark_inj heq ▸ hu, fun ht => ⟨t, ht, rfl⟩⟩

theorem Marks.assign (id : ElementId) (o : Option Bytes) : ∀ tiles : List TilePosition,
    Marks (Membership.assign tiles id o) (· ∈ tiles)
  | [] => by
    have hnil : Membership.assign [] id o = [] := by cases o <;> rfl
    rw [hnil]
    exact Marks.nil.congr fun t => by simp
  | t :: tiles => by
    have hcons : ∃ op, op.column = .tiles ∧
        Membership.assign (t :: tiles) id o = [op] ++ ([DirtyTiles.mark t] ++ Membership.assign tiles id o) := by
      cases o with
      | none => exact ⟨_, rfl, rfl⟩
      | some v => exact ⟨_, rfl, rfl⟩
    obtain ⟨op, hop, hops⟩ := hcons
    have hentry : Marks [op] fun _ => False := .silent fun x hx => by
      rw [List.mem_singleton.1 hx, hop]
      exact nofun
    rw [hops]
    exact (hentry.append ((Marks.mark t).append (Marks.assign id o tiles))).congr fun u => by simp

theorem Marks.clear (id : ElementId) (tiles : TileSet) : Marks (Placement.clear id tiles) (· ∈ tiles) := by
  unfold Placement.clear
  split
  · rename_i hempty
    refine Marks.nil.congr fun t => ⟨False.elim, fun ht => ?_⟩
    rw [Std.ExtTreeSet.isEmpty_iff.1 hempty] at ht
    exact Std.ExtTreeSet.not_mem_empty ht
  · have hrest : Marks [ExternalFeature.delete id, TileCounts.change id (-tiles.size), ElementTiles.delete id]
        fun _ => False := .silent (by simp [ExternalFeature.delete, TileCounts.change, ElementTiles.delete, Op.column])
    exact ((Marks.assign id none tiles.toList).append hrest).congr fun t => by simp [Std.ExtTreeSet.mem_toList]

theorem Marks.write (id : ElementId) (p : Option Placement) :
    Marks (Placement.write id p) (· ∈ Placement.tilesOf p) := by
  cases p with
  | none =>
    have hdelete : Marks [TileCounts.delete id] fun _ => False := .silent (by simp [TileCounts.delete, Op.column])
    exact hdelete.congr fun t => ⟨False.elim, Std.ExtTreeSet.not_mem_empty⟩
  | some p =>
    have htiles : Marks (p.writeTiles id) (· ∈ p.tiles.toList) := by
      unfold Placement.writeTiles
      cases p.form with
      | inline => exact Marks.assign id (some p.payload) _
      | reference =>
        have hput : Marks [ExternalFeature.put id p.payload] fun _ => False :=
          .silent (by simp [ExternalFeature.put, Op.column])
        exact (hput.append (Marks.assign id (some []) _)).congr fun t => by simp
    have hrest : Marks [TileCounts.change id p.tiles.size, ElementTiles.set id p.tiles] fun _ => False :=
      .silent (by simp [TileCounts.change, ElementTiles.set, Op.column])
    exact (htiles.append hrest).congr fun t => by simp [Std.ExtTreeSet.mem_toList, Placement.tilesOf]

/-- **A batch flags the tiles that it marks.** -/
theorem Marks.flagged {tiles : TilePosition → Prop} : ∀ {ops : List Op} {s s' : Contents}, Marks ops tiles →
    s.apply ops = .ok s' → Flagged tiles s s' := by
  intro ops s s' hops h
  refine Flagged.congr ?_ hops.mem
  have honly := hops.only
  clear hops
  -- a write of the batch sets one of its flags, or leaves the column of flags alone
  induction ops generalizing s with
  | nil =>
    cases h
    exact (Flagged.of_column fun _ => rfl).congr fun t => by simp
  | cons op ops ih =>
    cases h₁ : s.applyOp op with
    | error e => rw [Contents.apply_cons_error h₁] at h; cases h
    | ok s₁ =>
      rw [Contents.apply_cons h₁] at h
      have hrest := ih h fun x hx => honly x (List.mem_cons_of_mem _ hx)
      have hone : Flagged (fun t => DirtyTiles.mark t = op) s s₁ := by
        by_cases hcol : op.column = .dirtyTiles
        · obtain ⟨t, rfl⟩ := honly op List.mem_cons_self hcol
          cases h₁
          exact (flagged_mark s t).congr fun u => ⟨congrArg _, mark_inj⟩
        · refine (Flagged.of_column fun k => ?_).congr fun t => ⟨False.elim, fun ht => hcol (ht ▸ rfl)⟩
          exact Contents.get_applyOp_of_ne h₁ (Ne.symm hcol) k
      exact (hone.trans hrest).congr fun t => List.mem_cons.symm

/-! ## Flags as a set -/

structure StoredIn (flags : TileSet) (s : Contents) : Prop where
  get : ∀ t, s.get .dirtyTiles t.key = if t ∈ flags then some [] else none
  keys : ∀ {k v}, s.get .dirtyTiles k = some v → ∃ t : TilePosition, k = t.key

theorem storedIn_empty (h : ∀ k, s.get .dirtyTiles k = none) : StoredIn ∅ s where
  get t := by rw [h, if_neg Std.ExtTreeSet.not_mem_empty]
  keys hk := by rw [h] at hk; cases hk

/-- **Flagged tiles join those that were flagged before.** -/
theorem StoredIn.flagged {flags new : TileSet} (h : StoredIn flags s) (hf : Flagged (· ∈ new) s s') :
    StoredIn (flags ∪ new) s' where
  get t := by
    by_cases ht : t ∈ new
    · rw [hf.marked t ht, if_pos (Std.ExtTreeSet.mem_union_iff.2 (.inr ht))]
    · have hkey : ∀ u, u ∈ new → t.key ≠ u.key := fun u hu heq => ht (TilePosition.key_inj heq ▸ hu)
      rw [hf.others _ hkey, h.get]
      by_cases hold : t ∈ flags
      · rw [if_pos hold, if_pos (Std.ExtTreeSet.mem_union_iff.2 (.inl hold))]
      · rw [if_neg hold, if_neg fun hu => (Std.ExtTreeSet.mem_union_iff.1 hu).elim hold ht]
  keys {k v} hk := by
    by_cases hnew : ∃ t ∈ new, k = t.key
    · obtain ⟨t, -, rfl⟩ := hnew
      exact ⟨t, rfl⟩
    · rw [hf.others k fun t ht heq => hnew ⟨t, ht, heq⟩] at hk
      exact h.keys hk

/-- **The flags are listed in the order of tiles.** -/
theorem StoredIn.list {flags : TileSet} (h : StoredIn flags s) : DirtyTiles.list s.reader = .ok flags.toList := by
  have hrows : (Columns.get s .dirtyTiles).toList = flags.toList.map fun t => (t.key, []) := by
    refine (Ascending.toList _).eq_of_mem_iff ?_ fun k v => ?_
    · rw [Ascending, List.pairwise_map]
      exact Std.ExtTreeSet.ordered_toList.imp fun hab => Bytes.compare_eq_lt.2 (TilePosition.key_lt_iff.2 hab)
    · rw [Std.ExtTreeMap.mem_toList_iff_getElem?_eq_some, ← Contents.get_eq, List.mem_map]
      constructor
      · intro hk
        obtain ⟨t, rfl⟩ := h.keys hk
        rw [h.get] at hk
        split at hk
        · rename_i ht
          cases hk
          exact ⟨t, Std.ExtTreeSet.mem_toList.2 ht, rfl⟩
        · cases hk
      · rintro ⟨t, ht, heq⟩
        cases heq
        rw [h.get, if_pos (Std.ExtTreeSet.mem_toList.1 ht)]
  rw [DirtyTiles.list, Contents.reader_scan, Table.scan_all, hrows]
  have hread := mapM_map_ok (w := fun t : TilePosition => (t.key, ([] : Bytes))) (g := id) (l := flags.toList)
    (f := fun p => Column.dirtyTiles.tileOf p.1) fun t _ => Column.tileOf_key .dirtyTiles t
  rwa [List.map_id] at hread

end DirtyTiles

/-! ## Flags of elements -/

namespace DirtyElements

variable {s : Contents}

/-- **The flagged elements are listed in their order.** -/
theorem list_ok (hkeys : ∀ {k v}, s.get .dirtyElements k = some v → ∃ id : ElementId, k = id.key) :
    ∃ ids, list s.reader = .ok ids ∧ (ids.Pairwise fun x y => compare x y = .lt) ∧
      ∀ id, id ∈ ids ↔ s.get .dirtyElements id.key ≠ none := by
  have hrows : ∀ p ∈ (Columns.get s .dirtyElements).toList, ∃ e : ElementId × Bytes, p = (e.1.key, e.2) := fun p hp => by
    obtain ⟨id, hid⟩ := hkeys (Std.ExtTreeMap.mem_toList_iff_getElem?_eq_some.1 hp)
    exact ⟨(id, p.2), Prod.ext hid rfl⟩
  obtain ⟨rows, hrows⟩ := exists_eq_map hrows
  refine ⟨rows.map (·.1), ?_, ?_, fun id => ?_⟩
  · rw [list, Contents.reader_scan, Table.scan_all, hrows]
    exact mapM_map_ok fun e _ => Column.elementOf_key .dirtyElements e.1
  · have hasc := Ascending.toList (Columns.get s .dirtyElements)
    rw [hrows, Ascending, List.pairwise_map] at hasc
    rw [List.pairwise_map]
    exact hasc.imp fun hab => ElementId.key_lt_iff.1 (Bytes.compare_eq_lt.1 hab)
  · rw [Option.ne_none_iff_exists', List.mem_map]
    constructor
    · rintro ⟨e, he, rfl⟩
      have hmem : (e.1.key, e.2) ∈ (Columns.get s .dirtyElements).toList := hrows ▸ List.mem_map_of_mem he
      exact ⟨e.2, Std.ExtTreeMap.mem_toList_iff_getElem?_eq_some.1 hmem⟩
    · rintro ⟨v, hv⟩
      have hmem : (id.key, v) ∈ (Columns.get s .dirtyElements).toList :=
        Std.ExtTreeMap.mem_toList_iff_getElem?_eq_some.2 hv
      rw [hrows] at hmem
      obtain ⟨e, he, heq⟩ := List.mem_map.1 hmem
      exact ⟨e, he, ElementId.key_inj (Prod.mk.inj heq).1⟩

theorem list_eq_nil (h : ∀ k, s.get .dirtyElements k = none) : list s.reader = .ok [] := by
  obtain ⟨ids, hids, -, hmem⟩ := list_ok (s := s) fun {k v} hk => by rw [h] at hk; cases hk
  rw [hids, List.eq_nil_iff_forall_not_mem.2 fun id hid => (hmem id).1 hid (h id.key)]

end DirtyElements

def Placement.Touches (before after : Option Placement) (t : TilePosition) : Prop :=
  t ∈ tilesOf before ∨ t ∈ tilesOf after

end TileAtlas
