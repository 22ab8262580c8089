import Mathlib.Data.List.Nodup
import TileAtlas.Proofs.Index.Placement
import TileAtlas.Proofs.Merge
/-!
# What the tile columns hold

Four columns tell where an element stands: its entries in tiles, their number, their list, and its
feature if it is kept outside.  `Placement.clear` leaves nothing of one element but perhaps a count of
zero, `Placement.write` then puts exactly its placement there (`apply_clear`, `apply_write`), and neither
touches what the columns hold of another element.
-/
namespace TileAtlas

/-- What the tile columns hold of one element. -/
structure Standing where
  entries : TilePosition → Option Bytes
  count : Option Bytes
  list : Option Bytes
  outside : Option Bytes

/-- What some contents hold of an element. -/
def Contents.standing (s : Contents) (id : ElementId) : Standing where
  entries t := s.get .tiles (Membership.key ⟨t, id⟩)
  count := s.get .tileCounts id.key
  list := s.get .elementTiles id.key
  outside := s.get .external id.key

namespace Placement

/-- What each tile holds of an element that stands in it. -/
def entry (p : Placement) : Bytes :=
  match p.form with
  | .inline => p.payload
  | .reference => []

/-- What is kept outside the tiles. -/
def outside (p : Placement) : Option Bytes :=
  match p.form with
  | .inline => none
  | .reference => some p.payload

/-- What the tile columns hold of an element that belongs there. -/
def standing : Option Placement → Standing
  | none => ⟨fun _ => none, none, none, none⟩
  | some p =>
    { entries := fun t => if t ∈ p.tiles then some p.entry else none
      count := some (Counter.encode (UInt64.ofNat p.tiles.size))
      list := some (p.tiles.toList.flatMap (·.key))
      outside := p.outside }

end Placement

/-- The columns that hold one value for each element that stands somewhere. -/
def Column.isStanding : Column → Bool
  | .tileCounts | .elementTiles | .external => true
  | _ => false

/-- Where elements stand: one placement for each that does. -/
abbrev Placements := ElementId → Option Placement

/-- The tile columns hold exactly these placements. -/
structure Placements.StoredIn (places : Placements) (s : Contents) : Prop where
  standing : ∀ id, s.standing id = Placement.standing (places id)
  entryKeys : ∀ {k v}, s.get .tiles k = some v → ∃ m : Membership, k = m.key
  idKeys : ∀ {c k v}, c.isStanding = true → s.get c k = some v → ∃ id : ElementId, k = id.key

/-! ## One key -/

namespace Contents

theorem standing_of_columns {s s' : Contents}
    (h : ∀ c : Column, c = .tiles ∨ c.isStanding = true → ∀ k, s'.get c k = s.get c k) (id : ElementId) :
    s'.standing id = s.standing id := by
  simp only [standing, h .tiles (.inl rfl), h .tileCounts (.inr rfl), h .elementTiles (.inr rfl),
    h .external (.inr rfl)]

theorem standing_assign_count (s : Contents) (id x : ElementId) (o : Option Bytes) :
    (s.assign .tileCounts id.key o).standing x = if x = id then { s.standing x with count := o } else s.standing x := by
  simp only [standing, get_assign, reduceCtorEq, false_and, true_and, if_false, ElementId.key_eq_iff]
  split <;> rfl

theorem standing_assign_list (s : Contents) (id x : ElementId) (o : Option Bytes) :
    (s.assign .elementTiles id.key o).standing x =
      if x = id then { s.standing x with list := o } else s.standing x := by
  simp only [standing, get_assign, reduceCtorEq, false_and, true_and, if_false, ElementId.key_eq_iff]
  split <;> rfl

theorem standing_assign_outside (s : Contents) (id x : ElementId) (o : Option Bytes) :
    (s.assign .external id.key o).standing x =
      if x = id then { s.standing x with outside := o } else s.standing x := by
  simp only [standing, get_assign, reduceCtorEq, false_and, true_and, if_false, ElementId.key_eq_iff]
  split <;> rfl

theorem standing_assign_entry (s : Contents) (t : TilePosition) (id x : ElementId) (o : Option Bytes) :
    (s.assign .tiles (Membership.key ⟨t, id⟩) o).standing x =
      if x = id then { s.standing x with entries := fun u => if u = t then o else (s.standing x).entries u }
      else s.standing x := by
  simp only [standing, get_assign, reduceCtorEq, false_and, true_and, if_false, Membership.key_eq_iff]
  by_cases hx : x = id
  · simp [hx]
  · simp [hx]

theorem standing_assign_dirty (s : Contents) (k : Bytes) (o : Option Bytes) (x : ElementId) :
    (s.assign .dirtyTiles k o).standing x = s.standing x := by
  simp only [standing, get_assign, reduceCtorEq, false_and, if_false]

end Contents

/-! ## Values that read back -/

theorem ElementTiles.read_toList (tiles : TileSet) : read (tiles.toList.flatMap (·.key)) = .ok tiles := by
  have hlen := Bytes.length_flatMap TilePosition.length_key tiles.toList
  have hmap : (tiles.toList.map (·.key)).mapM Column.elementTiles.tileOf = .ok tiles.toList := by
    rw [mapM_map_ok fun t _ => Column.tileOf_key .elementTiles t, List.map_id']
  rw [read, hlen, Nat.mul_mod_left, Nat.mul_div_cancel _ (by decide), Bytes.pieces_flatMap TilePosition.length_key, hmap]
  change Except.ok (Std.ExtTreeSet.ofList tiles.toList) = _
  congr 1
  refine Std.ExtTreeSet.ext_mem fun {t} => ?_
  rw [Std.ExtTreeSet.mem_ofList, List.contains_iff_mem, Std.ExtTreeSet.mem_toList]

theorem TileCounts.decode_of_read {v : Bytes} {n : UInt64} (h : read v = .ok n) :
    Counter.decode .counterValue v = .ok n := by
  unfold read at h
  split at h
  · rename_i hdecode
    cases h
    exact hdecode
  · cases h

/-! ## Entries -/

/-- Set or take out the entries of an element in some tiles. -/
def Membership.assign (tiles : List TilePosition) (id : ElementId) (o : Option Bytes) : List Op :=
  match o with
  | some v => Membership.add tiles id v
  | none => Membership.remove tiles id

/-- A batch touches what the tile columns hold of one element at most. -/
structure AppliesAt (s : Contents) (ops : List Op) (id : ElementId) (st : Standing) (s' : Contents) : Prop where
  apply : s.apply ops = .ok s'
  standing : s'.standing id = st
  others : ∀ x, x ≠ id → s'.standing x = s.standing x

theorem AppliesAt.nil (s : Contents) (id : ElementId) : AppliesAt s [] id (s.standing id) s := ⟨rfl, rfl, fun _ _ => rfl⟩

theorem AppliesAt.append {s s₁ s₂ : Contents} {ops ops' : List Op} {id : ElementId} {st st' : Standing}
    (h : AppliesAt s ops id st s₁) (h' : AppliesAt s₁ ops' id st' s₂) : AppliesAt s (ops ++ ops') id st' s₂ where
  apply := by rw [Contents.apply_append h.apply, h'.apply]
  standing := h'.standing
  others x hx := (h'.others x hx).trans (h.others x hx)

theorem AppliesAt.cons {s s₁ s₂ : Contents} {op : Op} {ops : List Op} {id : ElementId} {st st' : Standing}
    (h : AppliesAt s [op] id st s₁) (h' : AppliesAt s₁ ops id st' s₂) : AppliesAt s (op :: ops) id st' s₂ := h.append h'

namespace Contents

theorem apply_assign_entry (s : Contents) (t : TilePosition) (id : ElementId) (o : Option Bytes) :
    ∃ s', AppliesAt s (Membership.assign [t] id o) id
      { s.standing id with entries := fun u => if u = t then o else (s.standing id).entries u } s' := by
  refine ⟨(s.assign .tiles (Membership.key ⟨t, id⟩) o).assign .dirtyTiles t.key (some []), ?_, ?_, fun x hx => ?_⟩
  · cases o <;> rfl
  · rw [standing_assign_dirty, standing_assign_entry, if_pos rfl]
  · rw [standing_assign_dirty, standing_assign_entry, if_neg hx]

theorem apply_assign_entries (id : ElementId) (o : Option Bytes) : ∀ (tiles : List TilePosition) (s : Contents),
    ∃ s', AppliesAt s (Membership.assign tiles id o) id
      { s.standing id with entries := fun u => if u ∈ tiles then o else (s.standing id).entries u } s'
  | [], s => ⟨s, by cases o <;> rfl, by simp, fun _ _ => rfl⟩
  | t :: tiles, s => by
    obtain ⟨s₁, h₁⟩ := s.apply_assign_entry t id o
    obtain ⟨s', h'⟩ := apply_assign_entries id o tiles s₁
    have hops : Membership.assign (t :: tiles) id o = Membership.assign [t] id o ++ Membership.assign tiles id o := by
      cases o <;> rfl
    refine ⟨s', ?_⟩
    rw [hops]
    have h := h₁.append h'
    rw [h₁.standing] at h
    refine { h with standing := h.standing.trans ?_ }
    simp only [Standing.mk.injEq, and_true]
    funext u
    simp only [List.mem_cons]
    by_cases hu : u ∈ tiles
    · simp [hu]
    · simp [hu]

/-! ## Values by element -/

theorem apply_set_list (s : Contents) (id : ElementId) (tiles : TileSet) :
    ∃ s', AppliesAt s [ElementTiles.set id tiles] id
      { s.standing id with list := some (tiles.toList.flatMap (·.key)) } s' :=
  ⟨s.assign .elementTiles id.key (some (tiles.toList.flatMap (·.key))), rfl,
    (standing_assign_list ..).trans (if_pos rfl), fun _ hx => (standing_assign_list ..).trans (if_neg hx)⟩

theorem apply_delete_list (s : Contents) (id : ElementId) :
    ∃ s', AppliesAt s [ElementTiles.delete id] id { s.standing id with list := none } s' :=
  ⟨s.assign .elementTiles id.key none, rfl, (standing_assign_list ..).trans (if_pos rfl),
    fun _ hx => (standing_assign_list ..).trans (if_neg hx)⟩

theorem apply_put_outside (s : Contents) (id : ElementId) (payload : Bytes) :
    ∃ s', AppliesAt s [ExternalFeature.put id payload] id { s.standing id with outside := some payload } s' :=
  ⟨s.assign .external id.key (some payload), rfl, (standing_assign_outside ..).trans (if_pos rfl),
    fun _ hx => (standing_assign_outside ..).trans (if_neg hx)⟩

theorem apply_delete_outside (s : Contents) (id : ElementId) :
    ∃ s', AppliesAt s [ExternalFeature.delete id] id { s.standing id with outside := none } s' :=
  ⟨s.assign .external id.key none, rfl, (standing_assign_outside ..).trans (if_pos rfl),
    fun _ hx => (standing_assign_outside ..).trans (if_neg hx)⟩

theorem apply_delete_count (s : Contents) (id : ElementId) :
    ∃ s', AppliesAt s [TileCounts.delete id] id { s.standing id with count := none } s' :=
  ⟨s.assign .tileCounts id.key none, rfl, (standing_assign_count ..).trans (if_pos rfl),
    fun _ hx => (standing_assign_count ..).trans (if_neg hx)⟩

/-- A count is changed by merging, from nothing or from what is there. -/
theorem apply_change_count (s : Contents) (id : ElementId) (d : Int) {n : UInt64}
    (h : TileCounts.readStored (s.standing id).count = .ok n) :
    ∃ s', AppliesAt s [TileCounts.change id d] id
      { s.standing id with count := some (Counter.encode (n + UInt64.ofInt d)) } s' := by
  have hmerge : Column.merge .tileCounts (s.get .tileCounts id.key) (Counter.operand d) =
      .ok (Counter.encode (n + UInt64.ofInt d)) := by
    change TileCounts.readStored (s.get .tileCounts id.key) = .ok n at h
    cases hcount : s.get .tileCounts id.key with
    | none =>
      rw [hcount] at h
      cases h
      simp only [Column.merge, Column.mergeOperator?, MergeOperator.merge, Counter.merge_none, UInt64.zero_add]
    | some v =>
      rw [hcount] at h
      simp only [Column.merge, Column.mergeOperator?, MergeOperator.merge, Counter.merge_decoded (TileCounts.decode_of_read h)]
  refine ⟨s.assign .tileCounts id.key (some (Counter.encode (n + UInt64.ofInt d))), ?_,
    (standing_assign_count ..).trans (if_pos rfl), fun _ hx => (standing_assign_count ..).trans (if_neg hx)⟩
  rw [TileCounts.change, apply_cons (applyOp_merge hmerge)]; rfl

end Contents

/-! ## Clearing and writing a placement -/

/-- What the columns hold of an element agrees: it has entries in the tiles of its list and in no others, their number
is its count, and nothing is kept outside of an element that is nowhere. -/
structure Standing.Agrees (st : Standing) (tiles : TileSet) : Prop where
  entries : ∀ t, st.entries t ≠ none ↔ t ∈ tiles
  list : ElementTiles.readStored st.list = .ok tiles
  count : ∃ n, TileCounts.readStored st.count = .ok n ∧ n.toNat = tiles.size
  outside : tiles.isEmpty = true → st.outside = none

/-- The tiles that a placement is in. -/
def Placement.tilesOf (p : Option Placement) : TileSet := p.elim ∅ (·.tiles)

theorem Placement.mem_tilesOf {p : Option Placement} {t : TilePosition} :
    t ∈ tilesOf p ↔ ∃ q, p = some q ∧ t ∈ q.tiles := by
  cases p with
  | none => simp [tilesOf]
  | some p => simp [tilesOf]

theorem Placement.readStored_list : ∀ p : Option Placement, ElementTiles.readStored (standing p).list = .ok (tilesOf p)
  | none => rfl
  | some p => ElementTiles.read_toList p.tiles

/-- The number of tiles is not too large to be counted. -/
theorem Placement.readStored_count {p : Option Placement} (hv : ∀ q, p = some q → q.Valid) :
    ∃ n, TileCounts.readStored (standing p).count = .ok n ∧ n.toNat = (tilesOf p).size := by
  cases p with
  | none => exact ⟨0, rfl, rfl⟩
  | some p =>
    refine ⟨UInt64.ofNat p.tiles.size, ?_, UInt64.toNat_ofNat_of_lt' (hv p rfl).size_lt⟩
    change TileCounts.read (Counter.encode (UInt64.ofNat p.tiles.size)) = _
    rw [TileCounts.read, Counter.decode_encode]

/-- What the columns hold of an element reads as its placement. -/
structure Standing.ReadsAs (st : Standing) (p : Option Placement) : Prop where
  entries : ∀ t, st.entries t = p.bind fun q => if t ∈ q.tiles then some q.entry else none
  list : ElementTiles.readStored st.list = .ok (Placement.tilesOf p)
  count : ∃ n, TileCounts.readStored st.count = .ok n ∧ n.toNat = (Placement.tilesOf p).size
  outside : st.outside = p.bind Placement.outside

theorem Placement.standing_readsAs {p : Option Placement} (hv : ∀ q, p = some q → q.Valid) : (standing p).ReadsAs p where
  entries t := by cases p <;> rfl
  list := readStored_list p
  count := readStored_count hv
  outside := by cases p <;> rfl

theorem Standing.ReadsAs.agrees {st : Standing} {p : Option Placement} (h : st.ReadsAs p)
    (hv : ∀ q, p = some q → q.Valid) : st.Agrees (Placement.tilesOf p) where
  entries t := by
    rw [h.entries]
    cases p <;> simp [Placement.tilesOf]
  list := h.list
  count := h.count
  outside hempty := by
    cases p with
    | none => exact h.outside
    | some p => rw [Placement.tilesOf, Option.elim_some, (hv p rfl).tiles_ne] at hempty; cases hempty

/-- **Clearing leaves nothing of an element in its tiles.** -/
theorem Contents.apply_clear {s : Contents} {id : ElementId} {tiles : TileSet} (h : (s.standing id).Agrees tiles) :
    ∃ s' st, AppliesAt s (Placement.clear id tiles) id st s' ∧ st.Agrees ∅ ∧
      st.list = if tiles.isEmpty then (s.standing id).list else none := by
  by_cases hempty : tiles.isEmpty = true
  · obtain rfl := Std.ExtTreeSet.isEmpty_iff.1 hempty
    rw [Placement.clear, if_pos hempty, if_pos hempty]
    exact ⟨s, s.standing id, AppliesAt.nil s id, h, rfl⟩
  · obtain ⟨n, hn, hsize⟩ := h.count
    rw [Placement.clear, if_neg hempty, if_neg hempty]
    obtain ⟨s₁, h₁⟩ := apply_assign_entries id none tiles.toList s
    obtain ⟨s₂, h₂⟩ := s₁.apply_delete_outside id
    obtain ⟨s₃, h₃⟩ := s₂.apply_change_count id (-tiles.size) (by rw [h₂.standing, h₁.standing]; exact hn)
    obtain ⟨s₄, h₄⟩ := s₃.apply_delete_list id
    -- the count is the size of this very list of tiles, and is lowered by it
    have hzero : n + UInt64.ofInt (-tiles.size) = 0 := by
      rw [← hsize, ← Counter.ofNat_add_neg n.toNat, UInt64.ofNat_toNat]
    refine ⟨s₄, _, h₁.append (h₂.cons (h₃.cons h₄)), ?_, rfl⟩
    rw [h₃.standing, h₂.standing, h₁.standing, hzero]
    refine ⟨fun t => ?_, rfl, ⟨0, ?_, rfl⟩, fun _ => rfl⟩
    · by_cases ht : t ∈ tiles
      · simp [Std.ExtTreeSet.mem_toList, ht]
      · simp [Std.ExtTreeSet.mem_toList, ht, h.entries]
    · change TileCounts.read (Counter.encode 0) = _
      rw [TileCounts.read, Counter.decode_encode]

/-- **Writing a placement where nothing stands leaves exactly this placement,** and a list only of its own tiles. -/
theorem Contents.apply_write {s : Contents} {id : ElementId} (p : Option Placement) (h : (s.standing id).Agrees ∅) :
    ∃ s', AppliesAt s (Placement.write id p) id
      { Placement.standing p with list := (Placement.standing p).list.or (s.standing id).list } s' := by
  have hnone : ∀ u, (s.standing id).entries u = none := fun u =>
    Classical.byContradiction fun hu => Std.ExtTreeSet.not_mem_empty ((h.entries u).1 hu)
  have houtside : (s.standing id).outside = none := h.outside rfl
  cases p with
  | none =>
    obtain ⟨s', h'⟩ := s.apply_delete_count id
    refine ⟨s', { h' with standing := h'.standing.trans ?_ }⟩
    simp only [Placement.standing, Option.none_or, houtside, Standing.mk.injEq, and_true]
    exact funext hnone
  | some p =>
    obtain ⟨n, hn, hsize⟩ := h.count
    obtain rfl : n = 0 := UInt64.toNat_inj.1 hsize
    have hcount : ∀ {s₁ : Contents}, (s₁.standing id).count = (s.standing id).count →
        ∃ s', AppliesAt s₁ [TileCounts.change id p.tiles.size, ElementTiles.set id p.tiles] id
          { s₁.standing id with
            count := some (Counter.encode (UInt64.ofNat p.tiles.size))
            list := some (p.tiles.toList.flatMap (·.key)) } s' := fun {s₁} h₁ => by
      obtain ⟨s₂, h₂⟩ := s₁.apply_change_count id p.tiles.size (by rw [h₁]; exact hn)
      obtain ⟨s', h'⟩ := s₂.apply_set_list id p.tiles
      refine ⟨s', { h₂.cons h' with standing := h'.standing.trans ?_ }⟩
      rw [h₂.standing, UInt64.zero_add, Counter.ofInt_natCast]
    have hentries : ∀ v, (fun u => if u ∈ p.tiles.toList then some v else (s.standing id).entries u) =
        fun u => if u ∈ p.tiles then some v else none := fun v => by
      funext u
      simp only [hnone, Std.ExtTreeSet.mem_toList]
    rw [Placement.write, Placement.writeTiles]
    cases hform : p.form with
    | inline =>
      obtain ⟨s₁, h₁⟩ := apply_assign_entries id (some p.payload) p.tiles.toList s
      obtain ⟨s', h'⟩ := hcount (by rw [h₁.standing])
      refine ⟨s', { h₁.append h' with standing := h'.standing.trans ?_ }⟩
      rw [h₁.standing]
      simp only [hentries, houtside, Placement.standing, Placement.entry, Placement.outside, hform, Option.some_or]
    | reference =>
      obtain ⟨s₁, h₁⟩ := s.apply_put_outside id p.payload
      obtain ⟨s₂, h₂⟩ := apply_assign_entries id (some []) p.tiles.toList s₁
      obtain ⟨s', h'⟩ := hcount (by rw [h₂.standing, h₁.standing])
      refine ⟨s', { (h₁.cons h₂).append h' with standing := h'.standing.trans ?_ }⟩
      rw [h₂.standing, h₁.standing]
      simp only [hentries, Placement.standing, Placement.entry, Placement.outside, hform, Option.some_or]

/-- **Placing an element anew leaves of it what its placement calls for,** whatever agreed before. -/
theorem Contents.apply_replace {s : Contents} {id : ElementId} {tiles : TileSet} (h : (s.standing id).Agrees tiles)
    (p : Option Placement) : ∃ s', AppliesAt s (Placement.clear id tiles ++ Placement.write id p) id
      { Placement.standing p with
        list := (Placement.standing p).list.or (if tiles.isEmpty then (s.standing id).list else none) } s' := by
  obtain ⟨s₁, st, h₁, hvacant, hlist⟩ := Contents.apply_clear h
  obtain ⟨s', h'⟩ := s₁.apply_write p (by rwa [h₁.standing])
  rw [h₁.standing, hlist] at h'
  exact ⟨s', h₁.append h'⟩

/-! ## Placements as a whole -/

/-- The columns that placing writes to. -/
def Column.isPlacing : Column → Bool
  | .tiles | .tileCounts | .elementTiles | .external | .dirtyTiles => true
  | _ => false

theorem Column.isPlacing_of_isStanding {c : Column} : c.isStanding = true → c.isPlacing = true := by
  cases c <;> decide

theorem Contents.get_apply_of_isPlacing {ops : List Op} (hops : ∀ op ∈ ops, op.column.isPlacing = true)
    {s s' : Contents} (h : s.apply ops = .ok s') {c : Column} (hc : c.isPlacing = false) (k : Bytes) :
    s'.get c k = s.get c k :=
  get_apply_of_ne h (fun op hop heq => by rw [heq, hops op hop] at hc; cases hc) k

/-- A write that may be a part of placing an element. -/
structure Op.Places (op : Op) : Prop where
  column : op.column.isPlacing = true
  entryKeys : ∀ {k}, op.Fills .tiles k → ∃ m : Membership, k = m.key
  idKeys : ∀ {c k}, c.isStanding = true → op.Fills c k → ∃ id : ElementId, k = id.key

namespace Placement

theorem places_delete {c : Column} (hc : c.isPlacing = true) (k : Bytes) : (Op.delete c k).Places :=
  ⟨hc, nofun, nofun⟩

theorem places_mark (t : TilePosition) : (DirtyTiles.mark t).Places where
  column := rfl
  entryKeys := fun h => by cases h.1
  idKeys := fun hc h => by rw [← h.1] at hc; cases hc

theorem places_put {c : Column} (hc : c.isStanding = true) (id : ElementId) (v : Bytes) : (Op.put c id.key v).Places where
  column := by cases c <;> first | rfl | cases hc
  entryKeys := fun h => by rw [h.1] at hc; cases hc
  idKeys := fun _ h => ⟨id, h.2.symm⟩

theorem places_change (id : ElementId) (d : Int) : (TileCounts.change id d).Places where
  column := rfl
  entryKeys := fun h => by cases h.1
  idKeys := fun _ h => ⟨id, h.2.symm⟩

theorem places_assign (tiles : List TilePosition) (id : ElementId) (o : Option Bytes) :
    ∀ op ∈ Membership.assign tiles id o, op.Places := fun op hop => by
  cases o with
  | none =>
    obtain ⟨t, -, hop⟩ := List.mem_flatMap.1 hop
    simp only [List.mem_cons, List.not_mem_nil, or_false] at hop
    rcases hop with rfl | rfl
    · exact places_delete rfl _
    · exact places_mark t
  | some v =>
    obtain ⟨t, -, hop⟩ := List.mem_flatMap.1 hop
    simp only [List.mem_cons, List.not_mem_nil, or_false] at hop
    rcases hop with rfl | rfl
    · exact ⟨rfl, fun h => ⟨⟨t, id⟩, h.2.symm⟩, fun hc h => by rw [← h.1] at hc; cases hc⟩
    · exact places_mark t

theorem places_clear (id : ElementId) (tiles : TileSet) : ∀ op ∈ clear id tiles, op.Places := fun op hop => by
  rw [clear] at hop
  split at hop
  · cases hop
  · rcases List.mem_append.1 hop with hop | hop
    · exact places_assign _ id none op hop
    · simp only [List.mem_cons, List.not_mem_nil, or_false] at hop
      rcases hop with rfl | rfl | rfl
      · exact places_delete rfl _
      · exact places_change id _
      · exact places_delete rfl _

theorem places_write (id : ElementId) (p : Option Placement) : ∀ op ∈ write id p, op.Places := fun op hop => by
  cases p with
  | none =>
    obtain rfl := List.mem_singleton.1 hop
    exact places_delete rfl _
  | some p =>
    rcases List.mem_append.1 hop with hop | hop
    · rw [writeTiles] at hop
      split at hop
      · exact places_assign _ id (some p.payload) op hop
      · rcases List.mem_cons.1 hop with rfl | hop
        · exact places_put rfl id _
        · exact places_assign _ id (some []) op hop
    · simp only [List.mem_cons, List.not_mem_nil, or_false] at hop
      rcases hop with rfl | rfl
      · exact places_change id _
      · exact places_put rfl id _

end Placement

namespace Placements

/-- The placements after one element was placed anew. -/
def set (places : Placements) (id : ElementId) (p : Option Placement) : Placements :=
  fun x => if x = id then p else places x

variable {places : Placements} {s s' : Contents}

theorem StoredIn.of_columns (h : places.StoredIn s)
    (hs : ∀ c : Column, c = .tiles ∨ c.isStanding = true → ∀ k, s'.get c k = s.get c k) : places.StoredIn s' where
  standing id := (Contents.standing_of_columns hs id).trans (h.standing id)
  entryKeys hk := h.entryKeys (by rwa [← hs .tiles (.inl rfl)])
  idKeys hc hk := h.idKeys hc (by rwa [← hs _ (.inr hc)])

/-- **The placements tell what the columns hold.** -/
theorem StoredIn.unique (h : places.StoredIn s) (h' : places.StoredIn s') {c : Column}
    (hc : c = .tiles ∨ c.isStanding = true) (k : Bytes) : s'.get c k = s.get c k := by
  have hstanding : ∀ id, s'.standing id = s.standing id := fun id => (h'.standing id).trans (h.standing id).symm
  by_cases hk : s.get c k = none ∧ s'.get c k = none
  · rw [hk.1, hk.2]
  · -- one of the two holds something there, so that the key is an element's
    have hsome : ∃ t : Contents, places.StoredIn t ∧ ∃ v, t.get c k = some v := by
      by_contra hno
      refine hk ⟨Option.eq_none_iff_forall_ne_some.2 fun v hv => hno ⟨s, h, v, hv⟩,
        Option.eq_none_iff_forall_ne_some.2 fun v hv => hno ⟨s', h', v, hv⟩⟩
    obtain ⟨t, ht, v, hv⟩ := hsome
    rcases hc with rfl | hc
    · obtain ⟨⟨u, id⟩, rfl⟩ := ht.entryKeys hv
      exact congrArg (fun st => st.entries u) (hstanding id)
    · obtain ⟨id, rfl⟩ := ht.idKeys hc hv
      cases c with
      | tileCounts => exact congrArg Standing.count (hstanding id)
      | elementTiles => exact congrArg Standing.list (hstanding id)
      | external => exact congrArg Standing.outside (hstanding id)
      | _ => cases hc

theorem storedIn_empty (h : ∀ c : Column, c = .tiles ∨ c.isStanding = true → ∀ k, s.get c k = none) :
    Placements.StoredIn (fun _ => none) s where
  standing id := by
    simp only [Contents.standing, h .tiles (.inl rfl), h .tileCounts (.inr rfl), h .elementTiles (.inr rfl),
      h .external (.inr rfl), Placement.standing]
  entryKeys hk := by rw [h _ (.inl rfl)] at hk; cases hk
  idKeys hc hk := by rw [h _ (.inr hc)] at hk; cases hk

theorem StoredIn.appliesAt (h : places.StoredIn s) {ops : List Op} (hops : ∀ op ∈ ops, op.Places) {id : ElementId}
    {p : Option Placement} (ha : AppliesAt s ops id (Placement.standing p) s') : (places.set id p).StoredIn s' where
  standing x := by
    rw [set]
    split
    · rename_i hx; rw [hx, ha.standing]
    · rename_i hx; rw [ha.others x hx, h.standing]
  entryKeys hk := by
    rcases Contents.exists_of_apply ha.apply hk with ⟨op, hop, hf⟩ | ⟨w, hw⟩
    · exact (hops op hop).entryKeys hf
    · exact h.entryKeys hw
  idKeys hc hk := by
    rcases Contents.exists_of_apply ha.apply hk with ⟨op, hop, hf⟩ | ⟨w, hw⟩
    · exact (hops op hop).idKeys hc hf
    · exact h.idKeys hc hw

theorem frame_of_places {ops : List Op} (hops : ∀ op ∈ ops, op.Places) (ha : s.apply ops = .ok s') {c : Column}
    (hc : c.isPlacing = false) (k : Bytes) : s'.get c k = s.get c k :=
  Contents.get_apply_of_isPlacing (fun op hop => (hops op hop).column) ha hc k

/-- **Placing an element that stands nowhere.** -/
theorem StoredIn.place (h : places.StoredIn s) {id : ElementId} (hnone : places id = none) (p : Option Placement) :
    ∃ s', s.apply (Placement.write id p) = .ok s' ∧ (places.set id p).StoredIn s' ∧
      ∀ {c : Column}, c.isPlacing = false → ∀ k, s'.get c k = s.get c k := by
  have hstanding : s.standing id = Placement.standing none := by rw [h.standing, hnone]
  obtain ⟨s', h'⟩ := s.apply_write p (by rw [hstanding]; exact (Placement.standing_readsAs (p := none) nofun).agrees nofun)
  rw [hstanding, show (Placement.standing none).list = none from rfl, Option.or_none] at h'
  exact ⟨s', h'.apply, h.appliesAt (Placement.places_write id p) h',
    fun hc k => frame_of_places (Placement.places_write id p) h'.apply hc k⟩

end Placements

/-- **Where an element stands reads back**: the number of its tiles is not too large to be counted. -/
theorem Placements.StoredIn.readsAs {places : Placements} {s : Contents} (h : places.StoredIn s) {id : ElementId}
    (hv : ∀ p, places id = some p → p.Valid) : (s.standing id).ReadsAs (places id) := by
  rw [h.standing]
  exact Placement.standing_readsAs hv

/-! ## Entries as a whole -/

theorem Placements.StoredIn.entry_iff {places : Placements} {s : Contents} (h : places.StoredIn s) {t : TilePosition}
    {id : ElementId} {v : Bytes} :
    s.get .tiles (Membership.key ⟨t, id⟩) = some v ↔ ∃ p, places id = some p ∧ t ∈ p.tiles ∧ v = p.entry := by
  have hget : s.get .tiles (Membership.key ⟨t, id⟩) = (Placement.standing (places id)).entries t :=
    congrArg (fun st => st.entries t) (h.standing id)
  rw [hget]
  cases places id with
  | none => simp [Placement.standing]
  | some p => simp [Placement.standing, eq_comm]

theorem Membership.nodup_keys {tiles : ElementId → TileSet} {ids : List ElementId} (h : ids.Nodup) :
    (ids.flatMap fun id => (tiles id).toList.map fun t => key ⟨t, id⟩).Nodup := by
  rw [List.nodup_flatMap]
  constructor
  · intro id _
    exact (nodup_of_ascending Std.ExtTreeSet.ordered_toList).map fun t u heq => (key_eq_iff.1 heq).1
  · refine h.imp fun {id x} hne k hk hk' => ?_
    obtain ⟨t, -, rfl⟩ := List.mem_map.1 hk
    obtain ⟨u, -, heq⟩ := List.mem_map.1 hk'
    exact hne (key_eq_iff.1 heq).2.symm

/-- **There are as many entries as the placements have tiles.** -/
theorem Placements.StoredIn.size_tiles {places : Placements} {s : Contents} (h : places.StoredIn s)
    {ids : List ElementId} (hnd : ids.Nodup) (hall : ∀ id p, places id = some p → id ∈ ids) :
    (Columns.get s .tiles).size = (ids.map fun id => (Placement.tilesOf (places id)).size).sum := by
  have hrows : ((Columns.get s .tiles).toList.map (·.1)).Nodup :=
    nodup_of_ascending (List.pairwise_map.2 (Ascending.toList (Columns.get s .tiles)))
  have hmem : ∀ k, k ∈ (Columns.get s .tiles).toList.map (·.1) ↔
      k ∈ ids.flatMap fun id => (Placement.tilesOf (places id)).toList.map fun t => Membership.key ⟨t, id⟩ := fun k => by
    rw [List.mem_map, List.mem_flatMap]
    constructor
    · rintro ⟨⟨k, v⟩, hrow, rfl⟩
      have hget : s.get .tiles k = some v := Std.ExtTreeMap.mem_toList_iff_getElem?_eq_some.1 hrow
      obtain ⟨⟨t, id⟩, rfl⟩ := h.entryKeys hget
      obtain ⟨p, hp, ht, -⟩ := h.entry_iff.1 hget
      have htiles : t ∈ Placement.tilesOf (places id) := Placement.mem_tilesOf.2 ⟨p, hp, ht⟩
      exact ⟨id, hall id p hp, List.mem_map_of_mem (Std.ExtTreeSet.mem_toList.2 htiles)⟩
    · rintro ⟨id, -, hk⟩
      obtain ⟨t, ht, rfl⟩ := List.mem_map.1 hk
      obtain ⟨p, hp, htile⟩ := Placement.mem_tilesOf.1 (Std.ExtTreeSet.mem_toList.1 ht)
      exact ⟨(Membership.key ⟨t, id⟩, p.entry),
        Std.ExtTreeMap.mem_toList_iff_getElem?_eq_some.2 (h.entry_iff.2 ⟨p, hp, htile, rfl⟩), rfl⟩
  have hperm := (List.perm_ext_iff_of_nodup hrows (Membership.nodup_keys hnd)).2 hmem
  rw [← Std.ExtTreeMap.length_toList, ← List.length_map, hperm.length_eq, List.length_flatMap]
  simp only [List.length_map, Std.ExtTreeSet.length_toList]

/-! ## Reading a tile -/

/-- **A tile lists its own entries, by element,** as long as all entries are memberships. -/
theorem Contents.inTile {s : Contents} (hkeys : ∀ {k v}, s.get .tiles k = some v → ∃ m : Membership, k = m.key)
    (t : TilePosition) : ∃ found, Membership.inTile s.reader t = .ok found ∧
      (found.map (·.1)).Pairwise (fun a b => compare a b = .lt) ∧
      ∀ id v, (id, v) ∈ found ↔ s.get .tiles (Membership.key ⟨t, id⟩) = some v := by
  obtain ⟨found, hfound, hasc, hmem⟩ := (Columns.get s .tiles).scan_word (w := t.key) fun {k v} hk hr => by
    obtain ⟨⟨u, id⟩, rfl⟩ := hkeys hk
    obtain rfl := TilePosition.prefix_key_append_iff.1 hr
    exact ⟨id, rfl⟩
  refine ⟨found, ?_, hasc, hmem⟩
  change ((Columns.get s .tiles).scan (.beginningWith t.key)).mapM _ = _
  rw [hfound, mapM_map_ok (g := id) fun e _ => by rw [drop_word (by simp), Column.elementOf_key]; rfl, List.map_id]

/-- **A tile lists the elements that stand in it, ascending, and what it holds of each.** -/
theorem Placements.StoredIn.inTile {places : Placements} {s : Contents} (h : places.StoredIn s) (t : TilePosition) :
    ∃ found, Membership.inTile s.reader t = .ok found ∧ (found.map (·.1)).Pairwise (fun a b => compare a b = .lt) ∧
      ∀ id v, (id, v) ∈ found ↔ ∃ p, places id = some p ∧ t ∈ p.tiles ∧ v = p.entry := by
  obtain ⟨found, hfound, hasc, hmem⟩ := s.inTile h.entryKeys t
  exact ⟨found, hfound, hasc, fun id v => (hmem id v).trans h.entry_iff⟩

/-- What a tile shows of an element: what it holds, or what is kept outside where it holds a mark alone. -/
def Standing.feature (st : Standing) (t : TilePosition) : Option (Option Bytes) :=
  (st.entries t).map fun v => if v.isEmpty then st.outside else some v

theorem Contents.resolve_eq (s : Contents) (id : ElementId) (v : Bytes) :
    Membership.resolve s.reader id v = .ok (if v.isEmpty then (s.standing id).outside else some v) := by
  rw [Membership.resolve]
  split <;> rfl

/-- **What a tile holds of an element stands for its feature.** -/
theorem Placement.feature_entry {p : Placement} (hv : p.Valid) :
    (if p.entry.isEmpty then p.outside else some p.entry) = some p.payload := by
  rw [entry, outside]
  cases p.form with
  | inline => exact if_neg fun he => hv.payload_ne (List.isEmpty_iff.1 he)
  | reference => rfl

theorem Standing.ReadsAs.feature_eq_some {st : Standing} {p : Option Placement} (h : st.ReadsAs p)
    (hv : ∀ q, p = some q → q.Valid) {t : TilePosition} {o : Option Bytes} :
    st.feature t = some o ↔ ∃ q, p = some q ∧ t ∈ q.tiles ∧ o = some q.payload := by
  rw [feature, h.entries, h.outside]
  cases p with
  | none => simp
  | some q =>
    by_cases ht : t ∈ q.tiles
    · have hentry : ((some q).bind fun q => if t ∈ q.tiles then some q.entry else none) = some q.entry := if_pos ht
      have hfeature : (if q.entry.isEmpty then (some q).bind Placement.outside else some q.entry) = some q.payload :=
        Placement.feature_entry (hv q rfl)
      rw [hentry, Option.map_some, hfeature]
      simp [ht, eq_comm (a := o)]
    · simp [ht]

/-- An element is not shown in a tile that is not on its list. -/
theorem Standing.Agrees.feature_eq_none {st : Standing} {tiles : TileSet} (h : st.Agrees tiles) {t : TilePosition}
    (ht : t ∉ tiles) : st.feature t = none := by
  have hnone : st.entries t = none := Classical.byContradiction fun hne => ht ((h.entries t).1 hne)
  rw [feature, hnone, Option.map_none]

theorem Placements.StoredIn.resolve {places : Placements} {s : Contents} (h : places.StoredIn s) {id : ElementId}
    {p : Placement} (hp : places id = some p) (hv : p.Valid) :
    Membership.resolve s.reader id p.entry = .ok (some p.payload) := by
  have houtside : (s.standing id).outside = p.outside := by rw [h.standing, hp]; rfl
  rw [s.resolve_eq, houtside, Placement.feature_entry hv]

end TileAtlas
