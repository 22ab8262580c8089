import TileAtlas.Proofs.Runs.Basic
/-!
# Tiles as a map

What tiles hold is changed by three calls: to put an element into tiles, to take one out of tiles, and to clear a
tile.  Seen from outside this is a map of maps (`TileMap`), though it is one column of keys, where a tile is the range
of keys that begin with it.  A read, a cleared range and a single key cut that column at the same places, so that no
call reaches into another tile, not even the last one, whose range has no end (`Store.deliver_tells`).
-/
namespace TileAtlas

/-- A call that changes what tiles hold. -/
inductive TileCall where
  | add (tiles : List TilePosition) (id : ElementId) (payload : Bytes)
  | remove (tiles : List TilePosition) (id : ElementId)
  | clear (t : TilePosition)

namespace TileCall

def ops : TileCall → List Op
  | add tiles id payload => Membership.add tiles id payload
  | remove tiles id => Membership.remove tiles id
  | clear t => Membership.removeAll t

/-- The tiles that a call names. -/
def tiles : TileCall → List TilePosition
  | add tiles _ _ => tiles
  | remove tiles _ => tiles
  | clear t => [t]

theorem marks : ∀ c : TileCall, DirtyTiles.Marks c.ops (· ∈ c.tiles)
  | add tiles id payload => .assign id (some payload) tiles
  | remove tiles id => .assign id none tiles
  | clear t =>
    have hrange : DirtyTiles.Marks [.deleteRange .tiles (.beginningWith t.key)] fun _ => False :=
      .silent (by simp [Op.column])
    (hrange.append (.mark t)).congr fun u => by simp [tiles]

end TileCall

/-- What each tile holds of each element. -/
abbrev TileMap := TilePosition → ElementId → Option Bytes

namespace TileMap

def empty : TileMap := fun _ _ => none

/-- Set or take out what some tiles hold of an element. -/
def assign (m : TileMap) (tiles : List TilePosition) (id : ElementId) (o : Option Bytes) : TileMap :=
  fun t x => if t ∈ tiles ∧ x = id then o else m t x

def call (m : TileMap) : TileCall → TileMap
  | .add tiles id payload => m.assign tiles id (some payload)
  | .remove tiles id => m.assign tiles id none
  | .clear u => fun t id => if t = u then none else m t id

/-- The map that some calls lead to. -/
def after (calls : List TileCall) : TileMap := calls.foldl call empty

/-- The column of tiles holds exactly this map. -/
structure StoredIn (m : TileMap) (s : Contents) : Prop where
  entry : ∀ t id, s.get .tiles (Membership.key ⟨t, id⟩) = m t id
  keys : ∀ {k v}, s.get .tiles k = some v → ∃ e : Membership, k = e.key

variable {m : TileMap} {s s' : Contents}

/-! ## One call -/

theorem StoredIn.assign (h : m.StoredIn s) (tiles : List TilePosition) (id : ElementId) (o : Option Bytes) :
    ∃ s', s.apply (Membership.assign tiles id o) = .ok s' ∧ (m.assign tiles id o).StoredIn s' := by
  obtain ⟨s', hs'⟩ := Contents.apply_assign_entries id o tiles s
  refine ⟨s', hs'.apply, fun t x => ?_, fun hk => ?_⟩
  · change (s'.standing x).entries t = _
    by_cases hx : x = id
    · subst hx
      rw [hs'.standing]
      simp only [TileMap.assign, and_true, ← h.entry]
      rfl
    · rw [hs'.others x hx, TileMap.assign, if_neg fun hc => hx hc.2]
      exact h.entry t x
  · rcases Contents.exists_of_apply hs'.apply hk with ⟨op, hop, hf⟩ | ⟨w, hw⟩
    · exact (Placement.places_assign tiles id o op hop).entryKeys hf
    · exact h.keys hw

/-- The keys of a tile are those of its memberships. -/
theorem contains_tile {t u : TilePosition} {id : ElementId} :
    (KeyRange.beginningWith u.key).contains (Membership.key ⟨t, id⟩) = true ↔ t = u := by
  rw [KeyRange.contains_beginningWith, Membership.key, TilePosition.prefix_key_append_iff, eq_comm]

theorem StoredIn.clear (h : m.StoredIn s) (u : TilePosition) :
    ∃ s', s.apply (Membership.removeAll u) = .ok s' ∧ (m.call (.clear u)).StoredIn s' := by
  let cleared : Contents := s.modify .tiles (·.deleteRange (.beginningWith u.key))
  have hget : ∀ k, (cleared.put .dirtyTiles u.key []).get .tiles k =
      if (KeyRange.beginningWith u.key).contains k = true then none else s.get .tiles k := fun k => by
    rw [Contents.get_put, if_neg nofun, Contents.get_deleteRange]
    simp
  refine ⟨cleared.put .dirtyTiles u.key [], rfl, fun t id => ?_, fun {k v} hk => ?_⟩
  · rw [hget]
    change _ = if t = u then none else m t id
    by_cases ht : t = u
    · rw [if_pos (contains_tile.2 ht), if_pos ht]
    · rw [if_neg fun hc => ht (contains_tile.1 hc), if_neg ht, h.entry]
  · rw [hget] at hk
    split at hk
    · cases hk
    · exact h.keys hk

/-- **A call does to the column what it does to the map.** -/
theorem StoredIn.call (h : m.StoredIn s) : ∀ c : TileCall, ∃ s', s.apply c.ops = .ok s' ∧ (m.call c).StoredIn s'
  | .add tiles id payload => h.assign tiles id (some payload)
  | .remove tiles id => h.assign tiles id none
  | .clear u => h.clear u

end TileMap

/-! ## Several calls -/

/-- Some contents hold the map that the calls lead to, and the flags of the tiles that they name. -/
structure Contents.Follows (s : Contents) (calls : List TileCall) : Prop where
  map : (TileMap.after calls).StoredIn s
  flags : ∃ flags : TileSet, DirtyTiles.StoredIn flags s ∧ ∀ t, t ∈ flags ↔ ∃ c ∈ calls, t ∈ c.tiles

namespace Contents.Follows

variable {s : Contents} {calls : List TileCall}

theorem empty : Contents.empty.Follows [] where
  map := ⟨fun _ _ => get_empty .., fun hk => by rw [get_empty] at hk; cases hk⟩
  flags := ⟨∅, DirtyTiles.storedIn_empty fun _ => get_empty .., fun t => by simp⟩

theorem call (h : s.Follows calls) (c : TileCall) : ∃ s', s.apply c.ops = .ok s' ∧ s'.Follows (calls ++ [c]) := by
  obtain ⟨s', hs', hmap⟩ := h.map.call c
  obtain ⟨flags, hflags, hmem⟩ := h.flags
  have hnew : DirtyTiles.Flagged (· ∈ (.ofList c.tiles : TileSet)) s s' := (c.marks.flagged hs').congr fun t => by
    rw [Std.ExtTreeSet.mem_ofList, List.contains_iff_mem]
  refine ⟨s', hs', ?_, flags ∪ .ofList c.tiles, hflags.flagged hnew, fun t => ?_⟩
  · rwa [TileMap.after, List.foldl_append]
  · rw [Std.ExtTreeSet.mem_union_iff, hmem, Std.ExtTreeSet.mem_ofList, List.contains_iff_mem]
    simp [or_and_right, exists_or]

theorem callAll : ∀ (more : List TileCall) {s : Contents} {calls : List TileCall}, s.Follows calls →
    ∃ s', s.apply (more.flatMap TileCall.ops) = .ok s' ∧ s'.Follows (calls ++ more)
  | [], s, calls, h => ⟨s, rfl, by rwa [List.append_nil]⟩
  | c :: more, s, calls, h => by
    obtain ⟨s₁, hs₁, h₁⟩ := h.call c
    obtain ⟨s', hs', h'⟩ := callAll more h₁
    refine ⟨s', ?_, by rwa [List.append_assoc] at h'⟩
    rw [List.flatMap_cons, apply_append hs₁, hs']

end Contents.Follows

/-! ## Reading -/

/-- A reader tells the map that some calls lead to: each tile lists what the map holds for it, by element, and the
flagged tiles are those that a call names. -/
structure Reader.TellsTiles (r : Reader) (calls : List TileCall) : Prop where
  inTile : ∀ t, ∃ found, Membership.inTile r t = .ok found ∧
    (found.map (·.1)).Pairwise (fun a b => compare a b = .lt) ∧
    ∀ id v, (id, v) ∈ found ↔ TileMap.after calls t id = some v
  isFlagged : ∀ t, ∃ b, DirtyTiles.contains r t = .ok b ∧ (b = true ↔ ∃ c ∈ calls, t ∈ c.tiles)
  flagged : ∃ flags, DirtyTiles.list r = .ok flags ∧ flags.Pairwise (fun a b => compare a b = .lt) ∧
    ∀ t, t ∈ flags ↔ ∃ c ∈ calls, t ∈ c.tiles

theorem Contents.Follows.tells {s : Contents} {calls : List TileCall} (h : s.Follows calls) :
    s.reader.TellsTiles calls := by
  obtain ⟨flags, hflags, hmem⟩ := h.flags
  constructor
  · intro t
    obtain ⟨found, hfound, hasc, hentries⟩ := s.inTile h.map.keys t
    exact ⟨found, hfound, hasc, fun id v => by rw [hentries, h.map.entry]⟩
  · intro t
    refine ⟨_, rfl, ?_⟩
    rw [hflags.get, ← hmem]
    split <;> simp_all
  · exact ⟨flags.toList, hflags.list, Std.ExtTreeSet.ordered_toList, fun t => Std.ExtTreeSet.mem_toList.trans (hmem t)⟩

/-! ## How calls reach a store -/

/-- Calls that reach a store together. -/
inductive Delivery where
  | batch (calls : List TileCall)
  | transaction (calls : List TileCall)

namespace Delivery

def calls : Delivery → List TileCall
  | batch calls => calls
  | transaction calls => calls

end Delivery

namespace Store

/-- A transaction on a store, with some calls made in it. -/
def opened (s : Store) (calls : List TileCall) : Except StoreError Transaction :=
  (Transaction.begin s.reader).recordAll (calls.flatMap TileCall.ops)

def deliver (s : Store) : Delivery → Except StoreError Store
  | .batch calls => s.write (calls.flatMap TileCall.ops)
  | .transaction calls => do s.commit (← s.opened calls)

variable {s : Store} {calls : List TileCall}

theorem opened_tells (h : s.contents.Follows calls) (more : List TileCall) :
    ∃ t s', s.opened more = .ok t ∧ t.Over s.contents s' ∧ s'.Follows (calls ++ more) := by
  obtain ⟨s', hs', h'⟩ := h.callAll more
  obtain ⟨t, ht, hover⟩ := Transaction.Over.recordAll (.begin s.contents) hs'
  rw [← s.reader_eq] at ht
  exact ⟨t, s', ht, hover, h'⟩

theorem deliver_one (h : s.contents.Follows calls) (d : Delivery) :
    ∃ s', s.deliver d = .ok s' ∧ s'.contents.Follows (calls ++ d.calls) := by
  cases d with
  | batch more =>
    obtain ⟨c, hc, h'⟩ := h.callAll more
    obtain ⟨s', hs', rfl⟩ := write_of_contents hc
    exact ⟨s', hs', h'⟩
  | transaction more =>
    obtain ⟨t, c, ht, hover, h'⟩ := opened_tells h more
    obtain ⟨s', hs', rfl⟩ := commit_over hover
    refine ⟨s', ?_, h'⟩
    rw [deliver, ht]
    exact hs'

theorem deliver_all : ∀ (deliveries : List Delivery) {s : Store} {calls : List TileCall}, s.contents.Follows calls →
    ∃ s', deliveries.foldlM deliver s = .ok s' ∧ s'.contents.Follows (calls ++ deliveries.flatMap Delivery.calls)
  | [], s, calls, h => ⟨s, rfl, by rwa [List.flatMap_nil, List.append_nil]⟩
  | d :: deliveries, s, calls, h => by
    obtain ⟨s₁, hs₁, h₁⟩ := deliver_one h d
    obtain ⟨s', hs', h'⟩ := deliver_all deliveries h₁
    refine ⟨s', ?_, by rwa [List.append_assoc] at h'⟩
    rw [List.foldlM_cons, hs₁]
    exact hs'

/-- **Tiles behave as a map of maps.**  Whatever calls reach a store, in batches or in transactions, each tile lists
exactly what the map holds for it, and the tiles that a call names are flagged; and so does a transaction that is
still open, with the calls made in it. -/
theorem deliver_tells (start : EmptyStore) (deliveries : List Delivery) (pending : List TileCall) :
    ∃ s t, deliveries.foldlM deliver start.store = .ok s ∧ s.opened pending = .ok t ∧
      s.reader.TellsTiles (deliveries.flatMap Delivery.calls) ∧
      t.reader.TellsTiles (deliveries.flatMap Delivery.calls ++ pending) := by
  have hstart : start.store.contents.Follows [] := by
    rw [start.contents_eq]
    exact .empty
  obtain ⟨s, hs, h⟩ := deliver_all deliveries hstart
  obtain ⟨t, s', ht, hover, h'⟩ := opened_tells h pending
  refine ⟨s, t, hs, ht, ?_, ?_⟩
  · rw [s.reader_eq]
    exact h.tells
  · rw [hover.reader]
    exact h'.tells

/-- The last tile has no tile after it: its range of keys has no end. -/
example : (EmptyStore.segmented.store.deliver (.batch
      [.add [⟨0xFFFFFFFFFFFFFFFF⟩, ⟨0xFFFFFFFFFFFFFFFE⟩] ⟨1⟩ [7], .clear ⟨0xFFFFFFFFFFFFFFFF⟩])).toOption.map (fun s =>
        (Membership.inTile s.reader ⟨0xFFFFFFFFFFFFFFFF⟩, Membership.inTile s.reader ⟨0xFFFFFFFFFFFFFFFE⟩)) =
    some (.ok [], .ok [(⟨1⟩, [7])]) := by cbv

end Store
end TileAtlas
