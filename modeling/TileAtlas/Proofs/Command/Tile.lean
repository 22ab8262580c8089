import TileAtlas.Command
import TileAtlas.Proofs.Index.Tiles
import TileAtlas.Proofs.Store.Meaning
import TileAtlas.Proofs.Tile.Position
/-!
# Listing a tile

The tile that a column and a row name is listed by its rows.  A column and a row that are numbers of 32 bits name the
only tile that unpacks to them, so its memberships are listed and no others (`Command.tile_lists`).  Of larger numbers
the sign and the low 31 bits alone count (`Atlas.tileEntries_eq`), so they name a tile that lies elsewhere.
-/
namespace TileAtlas

/-! ## The rows of a tile -/

namespace Contents

/-- The rows under the tiles of a column and a row, in the order of their keys. -/
def tileRows (s : Contents) (x y : Int) : List Pair :=
  (Columns.get s .tiles).toList.filter fun p => (TilePosition.ofKey? p.1).any fun t => t.x = x && t.y = y

/-- What a listing tells of an element, from what the tile holds of it. -/
def tileEntry (s : Contents) (id : ElementId) (payload : Bytes) : TileEntry :=
  let feature := if payload.isEmpty then s.get .external id.key else some payload
  { id := id
    form := if payload.isEmpty then .reference else .inline
    length := feature.elim 0 List.length
    geometry := feature.bind fun bytes => (Feature.decode bytes).toOption.map (·.geometry) }

/-- What a listing tells of a row: the tile is followed by the element. -/
def rowEntry (s : Contents) (row : Pair) : Except IndexError TileEntry :=
  (Column.tiles.elementOf (row.1.drop 8)).map fun id => s.tileEntry id row.2

theorem ofMembership_eq (s : Contents) (id : ElementId) (payload : Bytes) :
    TileEntry.ofMembership s.reader id payload = .ok (s.tileEntry id payload) := by
  rw [TileEntry.ofMembership, s.resolve_eq]
  rfl

/-- The rows that begin with the key of a tile are those of its column and row. -/
theorem scan_tile (s : Contents) (t : TilePosition) :
    (Columns.get s .tiles).scan (.beginningWith t.key) = s.tileRows t.x t.y := by
  refine List.filter_congr fun p _ => ?_
  rw [Bool.eq_iff_iff, KeyRange.contains_beginningWith, Option.any_eq_true]
  constructor
  · rintro ⟨rest, hrest⟩
    exact ⟨t, by rw [← hrest, TilePosition.ofKey?_append], by simp⟩
  · -- the key names a tile, and there is only one in that column and row
    rintro ⟨u, hu, hcoords⟩
    rw [Bool.and_eq_true, decide_eq_true_eq, decide_eq_true_eq] at hcoords
    rw [TilePosition.eq_of_coords hcoords.1.symm hcoords.2.symm, TilePosition.key_of_ofKey? hu]
    exact List.take_prefix 8 p.1

theorem mapM_rowEntry (s : Contents) (t : TilePosition) :
    (s.tileRows t.x t.y).mapM s.rowEntry =
      (Membership.inTile s.reader t).map (List.map fun e => s.tileEntry e.1 e.2) := by
  have hread : Membership.inTile s.reader t =
      (s.tileRows t.x t.y).mapM fun p => (Column.tiles.elementOf (p.1.drop 8)).map fun id => (id, p.2) := by
    rw [← scan_tile]
    rfl
  have hrow : s.rowEntry = fun p => ((Column.tiles.elementOf (p.1.drop 8)).map fun id => (id, p.2)).map
      fun e => s.tileEntry e.1 e.2 := funext fun p => by
    rw [rowEntry]
    cases Column.tiles.elementOf (p.1.drop 8) <;> rfl
  rw [hread, map_mapM, hrow]

/-- A listing tells of the memberships of the tile in a column and a row, by element. -/
structure ListsTile (s : Contents) (x y : Int) (entries : List TileEntry) : Prop where
  ascending : (entries.map (·.id)).Pairwise fun a b => compare a b = .lt
  mem : ∀ e, e ∈ entries ↔ ∃ (m : Membership) (v : Bytes), s.get .tiles m.key = some v ∧ m.tile.x = x ∧
    m.tile.y = y ∧ e = s.tileEntry m.id v

/-- **Where all entries are memberships, those of a tile are told of by element.** -/
theorem exists_listsTile {s : Contents} (hkeys : ∀ {k v}, s.get .tiles k = some v → ∃ m : Membership, k = m.key)
    (t : TilePosition) :
    ∃ entries, (s.tileRows t.x t.y).mapM s.rowEntry = .ok entries ∧ s.ListsTile t.x t.y entries := by
  obtain ⟨found, hfound, hasc, hmem⟩ := s.inTile hkeys t
  refine ⟨found.map fun e => s.tileEntry e.1 e.2, by rw [mapM_rowEntry, hfound]; rfl, ?_, fun e => ?_⟩
  · rwa [List.map_map]
  · rw [List.mem_map]
    constructor
    · rintro ⟨⟨id, v⟩, hin, rfl⟩
      exact ⟨⟨t, id⟩, v, (hmem id v).1 hin, rfl, rfl, rfl⟩
    · rintro ⟨⟨u, id⟩, v, hget, hx, hy, rfl⟩
      obtain rfl := TilePosition.eq_of_coords hx hy
      exact ⟨(id, v), (hmem id v).2 hget, rfl⟩

/-- No row lies in a column or a row that does not fit. -/
theorem tileRows_eq_nil (s : Contents) {x y : Int}
    (h : ¬ ((-(2 ^ 31) ≤ x ∧ x < 2 ^ 31) ∧ -(2 ^ 31) ≤ y ∧ y < 2 ^ 31)) : s.tileRows x y = [] := by
  refine List.filter_eq_nil_iff.2 fun p _ hp => h ?_
  rw [Option.any_eq_true] at hp
  obtain ⟨t, -, ht⟩ := hp
  rw [Bool.and_eq_true, decide_eq_true_eq, decide_eq_true_eq] at ht
  obtain ⟨rfl, rfl⟩ := ht
  exact t.coords_fit

end Contents

/-- **Of a column and a row the sign and the low 31 bits count.** -/
theorem Atlas.tileEntries_eq (a : Atlas) (x y : Int) :
    a.tileEntries x y =
      (a.store.contents.tileRows (unzigzag (zigzag x)) (unzigzag (zigzag y))).mapM a.store.contents.rowEntry := by
  obtain ⟨hx, hy⟩ := TilePosition.coords_ofCoords x y
  -- telling of an element cannot fail, only reading its name can
  have hentries : ∀ found : List (ElementId × Bytes),
      found.mapM (fun e => TileEntry.ofMembership a.store.contents.reader e.1 e.2) =
        .ok (found.map fun e => a.store.contents.tileEntry e.1 e.2) := fun found =>
    mapM_eq_ok fun e _ => a.store.contents.ofMembership_eq e.1 e.2
  rw [tileEntries, a.store.reader_eq, funext hentries, ← hx, ← hy, Contents.mapM_rowEntry]
  exact bind_pure_comp _ _

/-! ## Commands step by step -/

namespace Run

variable {α β : Type} {m : Run α} {f : α → Run β} {d d' : Directory} {a : α}

theorem bind_ok (h : (ExceptT.run m).run d = (.ok a, d')) :
    (ExceptT.run (m >>= f)).run d = (ExceptT.run (f a)).run d' := by
  rw [ExceptT.run_bind, StateT.run_bind, h]
  rfl

theorem of_bind_ok {r : Except CommandError α} (h : r = .ok a) :
    (ExceptT.run (of r >>= f)).run d = (ExceptT.run (f a)).run d :=
  bind_ok (congrArg (·, d) h)

theorem directory_bind {g : Directory → Run β} :
    (ExceptT.run (directory >>= g)).run d = (ExceptT.run (g d)).run d := rfl

end Run

/-- A path leads to a file with a store in it. -/
structure Directory.HoldsStore (d : Directory) (path : String) (s : Contents) : Prop where
  isFile : d.isFile path = .ok true
  readable : ∃ content, d.entryAt path = some (.file content) ∧ StoreFile.decode? content = some s

namespace Command

variable {d : Directory} {l : CommandLine} {path : String} {s : Contents} {x y : Int}

theorem requireFile_ok (option : String) (h : d.isFile path = .ok true) :
    (ExceptT.run (requireFile option path)).run d = (.ok (), d) := by
  rw [requireFile, Run.directory_bind, h]
  rfl

/-- A store that is there is opened, and written back as it is. -/
theorem openExisting_ok (h : d.HoldsStore path s) (config : IndexConfig) :
    (ExceptT.run (openExisting path config)).run d =
      (.ok ⟨.flat ⟨s, true⟩, config⟩, d.write path (StoreFile.encode s)) := by
  obtain ⟨hfile, content, hentry, hdecode⟩ := h
  rw [openExisting, Run.bind_ok (requireFile_ok "store" hfile), openStore, Run.directory_bind, hentry]
  simp only
  rw [hdecode]
  rfl

/-- **The tile command prints the rows of one tile,** the one that folding and unfolding its column and row leads to. -/
theorem tile_eq (hstore : l.options.text? "store" = some path) (hs : d.HoldsStore path s)
    (hx : l.options.number? "tile-x" = some x) (hy : l.options.number? "tile-y" = some y) :
    ((ExceptT.run (tile l)).run d).1 =
      (((s.tileRows (unzigzag (zigzag x)) (unzigzag (zigzag y))).mapM s.rowEntry).mapError .index).map
        fun entries => { output := .ofList Report.ofTileEntry entries } := by
  have htext : requiredText l "store" = .ok path := by rw [requiredText, hstore]; rfl
  have hcolumn : requiredNumber l "tile-x" = .ok x := by rw [requiredNumber, hx]; rfl
  have hrow : requiredNumber l "tile-y" = .ok y := by rw [requiredNumber, hy]; rfl
  have hentries : Atlas.tileEntries ⟨.flat ⟨s, true⟩, {}⟩ x y =
      (s.tileRows (unzigzag (zigzag x)) (unzigzag (zigzag y))).mapM s.rowEntry := Atlas.tileEntries_eq _ x y
  rw [tile, Run.of_bind_ok htext, Run.of_bind_ok hcolumn, Run.of_bind_ok hrow, Run.bind_ok (openExisting_ok hs {}),
    hentries]
  cases (s.tileRows (unzigzag (zigzag x)) (unzigzag (zigzag y))).mapM s.rowEntry <;> rfl

/-- **The tile command lists the memberships of the tile in a column and a row that fit,** in the order of elements: a
listing is made of the rows under the keys of that tile, and fails only if one of them names no element. -/
theorem tile_lists (hstore : l.options.text? "store" = some path) (hs : d.HoldsStore path s)
    (hx : l.options.number? "tile-x" = some x) (hy : l.options.number? "tile-y" = some y)
    (hxfits : -(2 ^ 31) ≤ x ∧ x < 2 ^ 31) (hyfits : -(2 ^ 31) ≤ y ∧ y < 2 ^ 31) :
    ((ExceptT.run (tile l)).run d).1 =
        (((s.tileRows x y).mapM s.rowEntry).mapError .index).map
          (fun entries => { output := .ofList Report.ofTileEntry entries }) ∧
      ((∀ {k v}, s.get .tiles k = some v → ∃ m : Membership, k = m.key) →
        ∃ entries, (s.tileRows x y).mapM s.rowEntry = .ok entries ∧ s.ListsTile x y entries) := by
  constructor
  · rw [tile_eq hstore hs hx hy, unzigzag_zigzag hxfits.1 hxfits.2, unzigzag_zigzag hyfits.1 hyfits.2]
  · intro hkeys
    have hlisted := Contents.exists_listsTile hkeys (.ofCoords x y)
    rwa [TilePosition.x_ofCoords hxfits.1 hxfits.2, TilePosition.y_ofCoords hyfits.1 hyfits.2] at hlisted

/-! ### A file with one entry -/

/-- The entry of a node in the tile in column 0 and row 0. -/
def originEntry : Membership := ⟨.ofCoords 0 0, ⟨1⟩⟩

def originStore : Contents := Contents.empty.put .tiles originEntry.key [1]

def originFile : Directory := Directory.write ∅ "x.db" (StoreFile.encode originStore)

theorem holdsStore_originFile : originFile.HoldsStore "x.db" originStore := by
  have hplace : Directory.placeOf "x.db" = ["x.db"] := by decide +kernel
  have hname : Directory.namesSomething "x.db" = true := by decide +kernel
  have hentry : originFile.entryAt "x.db" = some (.file (StoreFile.encode originStore)) := by
    rw [originFile, Directory.entryAt, Directory.write, hplace]
    simp
  have hrows : StoreFile.rows.read ((StoreFile.encode originStore).drop StoreFile.mark.length) =
      .ok ([(Column.tiles.number, originEntry.key, [1])], []) := by decide +kernel
  have hempty : (StoreFile.encode originStore).isEmpty = false := by decide +kernel
  have hmark : StoreFile.mark.isPrefixOf (StoreFile.encode originStore) = true := by decide +kernel
  constructor
  · rw [Directory.isFile, hname, hentry, hplace]
    simp [Directory.above]
  · refine ⟨_, hentry, ?_⟩
    rw [StoreFile.decode?, hempty, if_neg Bool.false_ne_true, hmark, if_pos rfl, hrows]
    rfl

def originLine (x y : Int) : CommandLine where
  command := .tile
  options := [("tile-y", .number y), ("tile-x", .number x), ("store", .text "x.db")]
  logFilter := none

/-- The line asks for the tile in column 0 and row 0, which has one entry. -/
theorem tile_lists_origin :
    ((ExceptT.run (tile (originLine 0 0))).run originFile).1 =
        .ok { output := .ofList Report.ofTileEntry [originStore.tileEntry originEntry.id [1]] } ∧
      ∃ entries, (originStore.tileRows 0 0).mapM originStore.rowEntry = .ok entries ∧
        originStore.ListsTile 0 0 entries := by
  have hrows : originStore.tileRows 0 0 = [(originEntry.key, [1])] := by decide +kernel
  have hkeys : ∀ {k v}, originStore.get .tiles k = some v → ∃ m : Membership, k = m.key := by
    intro k v hk
    rw [originStore, Contents.get_put, Contents.get_empty] at hk
    split at hk
    · rename_i hkey
      exact ⟨originEntry, hkey.2⟩
    · cases hk
  obtain ⟨hprints, hlists⟩ :=
    tile_lists (l := originLine 0 0) rfl holdsStore_originFile rfl rfl (by decide) (by decide)
  refine ⟨hprints.trans ?_, hlists hkeys⟩
  rw [hrows]
  rfl

/-- The line asks for column 4294967296, where no tile lies, and gets the entry of the tile in column 0. -/
theorem tile_lists_elsewhere :
    CommandLine.parse? ["tile", "--store", "x.db", "--tile-x", "4294967296", "--tile-y", "0"] =
        some (originLine 4294967296 0) ∧
      originStore.tileRows 4294967296 0 = [] ∧
      ((ExceptT.run (tile (originLine 4294967296 0))).run originFile).1 =
        .ok { output := .ofList Report.ofTileEntry [originStore.tileEntry originEntry.id [1]] } := by
  have hrows : originStore.tileRows (unzigzag (zigzag 4294967296)) (unzigzag (zigzag 0)) =
      [(originEntry.key, [1])] := by decide +kernel
  refine ⟨by decide +kernel, originStore.tileRows_eq_nil (by decide),
    (tile_eq rfl holdsStore_originFile rfl rfl).trans ?_⟩
  rw [hrows]
  rfl

end Command
end TileAtlas
