import Mathlib.Data.List.Nodup
import Mathlib.Data.List.Perm.Basic
import TileAtlas.Proofs.Tile.Descent
/-!
# What a block lists

Cutting a block in two, by a column or by a row, cuts the list of its tiles in two, up to order for a column; two cuts
make the quadrants (`TileBlock.perm_quadrants`).  Within the numbers of 32 bits no two columns and rows share a
position, so a block lists as many tiles as it has, and each of them once.  The block that covers some bounds has the
tile of every point within them, and this tile owns the point (`TileBlock.tiles_exact`).
-/
namespace TileAtlas

namespace TileBlock

variable {b q : TileBlock} {base m n : Int}

/-! ## Columns and rows -/

theorem length_span (base size : Int) : (span base size).length = size.toNat := by
  rw [span, List.length_map, List.length_range]

theorem nodup_span (base size : Int) : (span base size).Nodup := by
  refine List.Nodup.map (fun i j h => ?_) List.nodup_range
  simp only [Int.ofNat_eq_natCast] at h
  omega

theorem span_cut (hm : 0 ≤ m) (hmn : m ≤ n) : span base n = span base m ++ span (base + m) (n - m) := by
  have hn : n.toNat = m.toNat + (n - m).toNat := by omega
  rw [span, span, span, hn, List.range_add, List.map_append, List.map_map]
  refine congrArg _ (List.map_congr_left fun i _ => ?_)
  simp only [Function.comp_apply, Int.ofNat_eq_natCast]
  omega

theorem span_eq_nil (h : m ≤ 0) : span base m = [] := by
  rw [span, Int.toNat_of_nonpos h]
  rfl

/-! ## Cuts -/

theorem length_coords (b : TileBlock) : b.coords.length = b.volume := by
  rw [coords, List.length_flatMap, volume]
  simp only [List.length_map, length_span, List.map_const', List.sum_replicate_nat]
  rw [Nat.mul_comm]

theorem nodup_coords (b : TileBlock) : b.coords.Nodup := by
  rw [coords, List.nodup_flatMap]
  refine ⟨fun y _ => (nodup_span _ _).map fun x x' h => (Prod.mk.inj h).1, ?_⟩
  refine (nodup_span _ _).imp fun {y y'} hne => ?_
  intro c hc hc'
  obtain ⟨x, -, rfl⟩ := List.mem_map.1 hc
  obtain ⟨x', -, heq⟩ := List.mem_map.1 hc'
  exact hne (Prod.mk.inj heq).2.symm

theorem coords_eq_nil (h : b.IsEmpty) : b.coords = [] := by
  rw [coords]
  rcases h with h | h
  · simp [span_eq_nil h]
  · simp [span_eq_nil h]

/-- A block is the part below a row and the part from it on. -/
theorem coords_cut_rows (x y w : Int) (hm : 0 ≤ m) (hmn : m ≤ n) :
    coords ⟨x, y, w, n⟩ = coords ⟨x, y, w, m⟩ ++ coords ⟨x, y + m, w, n - m⟩ := by
  simp only [coords]
  rw [span_cut hm hmn, List.flatMap_append]

/-- A block is the part left of a column and the part from it on. -/
theorem coords_cut_columns (x y h : Int) (hm : 0 ≤ m) (hmn : m ≤ n) :
    (coords ⟨x, y, m, h⟩ ++ coords ⟨x + m, y, n - m, h⟩).Perm (coords ⟨x, y, n, h⟩) := by
  simp only [coords]
  simp only [span_cut hm hmn, List.map_append]
  exact List.flatMap_append_perm _ _ _

/-- **The quadrants share the columns and rows of a block out.** -/
theorem perm_quadrants (hb : ¬ b.IsEmpty) : (b.quadrants.flatMap coords).Perm b.coords := by
  obtain ⟨hx, hy⟩ := not_isEmpty_iff.1 hb
  have hx2 : b.sizeX.tdiv 2 = b.sizeX / 2 := Int.tdiv_eq_ediv_of_nonneg (by omega)
  have hy2 : b.sizeY.tdiv 2 = b.sizeY / 2 := Int.tdiv_eq_ediv_of_nonneg (by omega)
  -- a cut by a row, and then one of either part by the same column
  have hrows : b.coords = _ := coords_cut_rows b.baseX b.baseY b.sizeX (m := b.sizeY - b.sizeY.tdiv 2) (n := b.sizeY)
    (by omega) (by omega)
  have hcolumns := fun y h => coords_cut_columns b.baseX y h (m := b.sizeX - b.sizeX.tdiv 2) (n := b.sizeX)
    (by omega) (by omega)
  rw [hrows, quadrants]
  simp only [List.flatMap_cons, List.flatMap_nil, List.append_nil]
  rw [← List.append_assoc]
  exact (hcolumns _ _).append (hcolumns _ _)

/-! ## Positions -/

/-- A block whose columns and rows are numbers of 32 bits, so that each of its tiles has a position. -/
structure IsPackable (b : TileBlock) : Prop where
  lowX : -(2 ^ 31) ≤ b.baseX
  highX : b.baseX + b.sizeX ≤ 2 ^ 31
  lowY : -(2 ^ 31) ≤ b.baseY
  highY : b.baseY + b.sizeY ≤ 2 ^ 31

theorem IsNear.isPackable (h : b.IsNear) : b.IsPackable := by
  obtain ⟨h1, h2, h3, h4⟩ := h
  constructor <;> omega

theorem length_tiles_volume (b : TileBlock) : b.tiles.length = b.volume := by
  rw [tiles, List.length_map, length_coords]

theorem length_tiles (hb : ¬ b.IsEmpty) : (b.tiles.length : Int) = b.sizeX * b.sizeY := by
  obtain ⟨hx, hy⟩ := not_isEmpty_iff.1 hb
  rw [length_tiles_volume, volume, Int.natCast_mul, Int.toNat_of_nonneg (by omega), Int.toNat_of_nonneg (by omega)]

/-- The columns and rows of a packable block are read back. -/
theorem IsPackable.coords_ofCoords (h : b.IsPackable) {x y : Int} (hc : (x, y) ∈ b.coords) :
    (TilePosition.ofCoords x y).x = x ∧ (TilePosition.ofCoords x y).y = y := by
  obtain ⟨h1, h2, h3, h4⟩ := h
  rw [mem_coords] at hc
  exact ⟨TilePosition.x_ofCoords (by omega) (by omega) y, TilePosition.y_ofCoords (by omega) (by omega) x⟩

/-- **No two tiles of a packable block share a position.** -/
theorem IsPackable.nodup_tiles (h : b.IsPackable) : b.tiles.Nodup := by
  refine b.nodup_coords.map_on fun c hc c' hc' heq => ?_
  obtain ⟨x, y⟩ := c
  obtain ⟨x', y'⟩ := c'
  obtain ⟨hx, hy⟩ := h.coords_ofCoords hc
  obtain ⟨hx', hy'⟩ := h.coords_ofCoords hc'
  have hsameX := congrArg TilePosition.x heq
  have hsameY := congrArg TilePosition.y heq
  exact Prod.ext (hx.symm.trans (hsameX.trans hx')) (hy.symm.trans (hsameY.trans hy'))

theorem tiles_eq_nil (h : b.IsEmpty) : b.tiles = [] := by
  rw [tiles, coords_eq_nil h, List.map_nil]

theorem flatMap_filter_of_nil {α β : Type} {f : α → List β} {p : α → Bool} (h : ∀ a, p a = false → f a = []) :
    ∀ l : List α, (l.filter p).flatMap f = l.flatMap f
  | [] => rfl
  | a :: l => by
    rw [List.filter_cons, List.flatMap_cons]
    cases hp : p a with
    | false => rw [if_neg Bool.false_ne_true, flatMap_filter_of_nil h l, h a hp, List.nil_append]
    | true => rw [if_pos rfl, List.flatMap_cons, flatMap_filter_of_nil h l]

/-- **The quadrants that are not empty share the tiles of a block out.** -/
theorem perm_tiles_quadrants (hb : ¬ b.IsEmpty) :
    ((b.quadrants.filter fun q => ¬ q.IsEmpty).flatMap tiles).Perm b.tiles := by
  rw [flatMap_filter_of_nil fun q hq => tiles_eq_nil (by simpa using hq)]
  have hmap : b.quadrants.flatMap tiles = (b.quadrants.flatMap coords).map fun c => .ofCoords c.1 c.2 := by
    rw [List.map_flatMap]
    rfl
  rw [hmap]
  exact (perm_quadrants hb).map _

/-- **A quadrant has fewer tiles than a block of several.** -/
theorem length_tiles_lt (hb : ¬ b.IsEmpty) (hmany : 1 < b.tiles.length) (hq : q ∈ b.quadrants) :
    q.tiles.length < b.tiles.length := by
  have hcount : b.tileCount = b.tiles.length := (length_tiles hb).symm
  rw [length_tiles_volume, length_tiles_volume]
  exact volume_lt_of_mem_quadrants hb (by omega) hq

end TileBlock

/-! ## Blocks that cover bounds -/

/-- A rectangle owns a point within it or on its lower edges. -/
def Rect.Owns (r : Rect) (p : Point) : Prop :=
  (r.minX ≤ p.x.toInt ∧ p.x.toInt < r.maxX) ∧ r.minY ≤ p.y.toInt ∧ p.y.toInt < r.maxY

/-- **The tile of a point owns it.** -/
theorem TileLevel.owns_tileOf (level : TileLevel) (p : Point) :
    (level.blockRect (.single (level.tileOf p).x (level.tileOf p).y)).Owns p := by
  obtain ⟨hx, -, hy, -⟩ := Bounds.fitsWords_ofPoint p
  obtain ⟨hx1, hx2⟩ := level.near_tileCoord hx.1 hx.2
  obtain ⟨hy1, hy2⟩ := level.near_tileCoord hy.1 hy.2
  simp only [Bounds.ofPoint] at hx1 hx2 hy1 hy2
  rw [tileOf, TilePosition.x_ofCoords (by omega) (by omega), TilePosition.y_ofCoords (by omega) (by omega),
    level.blockRect_eq (TileBlock.not_isEmpty_single _ _)]
  exact ⟨level.tileCoord_spec _, level.tileCoord_spec _⟩

namespace TileBlock

variable {bounds : Bounds}

/-- **A block that covers some bounds has the tiles of the points within them.** -/
theorem tileOf_mem_covering (level : TileLevel) {p : Point} (h : bounds.contains p) :
    level.tileOf p ∈ (covering level bounds).tiles := by
  obtain ⟨hx1, hx2, hy1, hy2⟩ := h
  have hx1 := level.tileCoord_mono hx1
  have hx2 := level.tileCoord_mono hx2
  have hy1 := level.tileCoord_mono hy1
  have hy2 := level.tileCoord_mono hy2
  refine List.mem_map.2 ⟨(level.tileCoord p.x.toInt, level.tileCoord p.y.toInt), mem_coords.2 ?_, rfl⟩
  simp only [covering]
  omega

/-- **What blocks list.**  A block of columns and rows of 32 bits lists its tiles, each once; its quadrants that are
not empty share them out, and have fewer of them where there are several.  The block that covers some bounds, on every
level, is such a block and lists the tile of every point within them, which owns the point. -/
theorem tiles_exact :
    (∀ b : TileBlock, ¬ b.IsEmpty → b.IsPackable →
      (b.tiles.length : Int) = b.sizeX * b.sizeY ∧ b.tiles.Nodup ∧
      ((b.quadrants.filter fun q => ¬ q.IsEmpty).flatMap tiles).Perm b.tiles ∧
      (1 < b.tiles.length → ∀ q ∈ b.quadrants, q.tiles.length < b.tiles.length)) ∧
    ∀ (level : TileLevel) (bounds : Bounds), bounds.FitsWords → bounds.minX ≤ bounds.maxX → bounds.minY ≤ bounds.maxY →
      ¬ (covering level bounds).IsEmpty ∧ (covering level bounds).IsPackable ∧
      ∀ p : Point, bounds.contains p → level.tileOf p ∈ (covering level bounds).tiles ∧
        (level.blockRect (.single (level.tileOf p).x (level.tileOf p).y)).Owns p := by
  refine ⟨fun b hb h => ?_, fun level bounds hwords hx hy => ?_⟩
  · exact ⟨length_tiles hb, h.nodup_tiles, perm_tiles_quadrants hb, fun hmany q hq => length_tiles_lt hb hmany hq⟩
  · exact ⟨not_isEmpty_covering level hx hy, (hwords.isNear_covering level).isPackable,
      fun p hp => ⟨tileOf_mem_covering level hp, level.owns_tileOf p⟩⟩

/-- A row of five tiles across the middle, whose upper quadrants are empty, and bounds on both sides of the middle
with a point on an edge of its tile. -/
theorem tiles_exact_across :
    ((¬ IsEmpty ⟨-2, 4, 5, 1⟩ ∧ IsPackable ⟨-2, 4, 5, 1⟩ ∧ 1 < (tiles ⟨-2, 4, 5, 1⟩).length) ∧
      (tiles ⟨-2, 4, 5, 1⟩).Nodup ∧ (tiles ⟨-2, 4, 3, 1⟩).length < (tiles ⟨-2, 4, 5, 1⟩).length) ∧
    (Bounds.FitsWords ⟨-156250, -1, 156249, 0⟩ ∧ Bounds.contains ⟨-156250, -1, 156249, 0⟩ ⟨-156250, 0⟩) ∧
      (covering .finest ⟨-156250, -1, 156249, 0⟩).tiles.length = 4 ∧
      TileLevel.finest.tileOf ⟨-156250, 0⟩ ∈ (covering .finest ⟨-156250, -1, 156249, 0⟩).tiles := by
  have hb : ¬ IsEmpty ⟨-2, 4, 5, 1⟩ := by decide
  have hpack : IsPackable ⟨-2, 4, 5, 1⟩ := by constructor <;> decide
  obtain ⟨hlen, hnodup, -, hfewer⟩ := tiles_exact.1 ⟨-2, 4, 5, 1⟩ hb hpack
  have hmany : 1 < (tiles ⟨-2, 4, 5, 1⟩).length := by simp only at hlen; omega
  have hwords : Bounds.FitsWords ⟨-156250, -1, 156249, 0⟩ := by constructor <;> decide
  have hp : Bounds.contains ⟨-156250, -1, 156249, 0⟩ ⟨-156250, 0⟩ := by unfold Bounds.contains; decide
  have hcovers := (tiles_exact.2 .finest ⟨-156250, -1, 156249, 0⟩ hwords (by decide) (by decide)).2.2 ⟨-156250, 0⟩ hp
  exact ⟨⟨⟨hb, hpack, hmany⟩, hnodup, hfewer hmany _ (by decide)⟩, ⟨hwords, hp⟩,
    (length_tiles_volume _).trans (by decide), hcovers.1⟩

end TileBlock
end TileAtlas
