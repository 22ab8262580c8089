import Mathlib.Algebra.Group.Int.Defs
import TileAtlas.Proofs.Bytes
import TileAtlas.Tile.Cover
import TileAtlas.Update.Closure
/-!
# A geometry has fewer tiles than can be counted

A tile is at least two units wide, so the columns and rows that hold a coordinate need one bit less than
the coordinate does (`TileLevel.near_tileCoord`).  A cover looks at no other columns and rows, and the
numbers of tiles that it can find leave some of the sixty-four bits' numbers out
(`Geometry.tileSet_size_lt`).
-/
namespace TileAtlas

/-! ## Columns and rows near the middle -/

/-- A column or row that a coordinate of 32 bits may lie in. -/
def Near (n : Int) : Prop := -(2 ^ 30) ≤ n ∧ n < 2 ^ 30

theorem TileLevel.two_le_tileSize (level : TileLevel) : 2 ≤ level.tileSize := by
  have : 0 < 1 <<< level.val := by
    rw [Nat.shiftLeft_eq, Nat.one_mul]
    exact Nat.two_pow_pos _
  unfold tileSize Point.unitsPerDegree tilesPerDegree
  omega

theorem TileLevel.near_tileCoord (level : TileLevel) {c : Int} (hlo : -(2 ^ 31) ≤ c) (hhi : c < 2 ^ 31) :
    Near (level.tileCoord c) := by
  have hsize := level.two_le_tileSize
  obtain ⟨h1, h2⟩ := level.tileCoord_spec c
  constructor
  · refine Int.not_lt.1 fun hlt => ?_
    have hle : (-level.tileCoord c - 1) * 2 ≤ (-level.tileCoord c - 1) * level.tileSize :=
      Int.mul_le_mul_of_nonneg_left hsize (by omega)
    have hneg : (-level.tileCoord c - 1) * level.tileSize = -((level.tileCoord c + 1) * level.tileSize) := by
      rw [← Int.neg_mul]; congr 1; omega
    omega
  · refine Int.not_le.1 fun hle => ?_
    have : level.tileCoord c * 2 ≤ level.tileCoord c * level.tileSize :=
      Int.mul_le_mul_of_nonneg_left hsize (by omega)
    omega

/-- The tile of a column and a row that coordinates may lie in. -/
def TilePosition.IsNear (t : TilePosition) : Prop := ∃ x y, Near x ∧ Near y ∧ t = .ofCoords x y

theorem spreadBits_lt : ∀ (k j v : Nat), v < 2 ^ j → spreadBits k v < 4 ^ j
  | 0, j, _, _ => Nat.pow_pos (by decide)
  | k + 1, 0, v, h => by
    have hv : v = 0 := by simpa using h
    have := spreadBits_lt k 0 0 (by decide)
    rw [hv, spreadBits]
    simp only [Nat.zero_mod, Nat.zero_div] at *
    omega
  | k + 1, j + 1, v, h => by
    have := spreadBits_lt k j (v / 2) (by rw [Nat.pow_succ] at h; omega)
    rw [spreadBits, Nat.pow_succ]
    omega

theorem zigzag_lt {n : Int} (h : Near n) : zigzag n < 2 ^ 31 := by
  obtain ⟨hlo, hhi⟩ := h
  have hsize : (UInt32.size : Int) = 2 ^ 32 := rfl
  unfold zigzag
  split <;> rw [hsize] <;> omega

/-- The numbers of such tiles stay below three quarters of all numbers. -/
theorem TilePosition.IsNear.raw_lt {t : TilePosition} (h : t.IsNear) : t.raw.toNat < 3 * 2 ^ 62 := by
  obtain ⟨x, y, hx, hy, rfl⟩ := h
  have hsx := spreadBits_lt 32 31 _ (zigzag_lt hx)
  have hsy := spreadBits_lt 32 31 _ (zigzag_lt hy)
  rw [ofCoords, UInt64.toNat_ofNat']
  omega

/-! ## Blocks of such tiles -/

/-- A block whose tiles all lie near. -/
structure TileBlock.IsNear (b : TileBlock) : Prop where
  lowX : -(2 ^ 30) ≤ b.baseX
  highX : b.baseX + b.sizeX ≤ 2 ^ 30
  lowY : -(2 ^ 30) ≤ b.baseY
  highY : b.baseY + b.sizeY ≤ 2 ^ 30

namespace TileBlock

theorem IsNear.of_mem_coords {b : TileBlock} (h : b.IsNear) {x y : Int} (hc : (x, y) ∈ b.coords) :
    (TilePosition.ofCoords x y).IsNear := by
  obtain ⟨⟨hx1, hx2⟩, hy1, hy2⟩ := mem_coords.1 hc
  obtain ⟨h1, h2, h3, h4⟩ := h
  exact ⟨x, y, ⟨by omega, by omega⟩, ⟨by omega, by omega⟩, rfl⟩

theorem IsNear.quadrants {b q : TileBlock} (h : b.IsNear) (hb : ¬ b.IsEmpty) (hq : q ∈ b.quadrants) : q.IsNear := by
  simp only [IsEmpty, not_or, Int.not_le] at hb
  obtain ⟨hx, hy⟩ := hb
  have hx2 : b.sizeX.tdiv 2 = b.sizeX / 2 := Int.tdiv_eq_ediv_of_nonneg (by omega)
  have hy2 : b.sizeY.tdiv 2 = b.sizeY / 2 := Int.tdiv_eq_ediv_of_nonneg (by omega)
  obtain ⟨h1, h2, h3, h4⟩ := h
  simp only [TileBlock.quadrants, hx2, hy2, List.mem_cons, List.not_mem_nil, or_false] at hq
  rcases hq with rfl | rfl | rfl | rfl <;> constructor <;> simp only <;> omega

theorem isNear_covering (level : TileLevel) {b : Bounds} (hx : -(2 ^ 31) ≤ b.minX ∧ b.minX < 2 ^ 31)
    (hx' : -(2 ^ 31) ≤ b.maxX ∧ b.maxX < 2 ^ 31) (hy : -(2 ^ 31) ≤ b.minY ∧ b.minY < 2 ^ 31)
    (hy' : -(2 ^ 31) ≤ b.maxY ∧ b.maxY < 2 ^ 31) : (covering level b).IsNear := by
  have h1 := level.near_tileCoord hx.1 hx.2
  have h2 := level.near_tileCoord hx'.1 hx'.2
  have h3 := level.near_tileCoord hy.1 hy.2
  have h4 := level.near_tileCoord hy'.1 hy'.2
  simp only [Near] at h1 h2 h3 h4
  constructor <;> simp only [covering] <;> omega

end TileBlock

/-- Bounds of points. -/
structure Bounds.FitsWords (b : Bounds) : Prop where
  minX : -(2 ^ 31) ≤ b.minX ∧ b.minX < 2 ^ 31
  maxX : -(2 ^ 31) ≤ b.maxX ∧ b.maxX < 2 ^ 31
  minY : -(2 ^ 31) ≤ b.minY ∧ b.minY < 2 ^ 31
  maxY : -(2 ^ 31) ≤ b.maxY ∧ b.maxY < 2 ^ 31

namespace Bounds

theorem fitsWords_ofPoint (p : Point) : (ofPoint p).FitsWords := by
  have hx1 := p.x.le_toInt
  have hx2 := p.x.toInt_lt
  have hy1 := p.y.le_toInt
  have hy2 := p.y.toInt_lt
  constructor <;> simp only [ofPoint] <;> omega

theorem FitsWords.union {a b : Bounds} (ha : a.FitsWords) (hb : b.FitsWords) : (a.union b).FitsWords := by
  obtain ⟨a1, a2, a3, a4⟩ := ha
  obtain ⟨b1, b2, b3, b4⟩ := hb
  constructor <;> simp only [Bounds.union] <;> omega

theorem FitsWords.foldl : ∀ (ps : List Point) {b : Bounds}, b.FitsWords →
    (ps.foldl (fun b q => b.union (ofPoint q)) b).FitsWords
  | [], _, h => h
  | p :: ps, _, h => foldl ps (h.union (fitsWords_ofPoint p))

theorem fitsWords_ofPoints {ps : List Point} {b : Bounds} (h : ofPoints? ps = some b) : b.FitsWords := by
  cases ps with
  | nil => cases h
  | cons p ps => cases h; exact FitsWords.foldl ps (fitsWords_ofPoint p)

theorem FitsWords.isNear_covering {b : Bounds} (h : b.FitsWords) (level : TileLevel) :
    (TileBlock.covering level b).IsNear :=
  TileBlock.isNear_covering level h.minX h.maxX h.minY h.maxY

end Bounds

/-! ## Covers -/

theorem TileLevel.isNear_tileOf (level : TileLevel) (p : Point) : (level.tileOf p).IsNear := by
  obtain ⟨hx, -, hy, -⟩ := Bounds.fitsWords_ofPoint p
  exact ⟨_, _, level.near_tileCoord hx.1 hx.2, level.near_tileCoord hy.1 hy.2, rfl⟩

theorem isNear_descend (level : TileLevel) (s : ShapeRegion) (b : TileBlock) (hb : b.IsNear) :
    ∀ t ∈ descend level s b, t.IsNear := by
  fun_induction descend level s b with
  | case1 => intro t ht; cases ht
  | case2 => intro t ht; cases ht
  | case3 => intro t ht; cases ht
  | case4 b hne rect _ _ hone =>
    intro t ht
    obtain rfl := List.mem_singleton.1 ht
    refine hb.of_mem_coords (TileBlock.mem_coords.2 ?_)
    simp only [TileBlock.IsEmpty, not_or, Int.not_le] at hne
    omega
  | case5 b hne rect _ _ _ _ =>
    intro t ht
    obtain ⟨c, hc, rfl⟩ := List.mem_map.1 ht
    exact hb.of_mem_coords hc
  | case6 b hne rect _ _ _ _ ih =>
    intro t ht
    obtain ⟨⟨q, hq⟩, -, ht⟩ := List.mem_flatMap.1 ht
    exact ih ⟨q, hq⟩ (hb.quadrants hne hq) t ht

theorem isNear_segmentTiles (level : TileLevel) (a b : Point) : ∀ t ∈ segmentTiles level a b, t.IsNear := by
  intro t ht
  rw [segmentTiles] at ht
  split at ht
  · simp only [List.mem_cons, List.not_mem_nil, or_false] at ht
    rcases ht with rfl | rfl <;> exact level.isNear_tileOf _
  · obtain ⟨⟨x, y⟩, hc, rfl⟩ := List.mem_map.1 ht
    have hb := (Bounds.fitsWords_ofPoint a).union (Bounds.fitsWords_ofPoint b)
    exact (hb.isNear_covering level).of_mem_coords (List.mem_filter.1 hc).1

theorem isNear_lineTiles (level : TileLevel) (ps : List Point) : ∀ t ∈ lineTiles level ps, t.IsNear := by
  intro t ht
  unfold lineTiles at ht
  split at ht
  · cases ht
  · obtain rfl := List.mem_singleton.1 ht
    exact level.isNear_tileOf _
  · obtain ⟨s, -, hs⟩ := List.mem_flatMap.1 ht
    exact isNear_segmentTiles level _ _ t hs

theorem isNear_shapeTiles (level : TileLevel) (s : Shape) : ∀ t ∈ s.tiles level, t.IsNear := by
  intro t ht
  rw [Shape.tiles] at ht
  split at ht
  · cases ht
  · rename_i b hb
    exact isNear_descend level _ _ ((Bounds.fitsWords_ofPoints hb).isNear_covering level) t ht

namespace Geometry

theorem isNear_tileSet (g : Geometry) (level : TileLevel) {t : TilePosition} (ht : t ∈ g.tileSet level) : t.IsNear := by
  rw [tileSet.eq_def, Std.ExtTreeSet.mem_ofList, List.contains_iff_mem] at ht
  cases g with
  | point p =>
    obtain rfl := List.mem_singleton.1 ht
    exact level.isNear_tileOf p
  | multiPoint ps =>
    obtain ⟨p, -, rfl⟩ := List.mem_map.1 ht
    exact level.isNear_tileOf p
  | line ps => exact isNear_lineTiles level ps t ht
  | area shapes =>
    obtain ⟨s, -, hs⟩ := List.mem_flatMap.1 ht
    exact isNear_shapeTiles level s t hs

/-- **A geometry has fewer tiles than a counter can count.** -/
theorem tileSet_size_lt (g : Geometry) (level : TileLevel) : (g.tileSet level).size < UInt64.size := by
  have hasc : ((g.tileSet level).toList.map (·.raw.toNat)).Pairwise (· < ·) := by
    rw [List.pairwise_map]
    refine Std.ExtTreeSet.ordered_toList.imp fun {a b} h => ?_
    exact UInt64.lt_iff_toNat_lt.1 (Std.compare_eq_lt.1 h)
  have hlen := Closure.length_le_of_ascending (3 * 2 ^ 62) _ 0 hasc fun n hn => by
    obtain ⟨t, ht, rfl⟩ := List.mem_map.1 hn
    exact ⟨Nat.zero_le _, (g.isNear_tileSet level (Std.ExtTreeSet.mem_toList.1 ht)).raw_lt⟩
  rw [List.length_map, Std.ExtTreeSet.length_toList] at hlen
  exact Nat.lt_of_le_of_lt hlen (by decide)

end Geometry
end TileAtlas
