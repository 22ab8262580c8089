import Mathlib.Data.List.Infix
import TileAtlas.Proofs.Planar.Segment
import TileAtlas.Proofs.Tile.Blocks
/-!
# The tiles of a line

The tiles of a segment are looked for in the block around it only, and no tile of the grid outside of it is missed
(`mem_crossedTiles`).  A segment that is inside of no tile, along the grid or of no length, gets the tiles of its ends
(`mem_segmentTiles`).  So the tiles of a line are told by its segments, of which it has one at least, and by no
direction (`Geometry.mem_tileSet_line`).
-/
namespace TileAtlas

/-- Some point of the segment between two points lies strictly inside a tile. -/
def TilePosition.IsCrossed (K : Type) [Field K] [LinearOrder K] (level : TileLevel) (a b : Point) (t : TilePosition) :
    Prop :=
  (level.blockRect (.single t.x t.y)).Crosses K a.coord b.coord

/-- A tile is one that a segment crosses, or else one that holds an end of a segment that crosses none. -/
def TilePosition.IsOnSegment (K : Type) [Field K] [LinearOrder K] (level : TileLevel) (a b : Point) (t : TilePosition) :
    Prop :=
  t.IsCrossed K level a b ∨ (∀ u : TilePosition, ¬ u.IsCrossed K level a b) ∧ (t = level.tileOf a ∨ t = level.tileOf b)

variable {K : Type} [Field K] [LinearOrder K] {level : TileLevel} {a b : Point} {t : TilePosition}

namespace TilePosition

theorem isCrossed_swap [IsStrictOrderedRing K] : t.IsCrossed K level b a ↔ t.IsCrossed K level a b := by
  unfold IsCrossed
  exact ⟨Rect.Crosses.symm, Rect.Crosses.symm⟩

theorem isOnSegment_swap [IsStrictOrderedRing K] : t.IsOnSegment K level b a ↔ t.IsOnSegment K level a b := by
  unfold IsOnSegment
  simp only [isCrossed_swap (a := a) (b := b)]
  rw [or_comm (a := t = level.tileOf b)]

end TilePosition

/-- **The block around a segment holds every tile that it crosses.** -/
theorem mem_crossedTiles [IsStrictOrderedRing K] : t ∈ crossedTiles level a b ↔ t.IsCrossed K level a b := by
  have htest : ∀ x y : Int, (level.blockRect (.single x y)).meetsInside a.coord b.coord = true ↔
      (level.blockRect (.single x y)).Crosses K a.coord b.coord := by
    intro x y
    obtain ⟨hx, hy⟩ := level.proper_blockRect (TileBlock.not_isEmpty_single x y)
    exact Rect.meetsInside_iff K hx hy a.coord b.coord
  have hblock : ∀ {x y : Int}, (level.blockRect (.single x y)).meetsInside a.coord b.coord = true →
      (x, y) ∈ (TileBlock.covering level ((Bounds.ofPoint a).union (.ofPoint b))).coords ∧
        (level.blockRect (.single x y)).meetsInside a.coord b.coord = true := by
    intro x y hmeets
    obtain ⟨⟨⟨h1, h2⟩, h3, h4⟩, -⟩ := Rect.meetsInside_eq_true.1 hmeets
    exact ⟨TileBlock.mem_coords_covering ⟨⟨h1, h2⟩, h3, h4⟩, hmeets⟩
  have hnear := ((Bounds.fitsWords_ofPoint a).union (Bounds.fitsWords_ofPoint b)).isNear_covering level
  unfold crossedTiles TilePosition.IsCrossed
  simp only [List.mem_map, List.mem_filter]
  constructor
  · rintro ⟨⟨x, y⟩, ⟨hc, hmeets⟩, rfl⟩
    obtain ⟨hx, hy⟩ := hnear.isPackable.coords_ofCoords hc
    rw [hx, hy]
    exact (htest x y).1 hmeets
  · intro hcrosses
    have hpos := t.ofCoords_coords
    -- its column and its row are numbers like any others
    generalize t.x = x, t.y = y at hcrosses hpos
    exact ⟨(x, y), hblock ((htest x y).2 hcrosses), hpos⟩

theorem mem_segmentTiles [IsStrictOrderedRing K] : t ∈ segmentTiles level a b ↔ t.IsOnSegment K level a b := by
  unfold segmentTiles TilePosition.IsOnSegment
  simp only [← mem_crossedTiles (K := K)]
  cases crossedTiles level a b with
  | nil => simp
  | cons u us =>
    simp only [List.mem_cons, not_or]
    constructor
    · exact .inl
    · rintro (h | ⟨hnone, -⟩)
      · exact h
      · exact absurd rfl (hnone u).1

/-- A segment has tiles. -/
theorem segmentTiles_ne_nil (level : TileLevel) (a b : Point) : segmentTiles level a b ≠ [] := by
  unfold segmentTiles
  split
  · simp
  · assumption

/-- Neighbours in a list are what stands in it side by side. -/
theorem mem_zip_tail_iff {α : Type} {a b : α} : ∀ {l : List α}, (a, b) ∈ l.zip l.tail ↔ [a, b] <:+: l
  | [] => by simp
  | [x] => by
    simp only [List.tail_cons, List.zip_nil_right, List.not_mem_nil, false_iff]
    intro h
    have := h.length_le
    simp at this
  | x :: y :: l => by
    have ih := mem_zip_tail_iff (a := a) (b := b) (l := y :: l)
    rw [List.infix_cons_iff, ← ih]
    simp [List.cons_prefix_cons]

theorem mem_lineTiles [IsStrictOrderedRing K] {ps : List Point} (h : 2 ≤ ps.length) :
    t ∈ lineTiles level ps ↔ ∃ a b, [a, b] <:+: ps ∧ t.IsOnSegment K level a b := by
  match ps, h with
  | p :: q :: ps, _ =>
    unfold lineTiles
    simp only [List.mem_flatMap, Prod.exists, mem_zip_tail_iff, mem_segmentTiles (K := K)]

theorem lineTiles_ne_nil (level : TileLevel) {ps : List Point} (h : 2 ≤ ps.length) : lineTiles level ps ≠ [] := by
  match ps, h with
  | p :: q :: ps, _ =>
    unfold lineTiles
    simp [segmentTiles_ne_nil]

namespace Geometry

theorem mem_tileSet_line_iff {ps : List Point} : t ∈ (line ps).tileSet level ↔ t ∈ lineTiles level ps := by
  rw [tileSet.eq_def, Std.ExtTreeSet.mem_ofList, List.contains_iff_mem]

/-- **The tiles of a line** are those of its segments: a tile of the grid is among them exactly when some segment has
a point strictly inside it, or an end in it and no point strictly inside of any.  There always are some, and the way
back has the same ones. -/
theorem mem_tileSet_line (K : Type) [Field K] [LinearOrder K] [IsStrictOrderedRing K] (level : TileLevel)
    {ps : List Point} (h : 2 ≤ ps.length) :
    (∀ t : TilePosition, t ∈ (line ps).tileSet level ↔ ∃ a b, [a, b] <:+: ps ∧ t.IsOnSegment K level a b) ∧
    (∃ t : TilePosition, t ∈ (line ps).tileSet level) ∧
    (line ps.reverse).tileSet level = (line ps).tileSet level := by
  have hback : 2 ≤ ps.reverse.length := by simpa using h
  refine ⟨fun t => ?_, ?_, Std.ExtTreeSet.ext_mem fun t => ?_⟩
  · rw [mem_tileSet_line_iff, mem_lineTiles (K := K) h]
  · obtain ⟨t, ht⟩ := List.exists_mem_of_ne_nil _ (lineTiles_ne_nil level h)
    exact ⟨t, mem_tileSet_line_iff.2 ht⟩
  · rw [mem_tileSet_line_iff, mem_tileSet_line_iff, mem_lineTiles (K := K) h, mem_lineTiles (K := K) hback]
    have hreverse : ∀ a b : Point, [a, b] <:+: ps.reverse ↔ [b, a] <:+: ps := fun a b => by
      rw [← List.reverse_infix, List.reverse_reverse]
      simp
    simp only [hreverse]
    constructor
    · rintro ⟨a, b, hab, ht⟩
      exact ⟨b, a, hab, TilePosition.isOnSegment_swap.1 ht⟩
    · rintro ⟨a, b, hab, ht⟩
      exact ⟨b, a, hab, TilePosition.isOnSegment_swap.1 ht⟩

/-- A line along the grid, from the tile to the left of the middle to the one to the right of it, that stays at its end
for a segment of no length: neither of its segments is inside of a tile. -/
theorem mem_tileSet_line_grid :
    let ps : List Point := [⟨-156250, 312500⟩, ⟨156250, 312500⟩, ⟨156250, 312500⟩]
    2 ≤ ps.length ∧ (∀ t : TilePosition, t = .ofCoords (-1) 2 ∨ t = .ofCoords 1 2 ↔
      ∃ a b, [a, b] <:+: ps ∧ t.IsOnSegment ℚ .finest a b) ∧
    (line ps.reverse).tileSet .finest = (line ps).tileSet .finest := by
  intro ps
  have htiles : lineTiles .finest ps = [.ofCoords (-1) 2, .ofCoords 1 2, .ofCoords 1 2, .ofCoords 1 2] := by
    decide +kernel
  have hlength : 2 ≤ ps.length := by decide
  obtain ⟨hmem, -, hback⟩ := mem_tileSet_line ℚ .finest hlength
  refine ⟨hlength, fun t => ?_, hback⟩
  rw [← hmem, mem_tileSet_line_iff, htiles]
  simp

end Geometry
end TileAtlas
