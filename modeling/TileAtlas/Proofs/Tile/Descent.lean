import Mathlib.Algebra.Order.Field.Basic
import Mathlib.Algebra.Order.Ring.Rat
import Mathlib.Tactic.Linarith
import TileAtlas.Proofs.Tile.Bounds
import TileAtlas.Proofs.Tile.Position
/-!
# Quadrant descent finds the tiles of a shape

Descent tests blocks where it could test tiles, and may do so because what holds of a block and what holds
of its tiles agree (`Region.Exact`): an area that overlaps a tile overlaps every block around it, one that
covers a block covers its tiles, and one that covers a tile overlaps the blocks around it.  A region of the
plane that is asked about points has all three properties (`Region.Answers.exact`).

Along the descent a block is cut into quadrants that share its tiles out (`TileBlock.mem_coords_quadrants`),
so that descent keeps the tiles which each pass the test alone (`mem_descend_iff`).  Where the outer region lies
within some bounds, no tile outside the block around these passes it, and every position of the grid is one of a
column and a row (`ShapeRegion.Exact.mem_descend`); for regions that are asked about points, the tiles found are
told by their points (`ShapeRegion.Answers.mem_descend`).  The tiles of a shape are those of the regions that its
rings are (`Shape.mem_tiles_iff`).
-/
namespace TileAtlas

/-! ## Blocks within blocks -/

/-- Every tile of a block is a tile of another. -/
structure TileBlock.Within (b c : TileBlock) : Prop where
  lowX : c.baseX ≤ b.baseX
  highX : b.baseX + b.sizeX ≤ c.baseX + c.sizeX
  lowY : c.baseY ≤ b.baseY
  highY : b.baseY + b.sizeY ≤ c.baseY + c.sizeY

namespace TileBlock

variable {b c d q : TileBlock}

instance (b c : TileBlock) : Decidable (b.Within c) :=
  decidable_of_iff ((c.baseX ≤ b.baseX ∧ b.baseX + b.sizeX ≤ c.baseX + c.sizeX) ∧
      c.baseY ≤ b.baseY ∧ b.baseY + b.sizeY ≤ c.baseY + c.sizeY)
    ⟨fun h => ⟨h.1.1, h.1.2, h.2.1, h.2.2⟩, fun h => ⟨⟨h.lowX, h.highX⟩, h.lowY, h.highY⟩⟩

theorem Within.refl (b : TileBlock) : b.Within b := ⟨Int.le_refl _, Int.le_refl _, Int.le_refl _, Int.le_refl _⟩

theorem Within.trans (h : b.Within c) (h' : c.Within d) : b.Within d :=
  ⟨Int.le_trans h'.lowX h.lowX, Int.le_trans h.highX h'.highX, Int.le_trans h'.lowY h.lowY,
    Int.le_trans h.highY h'.highY⟩

theorem not_isEmpty_iff : ¬ b.IsEmpty ↔ 0 < b.sizeX ∧ 0 < b.sizeY := by
  unfold IsEmpty
  omega

theorem Within.not_isEmpty (h : b.Within c) (hb : ¬ b.IsEmpty) : ¬ c.IsEmpty := by
  obtain ⟨hx, hy⟩ := not_isEmpty_iff.1 hb
  obtain ⟨h1, h2, h3, h4⟩ := h
  exact not_isEmpty_iff.2 (by omega)

theorem single_within {x y : Int} (h : (x, y) ∈ b.coords) : (single x y).Within b := by
  obtain ⟨⟨hx1, hx2⟩, hy1, hy2⟩ := mem_coords.1 h
  constructor <;> simp only [single] <;> omega

theorem not_isEmpty_single (x y : Int) : ¬ (single x y).IsEmpty := by simp [IsEmpty, single]

theorem eq_single (hb : ¬ b.IsEmpty) (hn : b.tileCount = 1) : b = single b.baseX b.baseY := by
  obtain ⟨hx, hy⟩ := not_isEmpty_iff.1 hb
  have hx1 : b.sizeX * 1 ≤ b.sizeX * b.sizeY := Int.mul_le_mul_of_nonneg_left hy (Int.le_of_lt hx)
  have hy1 : 1 * b.sizeY ≤ b.sizeX * b.sizeY := Int.mul_le_mul_of_nonneg_right hx (Int.le_of_lt hy)
  rw [tileCount] at hn
  rw [hn] at hx1 hy1
  obtain ⟨baseX, baseY, sizeX, sizeY⟩ := b
  obtain rfl : sizeX = 1 := by simp only at *; omega
  obtain rfl : sizeY = 1 := by simp only at *; omega
  rfl

/-- **The quadrants of a block share its tiles out.** -/
theorem mem_coords_quadrants (hb : ¬ b.IsEmpty) {t : Int × Int} : t ∈ b.coords ↔ ∃ q ∈ b.quadrants, t ∈ q.coords := by
  obtain ⟨hx, hy⟩ := not_isEmpty_iff.1 hb
  have hx2 : b.sizeX.tdiv 2 = b.sizeX / 2 := Int.tdiv_eq_ediv_of_nonneg (by omega)
  have hy2 : b.sizeY.tdiv 2 = b.sizeY / 2 := Int.tdiv_eq_ediv_of_nonneg (by omega)
  obtain ⟨x, y⟩ := t
  simp only [quadrants, hx2, hy2, List.mem_cons, List.not_mem_nil, or_false, exists_eq_or_imp, exists_eq_left,
    mem_coords]
  omega

theorem within_of_mem_quadrants (hb : ¬ b.IsEmpty) (hq : q ∈ b.quadrants) : q.Within b := by
  obtain ⟨hx, hy⟩ := not_isEmpty_iff.1 hb
  have hx2 : b.sizeX.tdiv 2 = b.sizeX / 2 := Int.tdiv_eq_ediv_of_nonneg (by omega)
  have hy2 : b.sizeY.tdiv 2 = b.sizeY / 2 := Int.tdiv_eq_ediv_of_nonneg (by omega)
  simp only [quadrants, hx2, hy2, List.mem_cons, List.not_mem_nil, or_false] at hq
  rcases hq with rfl | rfl | rfl | rfl <;> constructor <;> simp only <;> omega

/-- **Descent goes down to fewer tiles at every step.** -/
theorem wellFounded_quadrant :
    WellFounded fun q b : TileBlock => ¬ b.IsEmpty ∧ b.tileCount ≠ 1 ∧ q ∈ b.quadrants := by
  refine Subrelation.wf (fun {q b} h => ?_) (InvImage.wf volume Nat.lt_wfRel.wf)
  exact volume_lt_of_mem_quadrants h.1 h.2.1 h.2.2

def parts (c : TileBlock) : List TileBlock :=
  c.coords.flatMap fun lo => c.coords.map fun hi => ⟨lo.1, lo.2, hi.1 - lo.1 + 1, hi.2 - lo.2 + 1⟩

theorem mem_parts (hb : ¬ b.IsEmpty) (h : b.Within c) : b ∈ c.parts := by
  obtain ⟨hx, hy⟩ := not_isEmpty_iff.1 hb
  obtain ⟨h1, h2, h3, h4⟩ := h
  refine List.mem_flatMap.2 ⟨(b.baseX, b.baseY), mem_coords.2 (by omega), List.mem_map.2
    ⟨(b.baseX + b.sizeX - 1, b.baseY + b.sizeY - 1), mem_coords.2 (by omega), ?_⟩⟩
  obtain ⟨baseX, baseY, sizeX, sizeY⟩ := b
  simp only [mk.injEq, true_and]
  omega

theorem not_isEmpty_covering (level : TileLevel) {bounds : Bounds} (hx : bounds.minX ≤ bounds.maxX)
    (hy : bounds.minY ≤ bounds.maxY) : ¬ (covering level bounds).IsEmpty := by
  have hx' := level.tileCoord_mono hx
  have hy' := level.tileCoord_mono hy
  refine not_isEmpty_iff.2 ⟨?_, ?_⟩ <;> simp only [covering] <;> omega

end TileBlock

/-! ## Exact regions -/

/-- A region answers for the blocks within a block as an area of the plane does: it overlaps what is around
what it overlaps, covers what is within what it covers, and overlaps what is around what it covers. -/
structure Region.Exact (r : Region) (level : TileLevel) (block : TileBlock) : Prop where
  overlaps_mono : ∀ b c : TileBlock, ¬ b.IsEmpty → b.Within c → c.Within block →
    r.overlaps (level.blockRect b) = true → r.overlaps (level.blockRect c) = true
  covers_mono : ∀ b c : TileBlock, ¬ b.IsEmpty → b.Within c → c.Within block →
    r.covers (level.blockRect c) = true → r.covers (level.blockRect b) = true
  overlaps_of_covers : ∀ b c : TileBlock, ¬ b.IsEmpty → b.Within c → c.Within block →
    r.covers (level.blockRect b) = true → r.overlaps (level.blockRect c) = true

/-- Blocks of a block are finitely many, so that exactness can be checked. -/
instance (r : Region) (level : TileLevel) (block : TileBlock) : Decidable (r.Exact level block) :=
  decidable_of_iff
    (∀ c ∈ block.parts, ∀ b ∈ c.parts, ¬ b.IsEmpty → b.Within c → c.Within block →
      (r.overlaps (level.blockRect b) = true → r.overlaps (level.blockRect c) = true) ∧
      (r.covers (level.blockRect c) = true → r.covers (level.blockRect b) = true) ∧
      (r.covers (level.blockRect b) = true → r.overlaps (level.blockRect c) = true))
    (by
      constructor
      · intro h
        have hall := fun (b c : TileBlock) (hb : ¬ b.IsEmpty) (hbc : b.Within c) (hc : c.Within block) =>
          h c (TileBlock.mem_parts (hbc.not_isEmpty hb) hc) b (TileBlock.mem_parts hb hbc) hb hbc hc
        exact ⟨fun b c hb hbc hc => (hall b c hb hbc hc).1, fun b c hb hbc hc => (hall b c hb hbc hc).2.1,
          fun b c hb hbc hc => (hall b c hb hbc hc).2.2⟩
      · intro h c _ b _ hb hbc hc
        exact ⟨h.overlaps_mono b c hb hbc hc, h.covers_mono b c hb hbc hc, h.overlaps_of_covers b c hb hbc hc⟩)

theorem TileLevel.blockRect_eq (level : TileLevel) {b : TileBlock} (hb : ¬ b.IsEmpty) :
    level.blockRect b = ⟨b.baseX * level.tileSize, b.baseY * level.tileSize,
      (b.baseX + b.sizeX) * level.tileSize, (b.baseY + b.sizeY) * level.tileSize⟩ := by
  obtain ⟨hx, hy⟩ := TileBlock.not_isEmpty_iff.1 hb
  have hsize := Int.le_of_lt level.tileSize_pos
  have hx' : b.baseX * level.tileSize ≤ (b.baseX + b.sizeX) * level.tileSize :=
    Int.mul_le_mul_of_nonneg_right (by omega) hsize
  have hy' : b.baseY * level.tileSize ≤ (b.baseY + b.sizeY) * level.tileSize :=
    Int.mul_le_mul_of_nonneg_right (by omega) hsize
  unfold blockRect Rect.spanning
  simp only [Int.min_eq_left hx', Int.min_eq_left hy', Int.max_eq_right hx', Int.max_eq_right hy']

theorem TileLevel.proper_blockRect (level : TileLevel) {block : TileBlock} (hb : ¬ block.IsEmpty) :
    (level.blockRect block).minX < (level.blockRect block).maxX ∧
      (level.blockRect block).minY < (level.blockRect block).maxY := by
  obtain ⟨hx, hy⟩ := TileBlock.not_isEmpty_iff.1 hb
  rw [level.blockRect_eq hb]
  exact ⟨Int.mul_lt_mul_of_pos_right (by omega) level.tileSize_pos,
    Int.mul_lt_mul_of_pos_right (by omega) level.tileSize_pos⟩

/-! ## Regions that answer about points -/

/-- Strictly inside. -/
def Rect.Holds (q : Rect) (x y : ℚ) : Prop := ((q.minX : ℚ) < x ∧ x < q.maxX) ∧ (q.minY : ℚ) < y ∧ y < q.maxY

theorem Rect.exists_holds {q : Rect} (hx : q.minX < q.maxX) (hy : q.minY < q.maxY) : ∃ x y, q.Holds x y := by
  obtain ⟨x, hx⟩ := exists_between (Int.cast_lt (R := ℚ).2 hx)
  obtain ⟨y, hy⟩ := exists_between (Int.cast_lt (R := ℚ).2 hy)
  exact ⟨x, y, hx, hy⟩

theorem TileBlock.Within.holds {b c : TileBlock} (h : b.Within c) (hb : ¬ b.IsEmpty) {level : TileLevel} {x y : ℚ}
    (hp : (level.blockRect b).Holds x y) : (level.blockRect c).Holds x y := by
  have hsize := Int.le_of_lt level.tileSize_pos
  rw [level.blockRect_eq hb] at hp
  rw [level.blockRect_eq (h.not_isEmpty hb)]
  obtain ⟨⟨p1, p2⟩, p3, p4⟩ := hp
  exact ⟨⟨lt_of_le_of_lt (Int.cast_le.2 (Int.mul_le_mul_of_nonneg_right h.lowX hsize)) p1,
      lt_of_lt_of_le p2 (Int.cast_le.2 (Int.mul_le_mul_of_nonneg_right h.highX hsize))⟩,
    lt_of_le_of_lt (Int.cast_le.2 (Int.mul_le_mul_of_nonneg_right h.lowY hsize)) p3,
    lt_of_lt_of_le p4 (Int.cast_le.2 (Int.mul_le_mul_of_nonneg_right h.highY hsize))⟩

/-- A region answers about an area of the plane, given by its points. -/
structure Region.Answers (r : Region) (area : ℚ → ℚ → Prop) : Prop where
  overlaps : ∀ q : Rect, q.minX < q.maxX → q.minY < q.maxY →
    (r.overlaps q = true ↔ ∃ x y, q.Holds x y ∧ area x y)
  covers : ∀ q : Rect, q.minX < q.maxX → q.minY < q.maxY → (r.covers q = true ↔ ∀ x y, q.Holds x y → area x y)

namespace Region.Answers

variable {r : Region} {area : ℚ → ℚ → Prop} (h : r.Answers area) (level : TileLevel) {b : TileBlock} (hb : ¬ b.IsEmpty)

include h hb

theorem overlaps_blockRect :
    r.overlaps (level.blockRect b) = true ↔ ∃ x y, (level.blockRect b).Holds x y ∧ area x y :=
  h.overlaps _ (level.proper_blockRect hb).1 (level.proper_blockRect hb).2

theorem covers_blockRect :
    r.covers (level.blockRect b) = true ↔ ∀ x y, (level.blockRect b).Holds x y → area x y :=
  h.covers _ (level.proper_blockRect hb).1 (level.proper_blockRect hb).2

end Region.Answers

/-- **A region that answers about points is exact on every block of every grid.** -/
theorem Region.Answers.exact {r : Region} {area : ℚ → ℚ → Prop} (h : r.Answers area) (level : TileLevel)
    (block : TileBlock) : r.Exact level block where
  overlaps_mono b c hb hbc _ hover := by
    obtain ⟨x, y, hp, harea⟩ := (h.overlaps_blockRect level hb).1 hover
    exact (h.overlaps_blockRect level (hbc.not_isEmpty hb)).2 ⟨x, y, hbc.holds hb hp, harea⟩
  covers_mono b c hb hbc _ hcov := (h.covers_blockRect level hb).2 fun x y hp =>
    (h.covers_blockRect level (hbc.not_isEmpty hb)).1 hcov x y (hbc.holds hb hp)
  overlaps_of_covers b c hb hbc _ hcov := by
    obtain ⟨x, y, hp⟩ := Rect.exists_holds (level.proper_blockRect hb).1 (level.proper_blockRect hb).2
    exact (h.overlaps_blockRect level (hbc.not_isEmpty hb)).2
      ⟨x, y, hbc.holds hb hp, (h.covers_blockRect level hb).1 hcov x y hp⟩

section Descent

variable {level : TileLevel} {s : ShapeRegion} {block : TileBlock}

theorem mem_eachTile {b : TileBlock} {t : TilePosition} : t ∈ eachTile level s b ↔
    ∃ x y, (x, y) ∈ b.coords ∧ s.hasTile (level.blockRect (.single x y)) = true ∧ t = .ofCoords x y := by
  unfold eachTile
  rw [List.mem_map]
  constructor
  · rintro ⟨⟨x, y⟩, hc, rfl⟩
    obtain ⟨hc, hhas⟩ := List.mem_filter.1 hc
    exact ⟨x, y, hc, hhas, rfl⟩
  · rintro ⟨x, y, hc, hhas, rfl⟩
    exact ⟨(x, y), List.mem_filter.2 ⟨hc, hhas⟩, rfl⟩

namespace ShapeRegion

theorem hasTile_iff {r : Rect} :
    s.hasTile r = true ↔ s.outer.overlaps r = true ∧ ∀ h ∈ s.holes, h.covers r = false := by
  simp [hasTile]

structure ExactWithin (s : ShapeRegion) (level : TileLevel) (block : TileBlock) : Prop where
  outer : s.outer.Exact level block
  holes : ∀ h ∈ s.holes, h.Exact level block

variable {b : TileBlock} {x y : Int}

/-- A block that holds a tile of the shape is not dropped. -/
theorem ExactWithin.of_hasTile (hs : s.ExactWithin level block) (hb : b.Within block) (hc : (x, y) ∈ b.coords)
    (h : s.hasTile (level.blockRect (.single x y)) = true) : s.hasTile (level.blockRect b) = true := by
  obtain ⟨hover, hcov⟩ := hasTile_iff.1 h
  have hne := TileBlock.not_isEmpty_single x y
  have hsub := TileBlock.single_within hc
  refine hasTile_iff.2 ⟨hs.outer.overlaps_mono _ b hne hsub hb hover, fun r hr => ?_⟩
  cases hrb : r.covers (level.blockRect b) with
  | false => rfl
  | true =>
    have htile := (hs.holes r hr).covers_mono _ b hne hsub hb hrb
    exact htile.symm.trans (hcov r hr)

/-- A block that is taken whole holds tiles of the shape only. -/
theorem ExactWithin.of_hasAll (hs : s.ExactWithin level block) (hb : b.Within block) (hc : (x, y) ∈ b.coords)
    (h : s.hasAll (level.blockRect b) = true) : s.hasTile (level.blockRect (.single x y)) = true := by
  rw [hasAll, Bool.and_eq_true, Bool.not_eq_true', List.any_eq_false] at h
  obtain ⟨hcov, hclear⟩ := h
  have hne := TileBlock.not_isEmpty_single x y
  have hsub := TileBlock.single_within hc
  have htile := hs.outer.covers_mono _ b hne hsub hb hcov
  refine hasTile_iff.2 ⟨hs.outer.overlaps_of_covers _ _ hne (.refl _) (hsub.trans hb) htile, fun r hr => ?_⟩
  cases hrt : r.covers (level.blockRect (.single x y)) with
  | false => rfl
  | true => exact absurd ((hs.holes r hr).overlaps_of_covers _ b hne hsub hb hrt) (hclear r hr)

end ShapeRegion

/-- **Descent keeps the tiles that pass the test alone.** -/
theorem mem_descend_iff (hs : s.ExactWithin level block) {b : TileBlock} (hb : b.Within block) {t : TilePosition} :
    t ∈ descend level s b ↔ t ∈ eachTile level s b := by
  rw [mem_eachTile]
  -- along the descent: a block that is dropped holds no tile, one that is taken holds nothing else
  fun_induction descend level s b with
  | case1 b hempty =>
    have hcoords : ∀ x y, (x, y) ∉ b.coords := fun x y hc => by
      rw [TileBlock.mem_coords] at hc
      unfold TileBlock.IsEmpty at hempty
      omega
    simp [hcoords]
  | case2 b hne rect hover =>
    refine iff_of_false List.not_mem_nil ?_
    rintro ⟨x, y, hc, htile, -⟩
    rw [(ShapeRegion.hasTile_iff.1 (hs.of_hasTile hb hc htile)).1] at hover
    cases hover
  | case3 b hne rect hover hcov =>
    refine iff_of_false List.not_mem_nil ?_
    rintro ⟨x, y, hc, htile, -⟩
    obtain ⟨r, hr, hrb⟩ := List.any_eq_true.1 hcov
    cases hrb.symm.trans ((ShapeRegion.hasTile_iff.1 (hs.of_hasTile hb hc htile)).2 r hr)
  | case4 b hne rect hover hcov hone =>
    have hb1 := TileBlock.eq_single hne hone
    have hhas : s.hasTile (level.blockRect (.single b.baseX b.baseY)) = true := by
      rw [← hb1, ShapeRegion.hasTile]
      simp only [rect] at hover hcov
      simp [hcov, (by simpa using hover : s.outer.overlaps _ = true)]
    have hcoords : ∀ x y, (x, y) ∈ b.coords ↔ x = b.baseX ∧ y = b.baseY := fun x y => by
      rw [TileBlock.mem_coords, hb1]
      simp only [TileBlock.single]
      omega
    simp only [List.mem_singleton, hcoords]
    constructor
    · rintro rfl
      exact ⟨_, _, ⟨rfl, rfl⟩, hhas, rfl⟩
    · rintro ⟨_, _, ⟨rfl, rfl⟩, -, rfl⟩
      rfl
  | case5 b hne rect hover hcov hmany hall =>
    rw [TileBlock.tiles, List.mem_map]
    constructor
    · rintro ⟨⟨x, y⟩, hc, rfl⟩
      exact ⟨x, y, hc, hs.of_hasAll hb hc hall, rfl⟩
    · rintro ⟨x, y, hc, -, rfl⟩
      exact ⟨(x, y), hc, rfl⟩
  | case6 b hne rect hover hcov hmany hall ih =>
    have hquad : ∀ q ∈ b.quadrants, q.Within block := fun q hq => (TileBlock.within_of_mem_quadrants hne hq).trans hb
    simp only [List.mem_flatMap, List.mem_attach, true_and, Subtype.exists]
    constructor
    · rintro ⟨q, hq, ht⟩
      obtain ⟨x, y, hc, hhas⟩ := (ih ⟨q, hq⟩ (hquad q hq)).1 ht
      exact ⟨x, y, (TileBlock.mem_coords_quadrants hne).2 ⟨q, hq, hc⟩, hhas⟩
    · rintro ⟨x, y, hc, hhas⟩
      obtain ⟨q, hq, hcq⟩ := (TileBlock.mem_coords_quadrants hne).1 hc
      exact ⟨q, hq, (ih ⟨q, hq⟩ (hquad q hq)).2 ⟨x, y, hcq, hhas⟩⟩

end Descent

/-! ## All tiles of the grid -/

namespace Bounds

theorem le_union {a : Bounds} (b : Bounds) (h : a.minX ≤ a.maxX ∧ a.minY ≤ a.maxY) :
    (a.union b).minX ≤ (a.union b).maxX ∧ (a.union b).minY ≤ (a.union b).maxY := by
  simp only [union]
  omega

theorem le_foldl : ∀ (ps : List Point) {b : Bounds}, b.minX ≤ b.maxX ∧ b.minY ≤ b.maxY →
    (ps.foldl (fun b q => b.union (ofPoint q)) b).minX ≤ (ps.foldl (fun b q => b.union (ofPoint q)) b).maxX ∧
      (ps.foldl (fun b q => b.union (ofPoint q)) b).minY ≤ (ps.foldl (fun b q => b.union (ofPoint q)) b).maxY
  | [], _, h => h
  | _ :: ps, _, h => le_foldl ps (le_union _ h)

/-- **The tiles that the bounds of points touch are not none.** -/
theorem not_isEmpty_covering {ps : List Point} {b : Bounds} (h : ofPoints? ps = some b) (level : TileLevel) :
    ¬ (TileBlock.covering level b).IsEmpty := by
  have hb : b.minX ≤ b.maxX ∧ b.minY ≤ b.maxY := by
    cases ps with
    | nil => cases h
    | cons p ps => cases h; exact le_foldl ps ⟨Int.le_refl _, Int.le_refl _⟩
  exact TileBlock.not_isEmpty_covering level hb.1 hb.2

end Bounds

def Rect.Meets (r : Rect) (b : Bounds) : Prop :=
  (r.minX < b.maxX ∧ b.minX < r.maxX) ∧ r.minY < b.maxY ∧ b.minY < r.maxY

/-- **A tile whose inside meets the bounds lies in the block that covers them.** -/
theorem TileBlock.mem_coords_covering {level : TileLevel} {b : Bounds} {x y : Int}
    (h : (level.blockRect (single x y)).Meets b) : (x, y) ∈ (covering level b).coords := by
  rw [level.blockRect_eq (not_isEmpty_single x y)] at h
  obtain ⟨⟨hx1, hx2⟩, hy1, hy2⟩ := h
  simp only [single] at hx1 hx2 hy1 hy2
  have hsize := level.tileSize_pos
  -- the column of a coordinate is the last whose lower edge is not above it
  have hlow : ∀ {m n : Int}, m * level.tileSize < n → m ≤ level.tileCoord n := fun hmn =>
    (Int.le_ediv_iff_mul_le hsize).2 (Int.le_of_lt hmn)
  have hhigh : ∀ {m n : Int}, n < (m + 1) * level.tileSize → level.tileCoord n ≤ m := fun hmn =>
    Int.lt_add_one_iff.1 ((Int.ediv_lt_iff_lt_mul hsize).2 hmn)
  have h1 := hlow hx1
  have h2 := hhigh hx2
  have h3 := hlow hy1
  have h4 := hhigh hy2
  refine mem_coords.2 ?_
  simp only [covering]
  omega

namespace ShapeRegion

/-- The regions of a shape answer exactly for the blocks of a grid: those within the block around some bounds as
areas do, and the outer one for every tile as an area within these bounds does. -/
structure Exact (s : ShapeRegion) (level : TileLevel) (b : Bounds) : Prop where
  within : s.ExactWithin level (.covering level b)
  bounds : ∀ x y, s.outer.overlaps (level.blockRect (.single x y)) = true → (level.blockRect (.single x y)).Meets b

variable {level : TileLevel} {s : ShapeRegion} {b : Bounds}

/-- **Descent from the block around the bounds finds exactly the tiles of the grid that pass the test alone.** -/
theorem Exact.mem_descend (hs : s.Exact level b) (hb : b.FitsWords) {t : TilePosition} :
    t ∈ descend level s (.covering level b) ↔ s.hasTile (level.blockRect (.single t.x t.y)) = true := by
  rw [mem_descend_iff hs.within (.refl _), mem_eachTile]
  constructor
  · rintro ⟨x, y, hc, hhas, rfl⟩
    -- the columns and rows of the block fit in a position
    have hnear := hb.isNear_covering level
    have h1 := hnear.lowX
    have h2 := hnear.highX
    have h3 := hnear.lowY
    have h4 := hnear.highY
    rw [TileBlock.mem_coords] at hc
    rw [TilePosition.x_ofCoords (by omega) (by omega), TilePosition.y_ofCoords (by omega) (by omega)]
    exact hhas
  · intro hhas
    have hmeets := hs.bounds _ _ (hasTile_iff.1 hhas).1
    exact ⟨t.x, t.y, TileBlock.mem_coords_covering hmeets, hhas, t.ofCoords_coords.symm⟩

/-- The regions of a shape answer about areas of the plane, the outer one of which lies within some bounds. -/
structure Answers (s : ShapeRegion) (area : Region → ℚ → ℚ → Prop) (b : Bounds) : Prop where
  outer : s.outer.Answers (area s.outer)
  holes : ∀ h ∈ s.holes, h.Answers (area h)
  bounds : ∀ x y, area s.outer x y → ((b.minX : ℚ) ≤ x ∧ x ≤ b.maxX) ∧ (b.minY : ℚ) ≤ y ∧ y ≤ b.maxY

variable {area : Region → ℚ → ℚ → Prop}

theorem Answers.exact (h : s.Answers area b) (level : TileLevel) : s.Exact level b where
  within := ⟨h.outer.exact level _, fun r hr => (h.holes r hr).exact level _⟩
  bounds x y hover := by
    obtain ⟨px, py, ⟨⟨p1, p2⟩, p3, p4⟩, harea⟩ :=
      (h.outer.overlaps_blockRect level (TileBlock.not_isEmpty_single x y)).1 hover
    obtain ⟨⟨b1, b2⟩, b3, b4⟩ := h.bounds px py harea
    exact ⟨⟨Int.cast_lt.1 (p1.trans_le b2), Int.cast_lt.1 (b1.trans_lt p2)⟩,
      Int.cast_lt.1 (p3.trans_le b4), Int.cast_lt.1 (b3.trans_lt p4)⟩

/-- **Descent finds the tiles that have a point of the outer area inside, and for every hole a point outside of it.** -/
theorem Answers.mem_descend (h : s.Answers area b) (hb : b.FitsWords) {t : TilePosition} :
    t ∈ descend level s (.covering level b) ↔
      (∃ x y, (level.blockRect (.single t.x t.y)).Holds x y ∧ area s.outer x y) ∧
        ∀ r ∈ s.holes, ∃ x y, (level.blockRect (.single t.x t.y)).Holds x y ∧ ¬ area r x y := by
  have hne := TileBlock.not_isEmpty_single t.x t.y
  rw [(h.exact level).mem_descend hb, hasTile_iff, h.outer.overlaps_blockRect level hne]
  refine and_congr_right fun _ => forall₂_congr fun r hr => ?_
  rw [← Bool.not_eq_true, (h.holes r hr).covers_blockRect level hne]
  simp only [not_forall, exists_prop]

end ShapeRegion

/-- The regions of the rings of a shape answer exactly. -/
abbrev Shape.Exact (s : Shape) (level : TileLevel) (b : Bounds) : Prop := (ShapeRegion.ofShape s).Exact level b

theorem Planar.touches_of_overlaps {a : Ring} {r : Rect} (h : overlaps a r = true) :
    ∃ box, a.box? = some box ∧ box.touches r = true := by
  unfold overlaps relate at h
  split at h
  · cases h
  · rename_i box hbox
    split at h
    · cases h
    · rename_i htouch
      exact ⟨box, hbox, by simpa using htouch⟩

namespace Shape

/-- **Descent from the block around a shape finds exactly the tiles of the grid whose inside the outer ring
overlaps and that no hole covers,** and so does testing every tile of that block.  The block is never
empty, and descent goes down. -/
theorem mem_tiles_iff (s : Shape) (level : TileLevel) (hs : ∀ b, s.bounds? = some b → s.Exact level b) :
    (∀ t : TilePosition, t ∈ s.tiles level ↔
      Planar.overlaps (.ofPoints s.outer) (level.blockRect (.single t.x t.y)) = true ∧
        ∀ h ∈ s.holes, Planar.covers (.ofPoints h) (level.blockRect (.single t.x t.y)) = false) ∧
    (∀ t, t ∈ s.tilesOneByOne level ↔ t ∈ s.tiles level) ∧
    (∀ b, s.bounds? = some b → ¬ (TileBlock.covering level b).IsEmpty) ∧
    WellFounded fun q b : TileBlock => ¬ b.IsEmpty ∧ b.tileCount ≠ 1 ∧ q ∈ b.quadrants := by
  have hiff : ∀ r, (ShapeRegion.ofShape s).hasTile r = true ↔
      Planar.overlaps (.ofPoints s.outer) r = true ∧ ∀ h ∈ s.holes, Planar.covers (.ofPoints h) r = false := fun r => by
    rw [ShapeRegion.hasTile_iff, ShapeRegion.ofShape, List.forall_mem_map]
    rfl
  simp only [← hiff]
  refine ⟨fun t => ?_, fun t => ?_, fun b hb => Bounds.not_isEmpty_covering hb level, TileBlock.wellFounded_quadrant⟩
  · rw [tiles]
    cases hb : s.bounds? with
    | none =>
      -- only a ring without points has no bounds, and that overlaps nothing
      have houter : s.outer = [] := by
        cases houter : s.outer with
        | nil => rfl
        | cons p ps =>
          rw [bounds?, houter] at hb
          cases hb
      refine iff_of_false List.not_mem_nil fun hhas => ?_
      obtain ⟨box, hbox, -⟩ := Planar.touches_of_overlaps ((hiff _).1 hhas).1
      rw [houter] at hbox
      cases hbox
    | some b => exact (hs b hb).mem_descend (Bounds.fitsWords_ofPoints hb)
  · rw [tiles, tilesOneByOne]
    cases hb : s.bounds? with
    | none => exact Iff.rfl
    | some b => exact (mem_descend_iff (hs b hb).within (.refl _)).symm

/-- A square that reaches into four tiles, with a hole that crosses it and covers the first of them. -/
theorem mem_tiles_iff_crossed :
    let square (lo hi : Int32) : List Point := [⟨lo, lo⟩, ⟨hi, lo⟩, ⟨hi, hi⟩, ⟨lo, hi⟩, ⟨lo, lo⟩]
    let s : Shape := ⟨square 1000 300000, [square (-50000) 200000]⟩
    (∀ b, s.bounds? = some b → s.Exact .finest b) ∧
      ∀ t : TilePosition, t ∈ [TilePosition.ofCoords 1 0, .ofCoords 0 1, .ofCoords 1 1] ↔
        Planar.overlaps (.ofPoints s.outer) (TileLevel.finest.blockRect (.single t.x t.y)) = true ∧
          ∀ h ∈ s.holes, Planar.covers (.ofPoints h) (TileLevel.finest.blockRect (.single t.x t.y)) = false := by
  intro square s
  have hbounds : s.bounds? = some ⟨1000, 1000, 300000, 300000⟩ := by decide +kernel
  have hbox : (Ring.ofPoints s.outer).box? = some ⟨1000, 1000, 300000, 300000⟩ := by decide +kernel
  have hsize : TileLevel.finest.tileSize = 156250 := by decide +kernel
  have hs : ∀ b, s.bounds? = some b → s.Exact .finest b := by
    intro b hb
    cases hbounds.symm.trans hb
    refine ⟨⟨by decide +kernel, by decide +kernel⟩, fun x y hover => ?_⟩
    obtain ⟨box, hbox', htouch⟩ := Planar.touches_of_overlaps hover
    cases hbox.symm.trans hbox'
    rw [TileLevel.blockRect_eq _ (TileBlock.not_isEmpty_single x y), hsize] at htouch ⊢
    simp only [Rect.touches, Bool.and_eq_true, TileBlock.single] at htouch
    obtain ⟨⟨⟨h1, h2⟩, h3⟩, h4⟩ := htouch
    have h1 := of_decide_eq_true h1
    have h2 := of_decide_eq_true h2
    have h3 := of_decide_eq_true h3
    have h4 := of_decide_eq_true h4
    simp only [Rect.Meets, TileBlock.single]
    omega
  refine ⟨hs, fun t => ?_⟩
  have htiles : s.tiles .finest = [.ofCoords 1 0, .ofCoords 0 1, .ofCoords 1 1] := by decide +kernel
  rw [← htiles]
  exact (mem_tiles_iff s .finest hs).1 t

end Shape

end TileAtlas
