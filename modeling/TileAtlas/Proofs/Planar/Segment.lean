import Mathlib.Algebra.Order.Field.Basic
import Mathlib.Order.Interval.Set.OrdConnected
import Mathlib.Tactic.FieldSimp
import Mathlib.Tactic.Linarith
import Mathlib.Tactic.Ring
import TileAtlas.Planar.Basic
/-!
# A segment and the inside of a rectangle

On its way from one end to the other a segment is within its own ends for a time, between the left and the right edge
of a rectangle for a time, and between the lower and the upper edge for a time.  Times are intervals, and three of them
have a moment in common when each two of them do (`exists_mem_of_pairwise`).  So a segment has a point strictly inside
a rectangle exactly when its extent overlaps that of the rectangle along both axes, and the rectangle has corners on
both sides of its line (`Rect.meetsInside_iff`).  Points may have their coordinates in any ordered field.
-/
namespace TileAtlas

/-- **Three intervals have a point in common** if each two of them have one: the middle one of the three points. -/
theorem exists_mem_of_pairwise {α : Type} [LinearOrder α] {A B C : Set α} (hA : A.OrdConnected) (hB : B.OrdConnected)
    (hC : C.OrdConnected) {x y z : α} (hx : x ∈ A ∧ x ∈ B) (hy : y ∈ B ∧ y ∈ C) (hz : z ∈ A ∧ z ∈ C) :
    ∃ t, t ∈ A ∧ t ∈ B ∧ t ∈ C := by
  have hxC : ∀ {u v}, u ∈ C → v ∈ C → u ≤ x → x ≤ v → ∃ t, t ∈ A ∧ t ∈ B ∧ t ∈ C := fun hu hv h1 h2 =>
    ⟨x, hx.1, hx.2, hC.out hu hv ⟨h1, h2⟩⟩
  have hyA : ∀ {u v}, u ∈ A → v ∈ A → u ≤ y → y ≤ v → ∃ t, t ∈ A ∧ t ∈ B ∧ t ∈ C := fun hu hv h1 h2 =>
    ⟨y, hA.out hu hv ⟨h1, h2⟩, hy⟩
  have hzB : ∀ {u v}, u ∈ B → v ∈ B → u ≤ z → z ≤ v → ∃ t, t ∈ A ∧ t ∈ B ∧ t ∈ C := fun hu hv h1 h2 =>
    ⟨z, hz.1, hB.out hu hv ⟨h1, h2⟩, hz.2⟩
  rcases le_total x y with hxy | hyx
  · rcases le_total y z with hyz | hzy
    · exact hyA hx.1 hz.1 hxy hyz
    · rcases le_total x z with hxz | hzx
      · exact hzB hx.2 hy.1 hxz hzy
      · exact hxC hz.2 hy.2 hzx hxy
  · rcases le_total y z with hyz | hzy
    · rcases le_total x z with hxz | hzx
      · exact hxC hy.2 hz.2 hyx hxz
      · exact hzB hy.1 hx.2 hyz hzx
    · exact hyA hz.1 hx.1 hzy hyx

variable {K : Type} [Field K]

namespace Planar

/-! ## The way along a segment -/

/-- Where one is after a part of the way from one number to another. -/
def along (p q : Int) (t : K) : K := p + t * (q - p)

theorem along_swap (p q : Int) (t : K) : along p q (1 - t) = along q p t := by
  unfold along
  ring

/-- Twice the signed area of a triangle with a third point anywhere. -/
def side (a b : Coord) (x y : K) : K := (b.x - a.x) * (y - a.y) - (x - a.x) * (b.y - a.y)

theorem cast_cross (a b c : Coord) : ((cross a b c : Int) : K) = side a b (c.x : K) c.y := by
  unfold cross side
  push_cast
  ring

theorem side_along (a b : Coord) (t : K) : side a b (along a.x b.x t) (along a.y b.y t) = 0 := by
  unfold side along
  ring

/-- **A point in line with two different ones** lies on the way from the one to the other, before it, or after it. -/
theorem exists_along [CharZero K] {a b : Coord} {x y : K} (hab : a ≠ b) (h : side a b x y = 0) :
    ∃ t : K, along a.x b.x t = x ∧ along a.y b.y t = y := by
  unfold side at h
  unfold along
  by_cases hx : (b.x : K) - a.x = 0
  · have hy : (b.y : K) - a.y ≠ 0 := by
      intro hy
      refine hab ?_
      have h1 : a.x = b.x := (Int.cast_inj.1 (sub_eq_zero.1 hx)).symm
      have h2 : a.y = b.y := (Int.cast_inj.1 (sub_eq_zero.1 hy)).symm
      cases a
      cases b
      simp_all
    rw [hx, zero_mul, zero_sub, neg_eq_zero] at h
    have hxa : x - a.x = 0 := (mul_eq_zero.1 h).resolve_right hy
    refine ⟨(y - a.y) / (b.y - a.y), ?_, ?_⟩
    · rw [hx, mul_zero, add_zero]
      exact (sub_eq_zero.1 hxa).symm
    · rw [div_mul_cancel₀ _ hy]
      ring
  · refine ⟨(x - a.x) / (b.x - a.x), ?_, ?_⟩
    · rw [div_mul_cancel₀ _ hx]
      ring
    · have hline : (x - a.x) * (b.y - a.y) = (b.x - a.x) * (y - a.y) := (sub_eq_zero.1 h).symm
      rw [div_mul_eq_mul_div, hline, mul_div_cancel_left₀ _ hx]
      ring

variable [LinearOrder K] [IsStrictOrderedRing K]

theorem along_mem {p q : Int} {t : K} (h0 : 0 ≤ t) (h1 : t ≤ 1) :
    ((min p q : Int) : K) ≤ along p q t ∧ along p q t ≤ ((max p q : Int) : K) := by
  have hmix : along p q t = (1 - t) * p + t * q := by unfold along; ring
  have hlow : ((min p q : Int) : K) ≤ p ∧ ((min p q : Int) : K) ≤ q :=
    ⟨Int.cast_le.2 (min_le_left p q), Int.cast_le.2 (min_le_right p q)⟩
  have hhigh : (p : K) ≤ ((max p q : Int) : K) ∧ (q : K) ≤ ((max p q : Int) : K) :=
    ⟨Int.cast_le.2 (le_max_left p q), Int.cast_le.2 (le_max_right p q)⟩
  have h1' : 0 ≤ 1 - t := sub_nonneg.2 h1
  rw [hmix]
  constructor
  · linarith [mul_le_mul_of_nonneg_left hlow.1 h1', mul_le_mul_of_nonneg_left hlow.2 h0]
  · linarith [mul_le_mul_of_nonneg_left hhigh.1 h1', mul_le_mul_of_nonneg_left hhigh.2 h0]

/-- The times at which one is strictly between two edges. -/
def Between (lo hi p q : Int) : Set K := fun t => (lo : K) < along p q t ∧ along p q t < hi

omit [IsStrictOrderedRing K] in
theorem mem_between {lo hi p q : Int} {t : K} :
    t ∈ (Between lo hi p q : Set K) ↔ (lo : K) < along p q t ∧ along p q t < hi := Iff.rfl

theorem ordConnected_between (lo hi p q : Int) : (Between lo hi p q : Set K).OrdConnected := by
  refine ⟨fun t ht u hu v hv => ?_⟩
  obtain ⟨htv, hvu⟩ := hv
  rw [mem_between] at *
  unfold along at *
  rcases le_total (0 : K) (q - p) with hd | hd
  · have h1 := mul_le_mul_of_nonneg_right htv hd
    have h2 := mul_le_mul_of_nonneg_right hvu hd
    exact ⟨by linarith [ht.1], by linarith [hu.2]⟩
  · have h1 := mul_le_mul_of_nonpos_right htv hd
    have h2 := mul_le_mul_of_nonpos_right hvu hd
    exact ⟨by linarith [hu.1], by linarith [ht.2]⟩

/-- **Extents that overlap** do so at some time between the ends. -/
theorem exists_time {lo hi p q : Int} (hlh : lo < hi) (h1 : lo < max p q) (h2 : min p q < hi) :
    ∃ t : K, t ∈ Set.Icc (0 : K) 1 ∧ t ∈ Between lo hi p q := by
  have hmain : ∀ {p q : Int}, p ≤ q → lo < q → p < hi → ∃ t : K, t ∈ Set.Icc (0 : K) 1 ∧ t ∈ Between lo hi p q := by
    intro p q hpq hlo hhi
    by_cases hp : lo < p
    · refine ⟨0, ⟨le_rfl, zero_le_one⟩, ?_⟩
      rw [mem_between]
      simp [along, hp, hhi]
    · -- the way begins at the lower edge or below it, and rises above it
      have hpq' : (0 : K) < q - p := sub_pos.2 (Int.cast_lt.2 (by omega))
      obtain ⟨v, hv1, hv2⟩ := exists_between (Int.cast_lt (R := K).2 (lt_min hlo hlh))
      have hvq : v < q := hv2.trans_le (Int.cast_le.2 (min_le_left q hi))
      have hvh : v < hi := hv2.trans_le (Int.cast_le.2 (min_le_right q hi))
      have hpv : (p : K) < v := (Int.cast_le.2 (not_lt.1 hp)).trans_lt hv1
      have hat : along p q ((v - p) / (q - p) : K) = v := by
        unfold along
        rw [div_mul_cancel₀ _ hpq'.ne']
        ring
      refine ⟨(v - p) / (q - p), ⟨div_nonneg (by linarith) hpq'.le, (div_le_one hpq').2 (by linarith)⟩, ?_⟩
      rw [mem_between, hat]
      exact ⟨hv1, hvh⟩
  rcases le_total p q with hpq | hqp
  · rw [max_eq_right hpq] at h1
    rw [min_eq_left hpq] at h2
    exact hmain hpq h1 h2
  · rw [max_eq_left hqp] at h1
    rw [min_eq_right hqp] at h2
    obtain ⟨t, ⟨h0, ht1⟩, ht⟩ := hmain hqp h1 h2
    refine ⟨1 - t, ⟨sub_nonneg.2 ht1, by linarith⟩, ?_⟩
    rw [mem_between, along_swap]
    exact ht

end Planar

namespace Rect

open Planar

variable [LinearOrder K] [IsStrictOrderedRing K] {r : Rect} {a b : Coord}

/-! ## The line of a segment -/

/-- A point strictly inside a rectangle. -/
def HasInside (r : Rect) (x y : K) : Prop := ((r.minX : K) < x ∧ x < r.maxX) ∧ (r.minY : K) < y ∧ y < r.maxY

/-- Corners lie on the edges. -/
theorem cast_corner {c : Coord} (hc : c ∈ r.corners) (hx : r.minX ≤ r.maxX) (hy : r.minY ≤ r.maxY) :
    ((r.minX : K) ≤ c.x ∧ (c.x : K) ≤ r.maxX) ∧ (r.minY : K) ≤ c.y ∧ (c.y : K) ≤ r.maxY := by
  simp only [Int.cast_le]
  simp only [corners, List.mem_cons, List.not_mem_nil, or_false] at hc
  rcases hc with rfl | rfl | rfl | rfl <;> simp [hx, hy]

/-- What is not all the way from the middle to an edge is strictly between the edges. -/
theorem between_of_mix {lo hi m c s : K} (hm : lo < m ∧ m < hi) (hc : lo ≤ c ∧ c ≤ hi) (h0 : 0 ≤ s) (h1 : s < 1) :
    lo < m + s * (c - m) ∧ m + s * (c - m) < hi := by
  have h1' : 0 < 1 - s := sub_pos.2 h1
  constructor
  · linarith [mul_lt_mul_of_pos_left hm.1 h1', mul_le_mul_of_nonneg_left hc.1 h0]
  · linarith [mul_lt_mul_of_pos_left hm.2 h1', mul_le_mul_of_nonneg_left hc.2 h0]

/-- **A line with corners of a rectangle on both sides** has a point strictly inside it. -/
theorem exists_hasInside (hx : r.minX < r.maxX) (hy : r.minY < r.maxY) (hpos : ∃ c ∈ r.corners, 0 < cross a b c)
    (hneg : ∃ c ∈ r.corners, cross a b c < 0) : ∃ x y : K, r.HasInside x y ∧ side a b x y = 0 := by
  -- from the middle towards a corner that is not on the same side
  obtain ⟨mx, hmx⟩ := exists_between (Int.cast_lt (R := K).2 hx)
  obtain ⟨my, hmy⟩ := exists_between (Int.cast_lt (R := K).2 hy)
  have hcorner : ∃ c ∈ r.corners, ∃ s : K, (0 ≤ s ∧ s < 1) ∧
      side a b mx my + s * (side a b (c.x : K) c.y - side a b mx my) = 0 := by
    rcases le_or_gt 0 (side a b mx my) with hm | hm
    · obtain ⟨c, hc, hneg⟩ := hneg
      have hside : side a b (c.x : K) c.y < 0 := by
        rw [← cast_cross]
        exact Int.cast_lt_zero.2 hneg
      have hd : 0 < side a b mx my - side a b (c.x : K) c.y := by linarith
      refine ⟨c, hc, side a b mx my / (side a b mx my - side a b (c.x : K) c.y),
        ⟨div_nonneg hm hd.le, (div_lt_one hd).2 (by linarith)⟩, ?_⟩
      field_simp
      ring
    · obtain ⟨c, hc, hpos⟩ := hpos
      have hside : 0 < side a b (c.x : K) c.y := by
        rw [← cast_cross]
        exact Int.cast_pos.2 hpos
      have hd : 0 < side a b (c.x : K) c.y - side a b mx my := by linarith
      refine ⟨c, hc, -side a b mx my / (side a b (c.x : K) c.y - side a b mx my),
        ⟨div_nonneg (by linarith) hd.le, (div_lt_one hd).2 (by linarith)⟩, ?_⟩
      rw [div_mul_cancel₀ _ hd.ne']
      ring
  obtain ⟨c, hc, s, ⟨h0, h1⟩, hzero⟩ := hcorner
  obtain ⟨hcx, hcy⟩ := cast_corner (K := K) hc hx.le hy.le
  refine ⟨mx + s * (c.x - mx), my + s * (c.y - my), ⟨between_of_mix hmx hcx h0 h1, between_of_mix hmy hcy h0 h1⟩, ?_⟩
  rw [← hzero]
  unfold side
  ring

/-- **A line through a point strictly inside a rectangle** has a corner to its left. -/
theorem exists_corner (hab : a ≠ b) {x y : K} (hin : r.HasInside x y) (hline : side a b x y = 0) :
    ∃ c ∈ r.corners, 0 < cross a b c := by
  obtain ⟨⟨hx1, hx2⟩, hy1, hy2⟩ := hin
  -- the corner to go to depends on the direction of the line
  have hleft : ∀ cx cy : Int, ⟨cx, cy⟩ ∈ r.corners →
      0 < ((b.x : K) - a.x) * (cy - y) - (cx - x) * (b.y - a.y) → ∃ c ∈ r.corners, 0 < cross a b c := by
    intro cx cy hc h
    refine ⟨⟨cx, cy⟩, hc, ?_⟩
    rw [← Int.cast_pos (R := K), cast_cross]
    unfold side at *
    linarith
  have hcorners : ⟨r.maxX, r.minY⟩ ∈ r.corners ∧ ⟨r.maxX, r.maxY⟩ ∈ r.corners ∧ ⟨r.minX, r.maxY⟩ ∈ r.corners ∧
      ⟨r.minX, r.minY⟩ ∈ r.corners := by simp [corners]
  obtain ⟨hlr, hur, hul, hll⟩ := hcorners
  rcases lt_trichotomy ((b.x : K) - a.x) 0 with hdx | hdx | hdx
  · rcases le_total ((b.y : K) - a.y) 0 with hdy | hdy
    · exact hleft _ _ hlr (by linarith [mul_pos_of_neg_of_neg hdx (sub_neg.2 hy1),
        mul_nonpos_of_nonneg_of_nonpos (sub_pos.2 hx2).le hdy])
    · exact hleft _ _ hll (by linarith [mul_pos_of_neg_of_neg hdx (sub_neg.2 hy1),
        mul_nonpos_of_nonpos_of_nonneg (sub_neg.2 hx1).le hdy])
  · have hdy : (b.y : K) - a.y ≠ 0 := by
      intro hdy
      refine hab ?_
      have h1 : b.x = a.x := Int.cast_inj.1 (sub_eq_zero.1 hdx)
      have h2 : b.y = a.y := Int.cast_inj.1 (sub_eq_zero.1 hdy)
      cases a
      cases b
      simp_all
    rcases lt_or_gt_of_ne hdy with hdy | hdy
    · refine hleft _ _ hur ?_
      rw [hdx, zero_mul, zero_sub, neg_pos]
      exact mul_neg_of_pos_of_neg (sub_pos.2 hx2) hdy
    · refine hleft _ _ hul ?_
      rw [hdx, zero_mul, zero_sub, neg_pos]
      exact mul_neg_of_neg_of_pos (sub_neg.2 hx1) hdy
  · rcases le_total ((b.y : K) - a.y) 0 with hdy | hdy
    · exact hleft _ _ hur (by linarith [mul_pos hdx (sub_pos.2 hy2),
        mul_nonpos_of_nonneg_of_nonpos (sub_pos.2 hx2).le hdy])
    · exact hleft _ _ hul (by linarith [mul_pos hdx (sub_pos.2 hy2),
        mul_nonpos_of_nonpos_of_nonneg (sub_neg.2 hx1).le hdy])

/-! ## Segments -/

/-- Some point of a segment, its ends included, lies strictly inside the rectangle. -/
def Crosses (K : Type) [Field K] [LinearOrder K] (r : Rect) (a b : Coord) : Prop :=
  ∃ t : K, t ∈ Set.Icc (0 : K) 1 ∧ r.HasInside (along a.x b.x t) (along a.y b.y t)

theorem Crosses.symm (h : r.Crosses K a b) : r.Crosses K b a := by
  obtain ⟨t, ⟨h0, h1⟩, hin⟩ := h
  refine ⟨1 - t, ⟨sub_nonneg.2 h1, by linarith⟩, ?_⟩
  rwa [along_swap, along_swap]

theorem meetsInside_eq_true : r.meetsInside a b = true ↔
    ((r.minX < max a.x b.x ∧ min a.x b.x < r.maxX) ∧ r.minY < max a.y b.y ∧ min a.y b.y < r.maxY) ∧
      (a = b ∨ (∃ c ∈ r.corners, 0 < cross a b c) ∧ ∃ c ∈ r.corners, cross a b c < 0) := by
  unfold meetsInside
  simp [and_assoc]

/-- **The test decides whether a segment has a point strictly inside a rectangle.** -/
theorem meetsInside_iff (K : Type) [Field K] [LinearOrder K] [IsStrictOrderedRing K] (hx : r.minX < r.maxX)
    (hy : r.minY < r.maxY) (a b : Coord) : r.meetsInside a b = true ↔ r.Crosses K a b := by
  rw [meetsInside_eq_true]
  constructor
  · rintro ⟨⟨⟨hx1, hx2⟩, hy1, hy2⟩, hsides⟩
    rcases hsides with rfl | ⟨hpos, hneg⟩
    · rw [max_self] at hx1 hy1
      rw [min_self] at hx2 hy2
      refine ⟨0, ⟨le_rfl, zero_le_one⟩, ?_⟩
      simp [HasInside, along, hx1, hx2, hy1, hy2]
    · have hab : a ≠ b := by
        rintro rfl
        obtain ⟨c, -, hc⟩ := hpos
        simp [cross] at hc
      obtain ⟨x, y, ⟨hinx, hiny⟩, hline⟩ := exists_hasInside (K := K) hx hy hpos hneg
      obtain ⟨t, rfl, rfl⟩ := exists_along hab hline
      obtain ⟨u, hu⟩ := exists_time (K := K) hx hx1 hx2
      obtain ⟨v, hv⟩ := exists_time (K := K) hy hy1 hy2
      obtain ⟨w, hw, hwx, hwy⟩ := exists_mem_of_pairwise Set.ordConnected_Icc (ordConnected_between ..)
        (ordConnected_between ..) hu ⟨hinx, hiny⟩ hv
      exact ⟨w, hw, hwx, hwy⟩
  · rintro ⟨t, ⟨h0, h1⟩, hin⟩
    obtain ⟨hlx, hux⟩ := along_mem (p := a.x) (q := b.x) h0 h1
    obtain ⟨hly, huy⟩ := along_mem (p := a.y) (q := b.y) h0 h1
    refine ⟨⟨⟨?_, ?_⟩, ?_, ?_⟩, ?_⟩
    · exact Int.cast_lt.1 (hin.1.1.trans_le hux)
    · exact Int.cast_lt.1 (hlx.trans_lt hin.1.2)
    · exact Int.cast_lt.1 (hin.2.1.trans_le huy)
    · exact Int.cast_lt.1 (hly.trans_lt hin.2.2)
    · refine (eq_or_ne a b).imp id fun hab => ⟨exists_corner hab hin (side_along a b t), ?_⟩
      -- what is to the right of a segment is to the left of the way back
      have hback : side b a (along a.x b.x t) (along a.y b.y t) = 0 := by
        rw [← neg_eq_zero, ← side_along a b t]
        unfold side
        ring
      obtain ⟨c, hc, hleft⟩ := exists_corner hab.symm hin hback
      refine ⟨c, hc, ?_⟩
      have hcross : cross a b c = -cross b a c := by
        unfold cross
        ring
      omega

end Rect
end TileAtlas
