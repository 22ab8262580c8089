import Mathlib.Data.List.Chain
import TileAtlas.Simplify
/-!
# Measuring every triangle each time

The plain way to thin a line: what it drops is the vertex of the first of the smallest triangles
(`Thinning.smallest_triangles`), and as many steps are enough as there are inner vertices
(`Thinning.runNaively_add`).  Nothing here depends on what areas and lengths are.
-/
namespace TileAtlas

variable {A L : Type}

/-- Any two areas can be compared, and comparisons can be chained.  Different areas may be as small as one another. -/
structure ThinningMeasure.IsOrdered (m : ThinningMeasure A L) : Prop where
  total : ∀ a b, m.areaLE a b = true ∨ m.areaLE b a = true
  trans : ∀ {a b c}, m.areaLE a b = true → m.areaLE b c = true → m.areaLE a c = true

namespace Thinning

variable {m : ThinningMeasure A L}

/-! ## The first of the smallest -/

theorem mem_of_smallest : ∀ {ts : List (A × Nat)} {t : A × Nat}, smallest m ts = some t → t ∈ ts
  | u :: ts, t, h => by
    rw [smallest] at h
    split at h
    · cases h
      exact List.mem_cons_self
    · rename_i v hv
      split at h <;> cases h
      · exact List.mem_cons_self
      · exact List.mem_cons_of_mem _ (mem_of_smallest hv)

theorem smallest_eq_none_iff {ts : List (A × Nat)} : smallest m ts = none ↔ ts = [] := by
  cases ts with
  | nil => exact iff_of_true rfl rfl
  | cons t ts =>
    refine iff_of_false ?_ (List.cons_ne_nil t ts)
    rw [smallest]
    split
    · exact nofun
    · split <;> exact nofun

/-- **The first of the smallest** is not larger than what comes after it, and smaller than what comes before it. -/
theorem smallest_eq {t : A × Nat} {post : List (A × Nat)} (hpost : ∀ u ∈ post, m.areaLE t.1 u.1 = true) :
    ∀ {pre : List (A × Nat)}, (∀ u ∈ pre, m.areaLE u.1 t.1 = false) → smallest m (pre ++ t :: post) = some t
  | [], _ => by
    rw [List.nil_append, smallest]
    split
    · rfl
    · rename_i u hu
      rw [if_pos (hpost u (mem_of_smallest hu))]
  | u :: pre, hpre => by
    rw [List.cons_append, smallest, smallest_eq hpost fun v hv => hpre v (List.mem_cons_of_mem _ hv)]
    simp only [hpre u List.mem_cons_self, Bool.false_eq_true, if_false]

/-! ## Triangles -/

theorem exists_of_mem_triangles {f : Nat → Point} {t : A × Nat} : ∀ (vs : List Nat) {i : Nat},
    t ∈ triangles m i (vs.map f) → ∃ x y z, [x, y, z] <:+: vs ∧ t.1 = m.area (f x) (f y) (f z)
  | x :: y :: z :: vs, i, h => by
    rcases List.mem_cons.1 h with rfl | h
    · exact ⟨x, y, z, (List.prefix_append [x, y, z] vs).isInfix, rfl⟩
    · obtain ⟨x', y', z', hin, harea⟩ := exists_of_mem_triangles (y :: z :: vs) h
      exact ⟨x', y', z', List.infix_cons hin, harea⟩
  | [], _, h => by cases h
  | [_], _, h => by cases h
  | [_, _], _, h => by cases h

/-- The triangles are those up to a vertex, that of this vertex, and those from it on. -/
theorem triangles_append (b v a : Point) (post : List Point) : ∀ (pre : List Point) (i : Nat),
    triangles m i (pre ++ b :: v :: a :: post) = triangles m i (pre ++ [b, v]) ++
      (m.area b v a, i + pre.length + 1) :: triangles m (i + pre.length + 1) (v :: a :: post)
  | [], i => rfl
  | [x], i => rfl
  | x :: y :: pre, i => by
    have ih := triangles_append b v a post (y :: pre) (i + 1)
    have hindex : i + (x :: y :: pre).length = i + 1 + (y :: pre).length := by simp only [List.length_cons]; omega
    rw [hindex]
    cases pre with
    | nil => exact congrArg (_ :: ·) ih
    | cons z pre => exact congrArg (_ :: ·) ih

/-- **The vertex that is dropped:** its triangle is smaller than those before it, and not larger than those after. -/
theorem smallest_triangles {f : Nat → Point} {pre post : List Nat} {b v a : Nat}
    (hpre : ∀ x y z, [x, y, z] <:+: pre ++ [b, v] →
      m.areaLE (m.area (f x) (f y) (f z)) (m.area (f b) (f v) (f a)) = false)
    (hpost : ∀ x y z, [x, y, z] <:+: v :: a :: post →
      m.areaLE (m.area (f b) (f v) (f a)) (m.area (f x) (f y) (f z)) = true) :
    smallest m (triangles m 0 ((pre ++ b :: v :: a :: post).map f)) =
      some (m.area (f b) (f v) (f a), pre.length + 1) := by
  -- triangles are those of points, but it is their vertices that are compared
  have hsplit := triangles_append (m := m) (f b) (f v) (f a) (post.map f) (pre.map f) 0
  rw [List.length_map, Nat.zero_add] at hsplit
  rw [List.map_append, List.map_cons, List.map_cons, List.map_cons, hsplit]
  refine smallest_eq (fun u hu => ?_) fun u hu => ?_
  · obtain ⟨x, y, z, hin, harea⟩ := exists_of_mem_triangles (v :: a :: post) hu
    rw [harea]
    exact hpost x y z hin
  · have hmap : pre.map f ++ [f b, f v] = (pre ++ [b, v]).map f := by rw [List.map_append]; rfl
    rw [hmap] at hu
    obtain ⟨x, y, z, hin, harea⟩ := exists_of_mem_triangles (pre ++ [b, v]) hu
    rw [harea]
    exact hpre x y z hin

/-! ## Dropping vertices -/

/-- Whether thinning ends with these points left. -/
def isDoneAt (m : ThinningMeasure A L) (stop : Nat) (length : L) (count : Nat) : Bool :=
  count < stop || m.longEnough length (count - 1)

theorem runNaively_of_isDone {stop : Nat} {length : L} {ps : List Point}
    (h : isDoneAt m stop length ps.length = true) : ∀ k, runNaively m stop k length ps = ps
  | 0 => rfl
  | k + 1 => by
    rw [runNaively]
    split
    · rfl
    · exact if_pos h

theorem runNaively_of_short {stop : Nat} {length : L} {ps : List Point} (h : ps.length ≤ 2) :
    ∀ k, runNaively m stop k length ps = ps
  | 0 => rfl
  | k + 1 => by
    have hnone : triangles m 0 ps = [] := by
      match ps, h with
      | [], _ => rfl
      | [a], _ => rfl
      | [a, b], _ => rfl
    rw [runNaively, hnone]
    rfl

/-- **A step,** unless thinning ends, drops the vertex of the first of the smallest triangles. -/
theorem runNaively_succ {stop k : Nat} {length : L} {ps : List Point} {t : A × Nat} {a b c : Point}
    (hs : smallest m (triangles m 0 ps) = some t) (ha : ps[t.2 - 1]? = some a) (hb : ps[t.2]? = some b)
    (hc : ps[t.2 + 1]? = some c) :
    runNaively m stop (k + 1) length ps =
      if isDoneAt m stop length ps.length then ps
      else runNaively m stop k (m.shortcut length a b c) (ps.eraseIdx t.2) := by
  rw [runNaively, hs]
  dsimp only
  rw [ha, hb, hc]
  rfl

theorem runNaively_vertices {f : Nat → Point} {stop k : Nat} {length : L} {pre post : List Nat} {b v a : Nat}
    (hs : smallest m (triangles m 0 ((pre ++ b :: v :: a :: post).map f)) =
      some (m.area (f b) (f v) (f a), pre.length + 1)) :
    runNaively m stop (k + 1) length ((pre ++ b :: v :: a :: post).map f) =
      if isDoneAt m stop length (pre ++ b :: v :: a :: post).length then (pre ++ b :: v :: a :: post).map f
      else runNaively m stop k (m.shortcut length (f b) (f v) (f a)) ((pre ++ b :: a :: post).map f) := by
  have hget : ∀ j, ((pre ++ b :: v :: a :: post).map f)[pre.length + j]? = ((b :: v :: a :: post).map f)[j]? := fun j => by
    rw [List.map_append, List.getElem?_append_right (by rw [List.length_map]; omega), List.length_map,
      Nat.add_sub_cancel_left]
  have herase : ((pre ++ b :: v :: a :: post).map f).eraseIdx (pre.length + 1) = (pre ++ b :: a :: post).map f := by
    rw [List.map_append, List.eraseIdx_append_of_length_le (by simp), List.length_map, Nat.add_sub_cancel_left,
      List.map_append]
    rfl
  rw [runNaively_succ hs (hget 0) (hget 1) (hget 2), herase, List.length_map]

theorem index_of_mem_triangles {t : A × Nat} : ∀ (ps : List Point) {i : Nat}, t ∈ triangles m i ps →
    i < t.2 ∧ t.2 + 1 < i + ps.length
  | a :: b :: c :: ps, i, h => by
    rcases List.mem_cons.1 h with rfl | h
    · simp only [List.length_cons]; omega
    · have ih := index_of_mem_triangles (b :: c :: ps) h
      simp only [List.length_cons] at ih ⊢
      omega
  | [], _, h => by cases h
  | [_], _, h => by cases h
  | [_, _], _, h => by cases h

/-- **What a step does:** it ends, or it drops one certain inner vertex. -/
theorem exists_runNaively_succ (length : L) {ps : List Point} (h : 2 < ps.length) :
    ∃ i length', 0 < i ∧ i + 1 < ps.length ∧ ∀ stop k, runNaively m stop (k + 1) length ps =
      if isDoneAt m stop length ps.length then ps else runNaively m stop k length' (ps.eraseIdx i) := by
  cases hs : smallest m (triangles m 0 ps) with
  | none =>
    match ps, h with
    | a :: b :: c :: ps, _ => cases smallest_eq_none_iff.1 hs
  | some t =>
    obtain ⟨hpos, hlt⟩ := index_of_mem_triangles ps (mem_of_smallest hs)
    rw [Nat.zero_add] at hlt
    exact ⟨t.2, m.shortcut length ps[t.2 - 1] ps[t.2] ps[t.2 + 1], hpos, hlt, fun stop k =>
      runNaively_succ hs (List.getElem?_eq_getElem _) (List.getElem?_eq_getElem _) (List.getElem?_eq_getElem hlt)⟩

/-- **Enough steps:** once there can be no inner vertex left, further steps change nothing. -/
theorem runNaively_add {stop : Nat} (j : Nat) : ∀ {k : Nat} {length : L} {ps : List Point}, ps.length ≤ k + 2 →
    runNaively m stop (k + j) length ps = runNaively m stop k length ps
  | 0, length, ps, h => by rw [runNaively_of_short h, runNaively_of_short h]
  | k + 1, length, ps, h => by
    by_cases hshort : ps.length ≤ 2
    · rw [runNaively_of_short hshort, runNaively_of_short hshort]
    · obtain ⟨i, length', hpos, hlt, hstep⟩ := exists_runNaively_succ (m := m) length (by omega : 2 < ps.length)
      have hlength : (ps.eraseIdx i).length ≤ k + 2 := by rw [List.length_eraseIdx_of_lt (by omega)]; omega
      rw [Nat.succ_add, hstep, hstep, runNaively_add j hlength]

end Thinning
end TileAtlas
