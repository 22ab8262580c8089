import TileAtlas.Proofs.Thinning.Refinement
/-!
# How few vertices are left

Vertices are dropped while no fewer than the smallest number wanted are left, so that in the end there may be one fewer
(`Simplifier.simplify_size`).  It is the next one that the same rule would have dropped, and none but this one.  At the
finest level, where all are wanted, a line of short segments loses a vertex, too (`Simplifier.simplify_below`).
-/
namespace TileAtlas

namespace Thinning

variable {A L : Type} {m : ThinningMeasure A L} {stop : Nat}

theorem le_length_runNaively : ∀ (k : Nat) (length : L) {ps : List Point}, stop ≤ ps.length →
    stop ≤ (runNaively m (stop + 1) k length ps).length
  | 0, length, ps, h => h
  | k + 1, length, ps, h => by
    by_cases hshort : ps.length ≤ 2
    · rw [runNaively_of_short hshort]
      exact h
    · obtain ⟨i, length', hpos, hlt, hstep⟩ := exists_runNaively_succ (m := m) length (by omega : 2 < ps.length)
      rw [hstep]
      split
      · exact h
      · rename_i hgo
        have hmore : ¬ ps.length < stop + 1 := fun hfew => hgo (by rw [isDoneAt, decide_eq_true hfew, Bool.true_or])
        exact le_length_runNaively k length' (by rw [List.length_eraseIdx_of_lt (by omega)]; omega)

/-- **One vertex more or none:** dropping while that many are left, and while more than that many are. -/
theorem runNaively_stop : ∀ (k : Nat) (length : L) (ps : List Point),
    runNaively m stop k length ps = runNaively m (stop + 1) k length ps ∨
    (runNaively m (stop + 1) k length ps).length = stop ∧ ∃ i, 0 < i ∧ i + 1 < stop ∧
      runNaively m stop k length ps = (runNaively m (stop + 1) k length ps).eraseIdx i
  | 0, _, _ => .inl rfl
  | k + 1, length, ps => by
    by_cases hshort : ps.length ≤ 2
    · rw [runNaively_of_short hshort, runNaively_of_short hshort]
      exact .inl rfl
    obtain ⟨i, length', hpos, hlt, hstep⟩ := exists_runNaively_succ (m := m) length (by omega : 2 < ps.length)
    have herase : (ps.eraseIdx i).length = ps.length - 1 := List.length_eraseIdx_of_lt (by omega)
    rw [hstep, hstep]
    cases hlong : m.longEnough length (ps.length - 1) with
    | true =>
      rw [if_pos (by rw [isDoneAt, hlong, Bool.or_true]), if_pos (by rw [isDoneAt, hlong, Bool.or_true])]
      exact .inl rfl
    | false =>
      have hdone : ∀ few, isDoneAt m few length ps.length = decide (ps.length < few) := fun few => by
        rw [isDoneAt, hlong, Bool.or_false]
      rw [hdone, hdone]
      simp only [decide_eq_true_eq]
      rcases Nat.lt_trichotomy ps.length stop with hfew | heq | hmany
      · rw [if_pos hfew, if_pos (by omega)]
        exact .inl rfl
      · -- exactly that many are left: only one of the two goes on, and ends then
        have hend : isDoneAt m stop length' (ps.eraseIdx i).length = true := by
          rw [isDoneAt, decide_eq_true (by omega), Bool.true_or]
        rw [if_neg (by omega), if_pos (by omega), runNaively_of_isDone hend]
        exact .inr ⟨heq, i, hpos, by omega, rfl⟩
      · rw [if_neg (by omega), if_neg (by omega)]
        exact runNaively_stop k length' (ps.eraseIdx i)

end Thinning

open Thinning

namespace Simplifier

theorem eq_of_accept {density : Float} {closed : Bool} {ps qs : List Point} (h : accept density closed ps = some qs) :
    qs = ps := by
  unfold accept at h
  split at h
  · split at h <;> cases h
    rfl
  · split at h
    · cases h
    · cases h
    · split at h <;> cases h
      rfl
    · cases h
      rfl

/-- **What is left** is what is left when vertices are dropped only while more than the smallest number wanted are left,
or that without one more inner vertex if there are exactly so many. -/
theorem simplify_size {s : Simplifier} {level : TileLevel} {closed : Bool} {points qs : List Point}
    (h : s.simplify level closed points = some qs) :
    let few := points.length >>> level.val
    let kept := thinNaively (measure (s.minimumDensity level)) (few + 1) points
    few ≤ kept.length ∧ (qs = kept ∨ kept.length = few ∧ ∃ i, 0 < i ∧ i + 1 < few ∧ qs = kept.eraseIdx i) ∧
      few ≤ qs.length + 1 ∧ (level = .finest → kept = points) := by
  intro few kept
  rw [simplify_eq] at h
  obtain rfl := eq_of_accept h
  have hfew : few ≤ points.length := Nat.shiftRight_le points.length level.val
  have hkept : few ≤ kept.length := le_length_runNaively _ _ hfew
  have hcases : thinNaively (measure (s.minimumDensity level)) few points = kept ∨
      kept.length = few ∧ ∃ i, 0 < i ∧ i + 1 < few ∧
        thinNaively (measure (s.minimumDensity level)) few points = kept.eraseIdx i := runNaively_stop _ _ _
  refine ⟨hkept, hcases, ?_, ?_⟩
  · rcases hcases with heq | ⟨hlength, i, -, hlt, heq⟩
    · rw [heq]
      exact hkept.trans (Nat.le_succ _)
    · rw [heq, List.length_eraseIdx_of_lt (by omega)]
      omega
  · rintro rfl
    refine runNaively_of_isDone ?_ _
    rw [isDoneAt, decide_eq_true (show points.length < few + 1 from Nat.lt_succ_self points.length), Bool.true_or]

/-- A line at the finest level. -/
theorem simplify_size_finest :
    let points : List Point := [⟨0, 0⟩, ⟨1, 1⟩, ⟨2, 0⟩, ⟨3, 3⟩, ⟨4, 0⟩]
    ∃ qs, ({} : Simplifier).simplify .finest false points = some qs ∧ points.length ≤ qs.length + 1 ∧
      qs = points.eraseIdx 1 := by
  intro points
  have hrun : ({} : Simplifier).simplify .finest false points = some (points.eraseIdx 1) := by
    rw [simplify_eq]
    decide +kernel
  exact ⟨_, hrun, (simplify_size hrun).2.2.1, rfl⟩

/-- **At the finest level, where all vertices are wanted,** a line whose segments are too short loses one. -/
theorem simplify_below :
    let points : List Point := [⟨0, 0⟩, ⟨1, 1⟩, ⟨2, 0⟩, ⟨3, 3⟩]
    ∃ qs, ({} : Simplifier).simplify .finest false points = some qs ∧
      qs.length < points.length >>> TileLevel.finest.val := by
  intro points
  refine ⟨points.eraseIdx 1, ?_, by decide⟩
  rw [simplify_eq]
  decide +kernel

end Simplifier
end TileAtlas
