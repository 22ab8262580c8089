import Mathlib.Algebra.Group.Int.Defs
import Mathlib.Algebra.GroupWithZero.Nat
import TileAtlas.Tile.Position
/-!
# Positions and their columns and rows

Interleaving two words of 32 bits, and taking every second bit of a word of 64, undo one another
(`gatherBits_low`, `gatherBits_high`, `interleave_gatherBits`), and so do folding the signed numbers onto
the naturals and unfolding them.  So every position is that of its own column and row
(`TilePosition.ofCoords_coords`), and a column and a row that fit are read back.
-/
namespace TileAtlas

/-! ## Signed numbers -/

theorem unzigzag_zigzag {v : Int} (hlo : -(2 ^ 31) ≤ v) (hhi : v < 2 ^ 31) : unzigzag (zigzag v) = v := by
  have hsize : (UInt32.size : Int) = 2 ^ 32 := rfl
  unfold zigzag unzigzag
  by_cases hv : 0 ≤ v
  · rw [if_pos hv, hsize]; split <;> omega
  · rw [if_neg hv, hsize]; split <;> omega

theorem zigzag_unzigzag {n : Nat} (h : n < 2 ^ 32) : zigzag (unzigzag n) = n := by
  have hsize : (UInt32.size : Int) = 2 ^ 32 := rfl
  unfold zigzag unzigzag
  by_cases hn : n % 2 = 0
  · rw [if_pos hn, hsize]; split <;> omega
  · rw [if_neg hn, hsize]; split <;> omega

theorem unzigzag_fits {n : Nat} (h : n < 2 ^ 32) : -(2 ^ 31) ≤ unzigzag n ∧ unzigzag n < 2 ^ 31 := by
  unfold unzigzag
  split <;> omega

theorem zigzag_lt_size (v : Int) : zigzag v < 2 ^ 32 := by
  have hsize : (UInt32.size : Int) = 2 ^ 32 := rfl
  unfold zigzag
  rw [hsize]
  omega

/-! ## Bits at even and at odd places -/

/-- Two words with their bits interleaved. -/
def interleave (k v w : Nat) : Nat := spreadBits k v + 2 * spreadBits k w

theorem interleave_succ (k v w : Nat) :
    interleave (k + 1) v w = v % 2 + 2 * (w % 2) + 4 * interleave k (v / 2) (w / 2) := by
  rw [interleave, interleave, spreadBits, spreadBits]
  omega

theorem interleave_lt : ∀ k v w : Nat, interleave k v w < 4 ^ k
  | 0, _, _ => by simp [interleave, spreadBits]
  | k + 1, v, w => by
    have ih := interleave_lt k (v / 2) (w / 2)
    rw [interleave_succ, Nat.pow_succ]
    omega

theorem mod_two_pow_succ (v k : Nat) : v % 2 ^ (k + 1) = v % 2 + 2 * (v / 2 % 2 ^ k) := by
  rw [Nat.pow_succ', Nat.mod_mul]

theorem gatherBits_low : ∀ k v w : Nat, gatherBits k (interleave k v w) = v % 2 ^ k
  | 0, v, w => by simp [gatherBits, Nat.mod_one]
  | k + 1, v, w => by
    have hlow : interleave (k + 1) v w % 2 = v % 2 := by rw [interleave_succ]; omega
    have hrest : interleave (k + 1) v w / 4 = interleave k (v / 2) (w / 2) := by rw [interleave_succ]; omega
    rw [gatherBits, hlow, hrest, gatherBits_low k, mod_two_pow_succ]

theorem gatherBits_high : ∀ k v w : Nat, gatherBits k (interleave k v w / 2) = w % 2 ^ k
  | 0, v, w => by simp [gatherBits, Nat.mod_one]
  | k + 1, v, w => by
    have hlow : interleave (k + 1) v w / 2 % 2 = w % 2 := by rw [interleave_succ]; omega
    have hrest : interleave (k + 1) v w / 2 / 4 = interleave k (v / 2) (w / 2) / 2 := by rw [interleave_succ]; omega
    rw [gatherBits, hlow, hrest, gatherBits_high k, mod_two_pow_succ]

theorem gatherBits_lt : ∀ k n : Nat, gatherBits k n < 2 ^ k
  | 0, _ => by simp [gatherBits]
  | k + 1, n => by
    have ih := gatherBits_lt k (n / 4)
    rw [gatherBits, Nat.pow_succ]
    omega

/-- **A word is its even bits interleaved with its odd ones.** -/
theorem interleave_gatherBits : ∀ k n : Nat, interleave k (gatherBits k n) (gatherBits k (n / 2)) = n % 4 ^ k
  | 0, n => by simp [interleave, spreadBits, Nat.mod_one]
  | k + 1, n => by
    have heven : gatherBits (k + 1) n % 2 = n % 2 ∧ gatherBits (k + 1) n / 2 = gatherBits k (n / 4) := by
      rw [gatherBits]; omega
    have hodd : gatherBits (k + 1) (n / 2) % 2 = n / 2 % 2 ∧ gatherBits (k + 1) (n / 2) / 2 = gatherBits k (n / 4 / 2) := by
      rw [gatherBits, show n / 2 / 4 = n / 4 / 2 by omega]; omega
    rw [interleave_succ, heven.1, heven.2, hodd.1, hodd.2, interleave_gatherBits k (n / 4), Nat.pow_succ',
      Nat.mod_mul]
    omega

namespace TilePosition

theorem raw_ofCoords (x y : Int) : (ofCoords x y).raw.toNat = interleave 32 (zigzag x) (zigzag y) := by
  rw [ofCoords, UInt64.toNat_ofNat']
  exact Nat.mod_eq_of_lt (interleave_lt 32 _ _)

/-- **A position is that of its column and row.** -/
theorem ofCoords_coords (t : TilePosition) : ofCoords t.x t.y = t := by
  have hraw : (ofCoords t.x t.y).raw.toNat = t.raw.toNat := by
    rw [raw_ofCoords, x, y, zigzag_unzigzag (gatherBits_lt 32 _), zigzag_unzigzag (gatherBits_lt 32 _),
      interleave_gatherBits]
    exact Nat.mod_eq_of_lt t.raw.toNat_lt
  cases t
  exact congrArg mk (UInt64.toNat_inj.1 hraw)

/-- A position has the column and the row that folding and unfolding leave, whether or not those given fit. -/
theorem coords_ofCoords (x y : Int) :
    (ofCoords x y).x = unzigzag (zigzag x) ∧ (ofCoords x y).y = unzigzag (zigzag y) := by
  constructor
  · rw [TilePosition.x, raw_ofCoords, gatherBits_low, Nat.mod_eq_of_lt (zigzag_lt_size x)]
  · rw [TilePosition.y, raw_ofCoords, gatherBits_high, Nat.mod_eq_of_lt (zigzag_lt_size y)]

theorem x_ofCoords {x : Int} (hlo : -(2 ^ 31) ≤ x) (hhi : x < 2 ^ 31) (y : Int) : (ofCoords x y).x = x :=
  (coords_ofCoords x y).1.trans (unzigzag_zigzag hlo hhi)

theorem y_ofCoords {y : Int} (hlo : -(2 ^ 31) ≤ y) (hhi : y < 2 ^ 31) (x : Int) : (ofCoords x y).y = y :=
  (coords_ofCoords x y).2.trans (unzigzag_zigzag hlo hhi)

/-- Positions in the same column and row are the same. -/
theorem eq_of_coords {t u : TilePosition} (hx : t.x = u.x) (hy : t.y = u.y) : t = u := by
  rw [← ofCoords_coords t, ← ofCoords_coords u, hx, hy]

/-- No position lies outside the numbers of 32 bits. -/
theorem coords_fit (t : TilePosition) : (-(2 ^ 31) ≤ t.x ∧ t.x < 2 ^ 31) ∧ -(2 ^ 31) ≤ t.y ∧ t.y < 2 ^ 31 :=
  ⟨unzigzag_fits (gatherBits_lt 32 _), unzigzag_fits (gatherBits_lt 32 _)⟩

end TilePosition
end TileAtlas
