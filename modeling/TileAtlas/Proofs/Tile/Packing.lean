import Mathlib.Algebra.Ring.Parity
import Mathlib.Tactic.Ring
import TileAtlas.Proofs.Keys
import TileAtlas.Proofs.Tile.Position
/-!
# Positions as words

A word spreads its bits to the even places in five steps: every group of bits is cut in two halves, the upper half
moves up by the width of a half, and a mask clears what the shift left behind.  The steps backwards gather the bits.
One invariant carries both ways, that a word holds a number in groups of so many bits (`Word.HeldIn`): spreading halves
the groups, gathering doubles them, and in groups of one bit the number is spread.

So the position that words compute is that of the column and row (`TilePosition.raw_ofCoords_eq`), and since each is
read back from the other, positions are the pairs of numbers of 32 bits, one for each word of 64 bits
(`TilePosition.packing_exact`).
-/
namespace TileAtlas

/-! ## Single bits -/

theorem testBit_four_mul_add {v : Nat} (hv : v < 4) (w p : Nat) : (v + 4 * w).testBit (p + 2) = w.testBit p := by
  rw [Nat.testBit_add_one, Nat.testBit_add_one, Nat.div_div_eq_div_mul, show (v + 4 * w) / (2 * 2) = w by omega]

/-- Two interleaved words take turns, bit by bit. -/
theorem testBit_interleave : ∀ k v w p : Nat,
    (interleave k v w).testBit (2 * p) = (decide (p < k) && v.testBit p) ∧
      (interleave k v w).testBit (2 * p + 1) = (decide (p < k) && w.testBit p)
  | 0, v, w, p => by simp [interleave, spreadBits]
  | k + 1, v, w, 0 => by
    rw [interleave_succ, Nat.mul_zero, Nat.testBit_add_one]
    simp only [Nat.testBit_zero, Nat.zero_lt_succ, decide_true, Bool.true_and, decide_eq_decide]
    omega
  | k + 1, v, w, p + 1 => by
    obtain ⟨heven, hodd⟩ := testBit_interleave k (v / 2) (w / 2) p
    have hlow : v % 2 + 2 * (w % 2) < 4 := by omega
    rw [interleave_succ, show 2 * (p + 1) = 2 * p + 2 by omega, testBit_four_mul_add hlow, heven,
      show 2 * p + 2 + 1 = 2 * p + 1 + 2 by omega, testBit_four_mul_add hlow, hodd, Nat.testBit_add_one,
      Nat.testBit_add_one]
    simp

theorem spreadBits_zero : ∀ k : Nat, spreadBits k 0 = 0
  | 0 => rfl
  | k + 1 => by rw [spreadBits, Nat.zero_div, spreadBits_zero k]

/-- Every second bit of a spread number is one of the number, and the others are clear. -/
theorem testBit_spreadBits (k v p : Nat) : (spreadBits k v).testBit (2 * p) = (decide (p < k) && v.testBit p) ∧
    (spreadBits k v).testBit (2 * p + 1) = false := by
  have h := testBit_interleave k v 0 p
  rwa [interleave, spreadBits_zero, Nat.zero_testBit, Bool.and_false] at h

theorem testBit_gatherBits : ∀ k n p : Nat, (gatherBits k n).testBit p = (decide (p < k) && n.testBit (2 * p))
  | 0, n, p => by simp [gatherBits]
  | k + 1, n, 0 => by
    rw [gatherBits]
    simp only [Nat.mul_zero, Nat.testBit_zero, Nat.zero_lt_succ, decide_true, Bool.true_and, decide_eq_decide]
    omega
  | k + 1, n, p + 1 => by
    have hrest : (n % 2 + 2 * gatherBits k (n / 4)) / 2 = gatherBits k (n / 4) := by omega
    rw [gatherBits, Nat.testBit_add_one, hrest, testBit_gatherBits k, show 2 * (p + 1) = 2 * p + 1 + 1 by omega,
      Nat.testBit_add_one, Nat.testBit_add_one, Nat.div_div_eq_div_mul]
    simp

/-! ## Words in groups -/

namespace Word

/-- A mask of groups: of every `2 * g` bits, it keeps the lower `g`. -/
def IsMask (g : Nat) (m : UInt64) : Prop := ∀ p < 64, m.toNat.testBit p = decide (p % (2 * g) < g)

instance (g : Nat) (m : UInt64) : Decidable (IsMask g m) := inferInstanceAs (Decidable (∀ p < 64, _))

/-- A word holds a number in groups of `g` bits: of every `2 * g` bits of the word, the lower `g` are the next of the
number, and the upper are clear. -/
def HeldIn (g v : Nat) (w : UInt64) : Prop :=
  ∀ k s, s < 2 * g → w.toNat.testBit (2 * g * k + s) = (decide (s < g) && v.testBit (g * k + s))

/-- A step that cuts groups in halves of `shift` bits. -/
def spreadStep (shift mask w : UInt64) : UInt64 := (w ||| w <<< shift) &&& mask

/-- A step that joins halves of `shift` bits. -/
def gatherStep (shift mask w : UInt64) : UInt64 := (w ||| w >>> shift) &&& mask

variable {g v : Nat} {w m shift : UInt64}

theorem testBit_of_le (w : UInt64) {p : Nat} (hp : 64 ≤ p) : w.toNat.testBit p = false :=
  Nat.testBit_lt_two_pow (Nat.lt_of_lt_of_le w.toNat_lt (Nat.pow_le_pow_right (by decide) hp))

theorem testBit_number_of_le (hv : v < 2 ^ 32) {p : Nat} (hp : 32 ≤ p) : v.testBit p = false :=
  Nat.testBit_lt_two_pow (Nat.lt_of_lt_of_le hv (Nat.pow_le_pow_right (by decide) hp))

theorem testBit_shiftLeft (hs : shift.toNat = g) (hg : g < 64) {p : Nat} (hp : p < 64) :
    (w <<< shift).toNat.testBit p = (decide (g ≤ p) && w.toNat.testBit (p - g)) := by
  rw [UInt64.toNat_shiftLeft, hs, Nat.mod_eq_of_lt hg, Nat.testBit_mod_two_pow, Nat.testBit_shiftLeft,
    decide_eq_true hp, Bool.true_and]

theorem testBit_shiftRight (hs : shift.toNat = g) (hg : g < 64) (p : Nat) :
    (w >>> shift).toNat.testBit p = w.toNat.testBit (g + p) := by
  rw [UInt64.toNat_shiftRight, hs, Nat.mod_eq_of_lt hg, Nat.testBit_shiftRight]

namespace HeldIn

/-- **Under a mask only the groups that it keeps matter.** -/
theorem of_kept (hv : v < 2 ^ 32) (hm : IsMask g m)
    (hkept : ∀ k s, s < g → 2 * g * k + s < 64 → w.toNat.testBit (2 * g * k + s) = v.testBit (g * k + s)) :
    HeldIn g v (w &&& m) := by
  intro k s hs
  by_cases hp : 2 * g * k + s < 64
  · rw [UInt64.toNat_and, Nat.testBit_and, hm _ hp, Nat.mul_add_mod, Nat.mod_eq_of_lt hs, Bool.and_comm]
    by_cases hlow : s < g
    · rw [hkept k s hlow hp]
    · rw [decide_eq_false hlow, Bool.false_and, Bool.false_and]
  · -- the number ends where the word does
    rw [testBit_of_le _ (Nat.le_of_not_lt hp)]
    by_cases hlow : s < g
    · rw [testBit_number_of_le hv (by rw [Nat.mul_assoc] at hp; omega), Bool.and_false]
    · rw [decide_eq_false hlow, Bool.false_and]

/-- The bit at a place of a group, however the place is written. -/
theorem bit (h : HeldIn g v w) {p : Nat} (k s : Nat) (hp : p = 2 * g * k + s) (hs : s < 2 * g) :
    w.toNat.testBit p = (decide (s < g) && v.testBit (g * k + s)) := hp ▸ h k s hs

/-- **Spreading halves the groups.** -/
theorem spreadStep (h : HeldIn (2 * g) v w) (hv : v < 2 ^ 32) (shift m : UInt64) (hs : shift.toNat = g) (hg : g < 64)
    (hm : IsMask g m) : HeldIn g v (spreadStep shift m w) := by
  refine of_kept hv hm fun k s hlow hp => ?_
  rw [UInt64.toNat_or, Nat.testBit_or, testBit_shiftLeft hs hg hp]
  obtain ⟨q, rfl | rfl⟩ := k.even_or_odd'
  · -- a lower half stays, and what moves onto it comes from the clear part of the group before
    have hstay := h.bit (p := 2 * g * (2 * q) + s) q s (by ring) (by omega)
    have hclear : (decide (g ≤ 2 * g * (2 * q) + s) && w.toNat.testBit (2 * g * (2 * q) + s - g)) = false := by
      cases q with
      | zero => rw [decide_eq_false (by omega), Bool.false_and]
      | succ q =>
        have hplace : 2 * g * (2 * (q + 1)) = 2 * (2 * g) * q + 4 * g := by ring
        rw [h.bit q (3 * g + s) (by omega) (by omega), decide_eq_false (show ¬ 3 * g + s < 2 * g by omega),
          Bool.false_and, Bool.and_false]
    rw [hstay, hclear, Bool.or_false, decide_eq_true (by omega), Bool.true_and]
    congr 1
    ring
  · -- an upper half moves onto places that are clear
    have hplace : 2 * g * (2 * q + 1) = 2 * (2 * g) * q + 2 * g := by ring
    have hclear := h.bit (p := 2 * g * (2 * q + 1) + s) q (2 * g + s) (by omega) (by omega)
    have hmoves := h.bit (p := 2 * g * (2 * q + 1) + s - g) q (g + s) (by omega) (by omega)
    rw [hclear, hmoves, decide_eq_false (by omega), Bool.false_and, Bool.false_or, decide_eq_true (by omega),
      decide_eq_true (by omega), Bool.true_and, Bool.true_and]
    congr 1
    ring

/-- **Gathering doubles the groups.** -/
theorem gatherStep (h : HeldIn g v w) (hv : v < 2 ^ 32) (shift m : UInt64) (hs : shift.toNat = g) (hg : g < 64)
    (hm : IsMask (2 * g) m) : HeldIn (2 * g) v (gatherStep shift m w) := by
  refine of_kept hv hm fun k s hlow hp => ?_
  rw [UInt64.toNat_or, Nat.testBit_or, testBit_shiftRight hs hg]
  have hplace : 2 * g * (2 * k) = 2 * (2 * g) * k := by ring
  have hplace' : 2 * g * (2 * k + 1) = 2 * (2 * g) * k + 2 * g := by ring
  by_cases hhalf : s < g
  · -- the lower half stays, and what moves onto it was clear
    have hstay := h.bit (p := 2 * (2 * g) * k + s) (2 * k) s (by omega) (by omega)
    have hclear := h.bit (p := g + (2 * (2 * g) * k + s)) (2 * k) (g + s) (by omega) (by omega)
    rw [hstay, hclear, decide_eq_false (show ¬ g + s < g by omega), Bool.false_and, Bool.or_false,
      decide_eq_true hhalf, Bool.true_and]
    congr 1
    ring
  · -- the next group moves onto the clear places of this one
    have hclear := h.bit (p := 2 * (2 * g) * k + s) (2 * k) s (by omega) (by omega)
    have hmoves := h.bit (p := g + (2 * (2 * g) * k + s)) (2 * k + 1) (s - g) (by omega) (by omega)
    rw [hclear, hmoves, decide_eq_false hhalf, Bool.false_and, Bool.false_or, decide_eq_true (by omega), Bool.true_and]
    have hnumber : g * (2 * k + 1) = 2 * g * k + g := by ring
    congr 1
    omega

theorem of_word (v : UInt32) : HeldIn 32 v.toNat v.toUInt64 := by
  intro k s hs
  rw [UInt32.toNat_toUInt64]
  cases k with
  | zero =>
    by_cases hlow : s < 32
    · simp [hlow]
    · simp [hlow, testBit_number_of_le v.toNat_lt (Nat.le_of_not_lt hlow)]
  | succ k =>
    rw [testBit_number_of_le v.toNat_lt (by omega), testBit_number_of_le v.toNat_lt (by omega), Bool.and_false]

theorem of_evenPlaces (w : UInt64) : HeldIn 1 (gatherBits 32 w.toNat) (w &&& 0x5555555555555555) := by
  refine of_kept (gatherBits_lt 32 _) (by decide) fun k s hs hp => ?_
  obtain rfl : s = 0 := by omega
  rw [testBit_gatherBits, decide_eq_true (by omega), Bool.true_and]
  congr 1
  omega

/-- In groups of all its bits the number is the word. -/
theorem toNat_eq (h : HeldIn 32 v w) (hv : v < 2 ^ 32) : w.toNat = v := by
  refine Nat.eq_of_testBit_eq fun p => ?_
  by_cases hp : p < 32
  · rw [h.bit 0 p (by omega) (by omega), decide_eq_true hp, Bool.true_and, Nat.mul_zero, Nat.zero_add]
  · rw [testBit_number_of_le hv (Nat.le_of_not_lt hp), h.bit (p / 64) (p % 64) (by omega) (by omega)]
    by_cases hlow : p % 64 < 32
    · rw [testBit_number_of_le hv (by omega), Bool.and_false]
    · rw [decide_eq_false hlow, Bool.false_and]

/-- In groups of one bit the number is spread. -/
theorem toNat_eq_spreadBits (h : HeldIn 1 v w) (hv : v < 2 ^ 32) : w.toNat = spreadBits 32 v := by
  refine Nat.eq_of_testBit_eq fun p => ?_
  obtain ⟨q, rfl | rfl⟩ := p.even_or_odd'
  · rw [h.bit q 0 (by omega) (by omega), (testBit_spreadBits 32 v q).1]
    by_cases hq : q < 32
    · simp [hq]
    · simp [testBit_number_of_le hv (Nat.le_of_not_lt hq)]
  · rw [h.bit q 1 (by omega) (by omega), (testBit_spreadBits 32 v q).2]
    rfl

end HeldIn

/-! ## Arithmetic of words -/

/-- The bits of a word moved to the even places, in five steps. -/
def spread (v : UInt32) : UInt64 :=
  Word.spreadStep 1 0x5555555555555555 <| Word.spreadStep 2 0x3333333333333333 <|
    Word.spreadStep 4 0x0F0F0F0F0F0F0F0F <| Word.spreadStep 8 0x00FF00FF00FF00FF <|
    Word.spreadStep 16 0x0000FFFF0000FFFF v.toUInt64

/-- The bits at the even places moved together, in five steps. -/
def gather (w : UInt64) : UInt32 :=
  UInt64.toUInt32 <| Word.gatherStep 16 0x00000000FFFFFFFF <| Word.gatherStep 8 0x0000FFFF0000FFFF <|
    Word.gatherStep 4 0x00FF00FF00FF00FF <| Word.gatherStep 2 0x0F0F0F0F0F0F0F0F <|
    Word.gatherStep 1 0x3333333333333333 (w &&& 0x5555555555555555)

theorem toNat_spread (v : UInt32) : (spread v).toNat = spreadBits 32 v.toNat := by
  have hv := v.toNat_lt
  have h16 := (HeldIn.of_word v).spreadStep (g := 16) hv 16 0x0000FFFF0000FFFF rfl (by decide) (by decide)
  have h8 := h16.spreadStep (g := 8) hv 8 0x00FF00FF00FF00FF rfl (by decide) (by decide)
  have h4 := h8.spreadStep (g := 4) hv 4 0x0F0F0F0F0F0F0F0F rfl (by decide) (by decide)
  have h2 := h4.spreadStep (g := 2) hv 2 0x3333333333333333 rfl (by decide) (by decide)
  have h1 := h2.spreadStep (g := 1) hv 1 0x5555555555555555 rfl (by decide) (by decide)
  exact h1.toNat_eq_spreadBits hv

theorem toNat_gather (w : UInt64) : (gather w).toNat = gatherBits 32 w.toNat := by
  have hv := gatherBits_lt 32 w.toNat
  have h2 := (HeldIn.of_evenPlaces w).gatherStep hv 1 0x3333333333333333 rfl (by decide) (by decide)
  have h4 := h2.gatherStep hv 2 0x0F0F0F0F0F0F0F0F rfl (by decide) (by decide)
  have h8 := h4.gatherStep hv 4 0x00FF00FF00FF00FF rfl (by decide) (by decide)
  have h16 := h8.gatherStep hv 8 0x0000FFFF0000FFFF rfl (by decide) (by decide)
  have h32 := h16.gatherStep hv 16 0x00000000FFFFFFFF rfl (by decide) (by decide)
  rw [gather, UInt64.toNat_toUInt32, h32.toNat_eq hv]
  exact Nat.mod_eq_of_lt hv

/-! ## Signs of words -/

/-- Folding by shifts: the sign, spread over the word, turns the bits of negative numbers over. -/
def foldSign (v : Int64) : UInt32 := (((v <<< 1) ^^^ (v >>> 63)) &&& 0xFFFFFFFF).toUInt64.toUInt32

def unfoldSign (n : UInt32) : Int64 :=
  let w := n.toUInt64.toInt64
  (w >>> 1) ^^^ -(w &&& 1)

theorem toBitVec_foldSign (v : Int64) : (((v <<< 1) ^^^ (v >>> 63)) &&& 0xFFFFFFFF).toUInt64.toBitVec =
    ((v.toBitVec <<< 1) ^^^ v.toBitVec.sshiftRight 63) &&& 0xFFFFFFFF#64 := by
  simp

/-- The last bit's place is left with the sign, over the whole word. -/
theorem sshiftRight_last {b : BitVec 64} : b.sshiftRight 63 = if b.msb then BitVec.allOnes 64 else 0#64 := by
  have hzero : ∀ c : BitVec 64, c.msb = false → c >>> 63 = 0#64 := fun c hc => by
    have hhalf := BitVec.msb_eq_false_iff_two_mul_lt.1 hc
    refine BitVec.eq_of_toNat_eq ?_
    rw [BitVec.toNat_ushiftRight, Nat.shiftRight_eq_div_pow, BitVec.toNat_ofNat]
    omega
  cases hmsb : b.msb with
  | false => rw [BitVec.sshiftRight_eq_of_msb_false hmsb, hzero b hmsb]; rfl
  | true =>
    have hnot : (~~~b).msb = false := by rw [BitVec.msb_not, hmsb]; rfl
    rw [BitVec.sshiftRight_eq_of_msb_true hmsb, hzero _ hnot]
    rfl

theorem toNat_foldSign (v : Int64) : (foldSign v).toNat = zigzag v.toInt := by
  have hsize : (UInt32.size : Int) = 2 ^ 32 := rfl
  have hint : v.toInt = _ := v.toBitVec.toInt_eq_msb_cond
  have hmask : (0xFFFFFFFF#64).toNat = 2 ^ 32 - 1 := rfl
  have hlt := v.toBitVec.isLt
  rw [foldSign, UInt64.toNat_toUInt32, ← UInt64.toNat_toBitVec, toBitVec_foldSign, sshiftRight_last, BitVec.toNat_and,
    hmask, Nat.and_two_pow_sub_one_eq_mod, hint, zigzag, hsize]
  cases hmsb : v.toBitVec.msb with
  | false =>
    rw [if_neg Bool.false_ne_true, if_neg Bool.false_ne_true, BitVec.xor_zero, BitVec.toNat_shiftLeft, Nat.shiftLeft_eq]
    omega
  | true =>
    have hhalf : 2 ^ 63 ≤ v.toBitVec.toNat := by
      simpa [BitVec.msb_eq_decide] using hmsb
    rw [if_pos rfl, if_pos rfl, BitVec.xor_allOnes, BitVec.toNat_not, BitVec.toNat_shiftLeft, Nat.shiftLeft_eq]
    omega

theorem toInt_unfoldSign (n : UInt32) : (unfoldSign n).toInt = unzigzag n.toNat := by
  have hn := n.toNat_lt
  have hbits : (unfoldSign n).toBitVec =
      (n.toBitVec.setWidth 64).sshiftRight 1 ^^^ -(n.toBitVec.setWidth 64 &&& 1#64) := by
    simp [unfoldSign]
  have hword : (n.toBitVec.setWidth 64).toNat = n.toNat := by
    rw [BitVec.toNat_setWidth]
    exact Nat.mod_eq_of_lt (by omega)
  have hpositive : (n.toBitVec.setWidth 64).msb = false := BitVec.msb_eq_false_iff_two_mul_lt.2 (by omega)
  have hhalf : ((n.toBitVec.setWidth 64).sshiftRight 1).toNat = n.toNat / 2 := by
    rw [BitVec.sshiftRight_eq_of_msb_false hpositive, BitVec.toNat_ushiftRight, hword, Nat.shiftRight_eq_div_pow]
  have hparity : (n.toBitVec.setWidth 64 &&& 1#64).toNat = n.toNat % 2 := by
    rw [BitVec.toNat_and, hword]
    exact Nat.and_one_is_mod _
  have hint : (unfoldSign n).toInt = _ := (unfoldSign n).toBitVec.toInt_eq_msb_cond
  rw [hint, unzigzag, BitVec.msb_eq_decide, hbits]
  by_cases heven : n.toNat % 2 = 0
  · have hzero : n.toBitVec.setWidth 64 &&& 1#64 = 0#64 := BitVec.eq_of_toNat_eq (hparity.trans heven)
    rw [hzero, BitVec.neg_zero, BitVec.xor_zero, hhalf, if_pos heven, if_neg (by simp; omega)]
  · have hone : n.toBitVec.setWidth 64 &&& 1#64 = 1#64 :=
      BitVec.eq_of_toNat_eq (hparity.trans (Nat.mod_two_ne_zero.1 heven))
    rw [hone, BitVec.neg_one_eq_allOnes, BitVec.xor_allOnes, BitVec.toNat_not, hhalf, if_neg heven,
      if_pos (by simp; omega)]
    omega

end Word

namespace TilePosition

/-! ## Packing -/

/-- The position of a column and a row, by the arithmetic of words. -/
def ofWords (x y : Int64) : TilePosition :=
  ⟨Word.spread (Word.foldSign x) ||| Word.spread (Word.foldSign y) <<< 1⟩

def xWord (t : TilePosition) : Int64 := Word.unfoldSign (Word.gather t.raw)

def yWord (t : TilePosition) : Int64 := Word.unfoldSign (Word.gather (t.raw >>> 1))

/-- **Words pack a column and a row into their position.** -/
theorem ofWords_eq (x y : Int64) : ofWords x y = ofCoords x.toInt y.toInt := by
  have hraw : (ofWords x y).raw = (ofCoords x.toInt y.toInt).raw := by
    refine UInt64.toNat_inj.1 (Nat.eq_of_testBit_eq fun p => ?_)
    by_cases hp : p < 64
    · rw [raw_ofCoords, ofWords, UInt64.toNat_or, Nat.testBit_or, Word.testBit_shiftLeft (g := 1) rfl (by decide) hp,
        Word.toNat_spread, Word.toNat_spread, Word.toNat_foldSign, Word.toNat_foldSign]
      obtain ⟨q, rfl | rfl⟩ := p.even_or_odd'
      · -- the row's bits are at the odd places by now
        have hrow : (decide (1 ≤ 2 * q) && (spreadBits 32 (zigzag y.toInt)).testBit (2 * q - 1)) = false := by
          cases q with
          | zero => rfl
          | succ q => exact (Bool.and_eq_false_iff).2 (.inr (testBit_spreadBits 32 _ q).2)
        rw [(testBit_interleave 32 _ _ q).1, (testBit_spreadBits 32 _ q).1, hrow, Bool.or_false]
      · rw [(testBit_interleave 32 _ _ q).2, (testBit_spreadBits 32 _ q).2, Nat.add_sub_cancel,
          (testBit_spreadBits 32 _ q).1, decide_eq_true (show 1 ≤ 2 * q + 1 by omega), Bool.true_and, Bool.false_or]
    · rw [Word.testBit_of_le _ (Nat.le_of_not_lt hp), Word.testBit_of_le _ (Nat.le_of_not_lt hp)]
  exact congrArg mk hraw

theorem toInt_xWord (t : TilePosition) : t.xWord.toInt = t.x := by
  rw [xWord, Word.toInt_unfoldSign, Word.toNat_gather, x]

theorem toInt_yWord (t : TilePosition) : t.yWord.toInt = t.y := by
  have hhalf : (t.raw >>> 1).toNat = t.raw.toNat / 2 := by
    rw [UInt64.toNat_shiftRight]
    exact Nat.shiftRight_eq_div_pow _ 1
  rw [yWord, Word.toInt_unfoldSign, Word.toNat_gather, hhalf, y]

theorem compare_key (t u : TilePosition) : compare t.key u.key = compare t u := by
  cases h : compare t u with
  | lt => exact Bytes.compare_eq_lt.2 (key_lt_iff.2 h)
  | eq =>
    obtain rfl := Std.LawfulEqOrd.eq_of_compare h
    exact Std.ReflCmp.compare_self
  | gt => exact Std.OrientedCmp.gt_iff_lt.2 (Bytes.compare_eq_lt.2 (key_lt_iff.2 (Std.OrientedCmp.gt_iff_lt.1 h)))

/-- **Packing loses nothing.**  A column and a row of 32 bits are read back from their position, every word of 64 bits
is the position of such a pair, the bytes of a key spell the position again whatever follows them, and they compare as
the words do.  Words are packed and unpacked by masks and shifts with the same results. -/
theorem packing_exact :
    (∀ x y : Int, -(2 ^ 31) ≤ x ∧ x < 2 ^ 31 → -(2 ^ 31) ≤ y ∧ y < 2 ^ 31 →
      (ofCoords x y).x = x ∧ (ofCoords x y).y = y) ∧
    (∀ raw : UInt64, ((-(2 ^ 31) ≤ x ⟨raw⟩ ∧ x ⟨raw⟩ < 2 ^ 31) ∧ -(2 ^ 31) ≤ y ⟨raw⟩ ∧ y ⟨raw⟩ < 2 ^ 31) ∧
      (ofCoords (x ⟨raw⟩) (y ⟨raw⟩)).raw = raw) ∧
    (∀ t : TilePosition, t.key.length = 8 ∧ ∀ rest, ofKey? (t.key ++ rest) = some t) ∧
    (∀ t u : TilePosition, compare t.key u.key = compare t.raw u.raw) ∧
    (∀ x y : Int64, ofWords x y = ofCoords x.toInt y.toInt) ∧
    ∀ t : TilePosition, t.xWord.toInt = t.x ∧ t.yWord.toInt = t.y := by
  refine ⟨fun x y hx hy => ⟨x_ofCoords hx.1 hx.2 y, y_ofCoords hy.1 hy.2 x⟩, fun raw => ⟨coords_fit ⟨raw⟩, ?_⟩,
    fun t => ⟨t.length_key, t.ofKey?_append⟩, compare_key, ofWords_eq, fun t => ⟨t.toInt_xWord, t.toInt_yWord⟩⟩
  exact congrArg TilePosition.raw (ofCoords_coords ⟨raw⟩)

/-- The lowest column and the highest row that fit. -/
theorem packing_exact_corner :
    ((-(2 ^ 31) : Int) ≤ -(2 ^ 31) ∧ (-(2 ^ 31) : Int) < 2 ^ 31) ∧
      ((-(2 ^ 31) : Int) ≤ 2 ^ 31 - 1 ∧ (2 ^ 31 - 1 : Int) < 2 ^ 31) ∧
      (ofCoords (-(2 ^ 31)) (2 ^ 31 - 1)).x = -(2 ^ 31) ∧ (ofCoords (-(2 ^ 31)) (2 ^ 31 - 1)).y = 2 ^ 31 - 1 :=
  ⟨by decide, by decide, packing_exact.1 _ _ (by decide) (by decide)⟩

end TilePosition
end TileAtlas
