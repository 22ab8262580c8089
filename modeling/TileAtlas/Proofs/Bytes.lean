import Mathlib.Algebra.GroupWithZero.Nat
import TileAtlas.Store.KeyRange
/-!
# Numbers as bytes, and the order of keys

Big-endian words of one width compare as the numbers they spell (`ofNatBE_lt_iff`), both byte orders
read back what they wrote modulo the width, and the keys of `KeyRange.beginningWith p` are exactly
those that begin with `p` (`contains_beginningWith`): the range ends before the least key above them all
(`KeyRange.beginningWith_exact`).
-/
namespace TileAtlas
namespace Bytes

/-! ## Most significant byte first -/

theorem foldl_toNatBE : ∀ (bs : Bytes) (n : Nat),
    bs.foldl (fun n b => n * 256 + b.toNat) n = n * 256 ^ bs.length + toNatBE bs
  | [], n => by simp [toNatBE]
  | b :: bs, n => by
    rw [toNatBE, List.foldl_cons, List.foldl_cons, foldl_toNatBE bs, foldl_toNatBE bs, List.length_cons,
      Nat.pow_succ', Nat.add_mul, Nat.add_mul, Nat.mul_assoc]
    simp only [Nat.zero_mul, Nat.zero_add]
    omega

theorem toNatBE_cons (b : UInt8) (bs : Bytes) : toNatBE (b :: bs) = b.toNat * 256 ^ bs.length + toNatBE bs := by
  rw [toNatBE, List.foldl_cons, foldl_toNatBE]
  simp

theorem toNatBE_lt : ∀ bs : Bytes, toNatBE bs < 256 ^ bs.length
  | [] => by simp [toNatBE]
  | b :: bs => by
    rw [toNatBE_cons, List.length_cons, Nat.pow_succ']
    have := toNatBE_lt bs
    have : b.toNat * 256 ^ bs.length ≤ 255 * 256 ^ bs.length :=
      Nat.mul_le_mul_right _ (Nat.le_of_lt_succ b.toNat_lt)
    omega

theorem toNatBE_ofNatBE : ∀ w n : Nat, toNatBE (ofNatBE w n) = n % 256 ^ w
  | 0, n => by simp [ofNatBE, toNatBE, Nat.mod_one]
  | w + 1, n => by
    rw [ofNatBE, toNatBE_cons, toNatBE_ofNatBE w n, length_ofNatBE, UInt8.toNat_ofNat', Nat.shiftRight_eq_div_pow,
      show 2 ^ (8 * w) = 256 ^ w by rw [Nat.pow_mul], Nat.pow_succ 256 w, Nat.mod_mul (a := 256 ^ w) (b := 256),
      Nat.mul_comm, Nat.add_comm]

/-- **Words of one width compare as the numbers they spell.** -/
theorem lt_iff_toNatBE_lt : ∀ {a b : Bytes}, a.length = b.length → (a < b ↔ toNatBE a < toNatBE b)
  | [], [], _ => by simp
  | x :: xs, y :: ys, h => by
    have hlen : xs.length = ys.length := by simpa using h
    rw [List.cons_lt_cons_iff, lt_iff_toNatBE_lt hlen, toNatBE_cons, toNatBE_cons, hlen]
    have hx := toNatBE_lt xs
    have hy := toNatBE_lt ys
    rw [hlen] at hx
    have hstep : ∀ {m n : Nat}, m < n → m * 256 ^ ys.length + 256 ^ ys.length ≤ n * 256 ^ ys.length := fun {m n} hmn => by
      rw [← Nat.succ_mul]; exact Nat.mul_le_mul_right _ hmn
    constructor
    · rintro (hlt | ⟨rfl, hlt⟩)
      · have := hstep (UInt8.lt_iff_toNat_lt.1 hlt); omega
      · omega
    · intro hlt
      rcases Nat.lt_trichotomy x.toNat y.toNat with hxy | hxy | hxy
      · exact .inl (UInt8.lt_iff_toNat_lt.2 hxy)
      · exact .inr ⟨UInt8.toNat_inj.1 hxy, by rw [hxy] at hlt; omega⟩
      · have := hstep hxy; omega

theorem ofNatBE_lt_iff {w m n : Nat} (hm : m < 256 ^ w) (hn : n < 256 ^ w) :
    ofNatBE w m < ofNatBE w n ↔ m < n := by
  rw [lt_iff_toNatBE_lt (by simp), toNatBE_ofNatBE, toNatBE_ofNatBE, Nat.mod_eq_of_lt hm, Nat.mod_eq_of_lt hn]

/-! ## Least significant byte first -/

theorem toNatLE_ofNatLE : ∀ w n : Nat, toNatLE (ofNatLE w n) = n % 256 ^ w
  | 0, n => by simp [ofNatLE, toNatLE, Nat.mod_one]
  | w + 1, n => by
    rw [ofNatLE, toNatLE, toNatLE_ofNatLE w, UInt8.toNat_ofNat', Nat.pow_succ' (n := w),
      Nat.mod_mul (a := 256) (b := 256 ^ w)]

theorem ofNatLE_toNatLE : ∀ bs : Bytes, ofNatLE bs.length (toNatLE bs) = bs
  | [] => rfl
  | b :: bs => by
    have hlow : UInt8.ofNat (b.toNat + 256 * toNatLE bs) = b := UInt8.toNat_inj.1 (by
      rw [UInt8.toNat_ofNat', show (2 : Nat) ^ 8 = 256 from rfl, Nat.add_mul_mod_self_left,
        Nat.mod_eq_of_lt b.toNat_lt])
    have hhigh : (b.toNat + 256 * toNatLE bs) / 256 = toNatLE bs := by
      have := b.toNat_lt
      omega
    rw [List.length_cons, toNatLE, ofNatLE, hlow, hhigh, ofNatLE_toNatLE bs]

theorem toNatLE_lt : ∀ bs : Bytes, toNatLE bs < 256 ^ bs.length
  | [] => by simp [toNatLE]
  | b :: bs => by
    have := toNatLE_lt bs
    have := b.toNat_lt
    rw [toNatLE, List.length_cons, Nat.pow_succ']
    omega

/-! ## Keys that begin with some bytes -/

theorem not_lt_nil (k : Bytes) : ¬ k < [] := by simp

theorem lt_of_lt_of_not_lt {a b c : Bytes} (hab : a < b) (hcb : ¬ c < b) : a < c :=
  Classical.byContradiction fun hac => List.le_trans (List.not_lt.1 hcb) (List.not_lt.1 hac) hab

/-- A key at or after `p` begins with `p` unless it reaches the least key above all that do. -/
theorem prefix_iff_above : ∀ {p k : Bytes},
    p <+: k ↔ ¬ k < p ∧ (above? p).all (fun u => decide (k < u)) = true
  | [], k => by simp [above?]
  | x :: p, [] => by simp
  | x :: p, y :: k => by
    have ih := prefix_iff_above (p := p) (k := k)
    rw [List.cons_prefix_cons, List.cons_lt_cons_iff, above?, ih]
    rcases hu : above? p with _ | u
    · simp only [Option.all_none, and_true]
      by_cases hx : x = 255
      · subst hx
        have hmax : ∀ z : UInt8, ¬ (255 : UInt8) < z := fun z h => by
          have := UInt8.lt_iff_toNat_lt.1 h; have := z.toNat_lt; simp at *; omega
        simp only [if_true, Option.all_none, and_true]
        constructor
        · rintro ⟨rfl, h⟩; simpa using h
        · intro h
          obtain rfl : y = 255 := Classical.byContradiction fun hne => by
            have hge : ¬ y.toNat < (255 : UInt8).toNat := fun h' => h (.inl (UInt8.lt_iff_toNat_lt.2 h'))
            have := y.toNat_lt
            exact hne (UInt8.toNat_inj.1 (by simp at hge ⊢; omega))
          simpa using h
      · have hsucc : (x + 1).toNat = x.toNat + 1 := by
          have : x.toNat ≠ 255 := fun h => hx (UInt8.toNat_inj.1 (by simpa using h))
          have := x.toNat_lt
          rw [UInt8.toNat_add]; simp; omega
        simp only [if_neg hx, Option.all_some, decide_eq_true_eq, List.cons_lt_cons_iff, not_lt_nil, and_false,
          or_false, UInt8.lt_iff_toNat_lt, hsucc]
        constructor
        · rintro ⟨rfl, h⟩; exact ⟨by simpa using h, by omega⟩
        · rintro ⟨h1, h2⟩
          obtain rfl : x = y := UInt8.toNat_inj.1 (by omega)
          simpa using h1
    · simp only [Option.all_some, decide_eq_true_eq, List.cons_lt_cons_iff]
      constructor
      · rintro ⟨rfl, h, hk⟩
        exact ⟨by simpa using h, .inr ⟨rfl, hk⟩⟩
      · rintro ⟨h1, h2 | ⟨rfl, hk⟩⟩
        · exact absurd (.inl h2) h1
        · exact ⟨rfl, by simpa using h1, hk⟩

end Bytes

/-- **The keys of a prefix range are those that begin with the prefix.** -/
theorem KeyRange.contains_beginningWith {p k : Bytes} : (beginningWith p).contains k = true ↔ p <+: k := by
  rw [Bytes.prefix_iff_above, contains, Bool.and_eq_true, beforeStop, beginningWith]
  cases Bytes.above? p <;> simp

namespace Bytes

variable {p k u v : Bytes}

theorem lt_of_above (h : above? p = some u) (hk : p <+: k) : k < u := by
  have hbefore := (prefix_iff_above.1 hk).2
  rw [h] at hbefore
  simpa using hbefore

/-- What is not yet the key above is not above all keys before it. -/
theorem not_lt_of_above (h : above? p = some u) (hv : ∀ k, p <+: k → k < v) : ¬ v < u := fun hlt => by
  have hbegins : p <+: v := prefix_iff_above.2 ⟨List.lt_asymm (hv p (List.prefix_refl p)), by simpa [h] using hlt⟩
  exact List.lt_irrefl v (hv v hbegins)

theorem above?_eq_none_iff : ∀ {p : Bytes}, above? p = none ↔ ∀ b ∈ p, b = 255
  | [] => by simp [above?]
  | b :: p => by
    have ih := above?_eq_none_iff (p := p)
    rw [List.forall_mem_cons, ← ih, above?]
    cases above? p with
    | some u => simp
    | none => simp

/-- A key is above all that begin with `p`, and no smaller one is. -/
structure IsLeastAbove (p u : Bytes) : Prop where
  above : ∀ k, p <+: k → k < u
  least : ∀ v, (∀ k, p <+: k → k < v) → ¬ v < u

theorem above?_eq_some_iff : above? p = some u ↔ IsLeastAbove p u := by
  refine ⟨fun h => ⟨fun k => lt_of_above h, fun v => not_lt_of_above h⟩, fun h => ?_⟩
  cases hp : above? p with
  | none =>
    -- every key from `p` on begins with `p`, also the one that is above them all
    have hbegins : p <+: u := prefix_iff_above.2 ⟨List.lt_asymm (h.above p (List.prefix_refl p)), by rw [hp]; rfl⟩
    exact absurd (h.above u hbegins) (List.lt_irrefl u)
  | some w =>
    have hle : ¬ u < w := not_lt_of_above hp h.above
    have hge : ¬ w < u := h.least w fun k => lt_of_above hp
    rw [List.le_antisymm (List.not_lt.1 hle) (List.not_lt.1 hge)]

end Bytes

/-- **The keys that begin with some bytes are a range,** whatever these bytes are: it ends before the least key above
all of them, which there is unless the bytes are all 255. -/
theorem KeyRange.beginningWith_exact (p : Bytes) :
    (∀ k, (beginningWith p).contains k = true ↔ p <+: k) ∧
      (∀ u, p.above? = some u ↔ p.IsLeastAbove u) ∧
      (p.above? = none ↔ ∀ b ∈ p, b = 255) :=
  ⟨fun _ => contains_beginningWith, fun _ => Bytes.above?_eq_some_iff, Bytes.above?_eq_none_iff⟩

@[simp] theorem KeyRange.contains_all (k : Bytes) : KeyRange.all.contains k = true := by
  simp [contains, all, beforeStop]

@[simp] theorem KeyRange.contains_startingAt (start k : Bytes) :
    (startingAt start).contains k = !decide (k < start) := by
  rw [contains, startingAt, beforeStop, Bool.and_true]

end TileAtlas
