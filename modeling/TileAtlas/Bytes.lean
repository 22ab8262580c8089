import Std.Data.ExtTreeMap.Lemmas
/-!
# Byte strings

Keys and stored values are lists of bytes, compared byte by byte.  Integers become bytes in one of
two ways: most significant byte first, so that comparing keys compares the integers, or least
significant byte first, as stored records hold them.

`compare_eq_lt` is the one fact the sorted maps need: the order of a map keyed by bytes is `<`.
-/
namespace TileAtlas

abbrev Bytes := List UInt8

namespace Bytes

/-- The low `width` bytes of `n`, most significant first. -/
def ofNatBE : Nat → Nat → Bytes
  | 0, _ => []
  | w + 1, n => UInt8.ofNat (n >>> (8 * w)) :: ofNatBE w n

def toNatBE (bs : Bytes) : Nat := bs.foldl (fun n b => n * 256 + b.toNat) 0

/-- The low `width` bytes of `n`, least significant first. -/
def ofNatLE : Nat → Nat → Bytes
  | 0, _ => []
  | w + 1, n => UInt8.ofNat n :: ofNatLE w (n / 256)

def toNatLE : Bytes → Nat
  | [] => 0
  | b :: bs => b.toNat + 256 * toNatLE bs

@[simp] theorem length_ofNatBE (w n : Nat) : (ofNatBE w n).length = w := by
  induction w with
  | zero => rfl
  | succ w ih => simp [ofNatBE, ih]

@[simp] theorem length_ofNatLE (w n : Nat) : (ofNatLE w n).length = w := by
  induction w generalizing n with
  | zero => rfl
  | succ w ih => simp [ofNatLE, ih]

theorem compare_cons (x y : UInt8) (xs ys : Bytes) :
    compare (x :: xs) (y :: ys) = (compare x y).then (compare xs ys) := by
  change (match compare x y with
    | Ordering.lt => Ordering.lt | .eq => compare xs ys | .gt => .gt) = _
  cases compare x y <;> rfl

theorem compare_eq_lt {a b : Bytes} : compare a b = .lt ↔ a < b := by
  induction a generalizing b with
  | nil => cases b <;> simp [compare, List.compareLex]
  | cons x xs ih =>
    cases b with
    | nil => simp [compare, List.compareLex]
    | cons y ys =>
      rw [List.cons_lt_cons_iff, ← ih, compare_cons]
      rcases h : compare x y with _ | _ | _
      · simp [Ordering.then, Std.compare_eq_lt.1 h]
      · obtain rfl : x = y := Std.LawfulEqOrd.eq_of_compare h
        simp [Ordering.then, UInt8.lt_irrefl]
      · have hlt : y < x := Std.compare_eq_gt.1 h
        have hne : x ≠ y := by rintro rfl; exact UInt8.lt_irrefl _ hlt
        simp [Ordering.then, UInt8.lt_asymm hlt, hne]

end Bytes

/-- Text as its UTF-8 bytes. -/
def Bytes.ofString (s : String) : Bytes := s.toUTF8.toList

/-- The text that a byte string spells, if it is UTF-8. -/
def Bytes.toString? (bs : Bytes) : Option String := String.fromUTF8? ⟨bs.toArray⟩

end TileAtlas
