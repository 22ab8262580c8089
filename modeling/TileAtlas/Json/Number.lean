import Std.Data.ExtTreeMap.Lemmas
/-!
# Numbers as a JSON text writes them

A number is kept as its digits, and its value is read off them afterwards.  Written without
fraction and exponent it is an integer, as long as it fits in 64 bits; `-0` and everything else is
binary floating point.

Floating point is read with one word of precision: digits are taken while they fit in 64 unsigned
bits, the rest only move the decimal point, and the power of ten is multiplied or divided in last.
So the result may differ from the nearest number in its last place; it never leaves the finite
range in silence.
-/
namespace TileAtlas.Json

structure Number where
  negative : Bool
  whole : List Nat
  fraction : Option (List Nat) := none
  /-- Whether the exponent is positive, and its digits. -/
  exponent : Option (Bool × List Nat) := none
deriving DecidableEq

inductive NumberValue where
  | integer (n : Int)
  | float (x : Float)

namespace Number

def wordMax : Nat := UInt64.size - 1

/-- Take digits while the number fits in a word: the number, and what is left. -/
def takeDigits : Nat → List Nat → Nat × List Nat
  | n, [] => (n, [])
  | n, d :: ds => if wordMax < n * 10 + d then (n, d :: ds) else takeDigits (n * 10 + d) ds

/-- The powers of ten, none of them above the finite range. -/
def powerOfTen (k : Nat) : Float := Float.ofScientific 1 false k

/-- `f · 10 ^ e`, by divisions of at most `1e308` at a time.  A product out of range is refused. -/
def scale (f : Float) : Nat → Int → Option Float
  | 0, _ => some f
  | fuel + 1, e =>
    if e.natAbs ≤ 308 then
      if 0 ≤ e then
        let x := f * powerOfTen e.toNat
        if x.isInf then none else some x
      else some (f / powerOfTen e.natAbs)
    else if f == 0.0 then some f
    else if 0 ≤ e then none
    else scale (f / powerOfTen 308) fuel (e + 308)

def ofDigits (ds : List Nat) : Nat := ds.foldl (fun n d => n * 10 + d) 0

/-- The largest exponent that is not just out of range. -/
def exponentMax : Nat := (1 <<< 31) - 1

/-- The magnitude in floating point. -/
def magnitude? (n : Number) : Option Float :=
  let (whole, droppedWhole) := takeDigits 0 n.whole
  let fraction := n.fraction.getD []
  let (significand, droppedFraction) := takeDigits whole fraction
  let point : Int := droppedWhole.length - (fraction.length - droppedFraction.length : Nat)
  match n.exponent with
  | none => scale (Float.ofNat significand) 8 point
  | some (positive, ds) =>
    let e := ofDigits ds
    if exponentMax < e then
      if significand ≠ 0 && positive then none else some 0.0
    else
      scale (Float.ofNat significand) 8 (if positive then point + e else point - e)

/-- The value, unless it lies out of range. -/
def value? (n : Number) : Option NumberValue :=
  let m := ofDigits n.whole
  let isInteger := n.fraction.isNone && n.exponent.isNone
  if isInteger && !n.negative && m ≤ wordMax then some (.integer m)
  else if isInteger && n.negative && 0 < m && m ≤ 1 <<< 63 then some (.integer (-m))
  else n.magnitude?.map fun x => .float (if n.negative then -x else x)

end Number
end TileAtlas.Json
