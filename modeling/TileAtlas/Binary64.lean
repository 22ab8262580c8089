import Std.Data.ExtTreeMap.Lemmas
/-!
# Binary floating point, read exactly

A finite binary64 number is `± mantissa · 2 ^ exponent` with natural `mantissa`.  Everything this
library decides about such a number beyond the machine's own arithmetic — rounding it to an
integer, printing it in the fewest digits that read back — is decided on those two integers.
-/
namespace TileAtlas

inductive Binary64 where
  | nan
  | infinite ( negative : Bool)
  | finite ( negative : Bool) (mantissa : Nat) (exponent : Int)
deriving DecidableEq

namespace Binary64

/-- The bit that the fraction leaves out. -/
def leadingBit : Nat := 1 <<< 52

/-- The meaning of 64 bits: sign, eleven bits of exponent, fifty-two bits of fraction. -/
def ofBits (bits : UInt64) : Binary64 :=
  let n := bits.toNat
  let negative := decide (n >>> 63 = 1)
  let e : Nat := (n >>> 52) % 2048
  let f : Nat := n % leadingBit
  if e = 2047 then (if f = 0 then .infinite negative else .nan)
  else if e = 0 then .finite negative f (-1074)
  else .finite negative (leadingBit + f) ((e : Int) - 1075)

def ofFloat (x : Float) : Binary64 := ofBits x.toBits

/-- The nearest natural number to `m · 2 ^ e`, a half rounded up. -/
def roundScaled (m : Nat) (e : Int) : Nat :=
  if 0 ≤ e then m <<< e.toNat
  else
    let k := (-e).toNat
    (2 * m + 1 <<< k) >>> (k + 1)

/-- The nearest integer, a half rounded away from zero.  What is not finite has none. -/
def round? : Binary64 → Option Int
  | .finite negative m e =>
    let n : Int := roundScaled m e
    some (if negative then -n else n)
  | _ => none

/-! ## The shortest decimal

A positive `v = m · 2 ^ e` owns the reals that round to it: from halfway to the number below up to
halfway to the number above, the two ends included when `m` is even.  The decimal grid `10 ^ u` has
a point in that interval only if one of the two neighbours of `v` on the grid is one, so it is
enough to test those two, on the coarsest grid first. -/

/-- A power of ten. -/
def tenTo (k : Nat) : Nat := Nat.pow 10 k

/-- `v`, and the ends of its interval, as numerators over one denominator. -/
structure Interval where
  value : Nat
  low : Nat
  high : Nat
  den : Nat
  closed : Bool

def interval (m : Nat) (e : Int) : Interval :=
  let up := 1 <<< e.toNat
  let below := if m = leadingBit ∧ e > -1074 then 1 else 2
  { value := 4 * m * up
    low := (4 * m - below) * up
    high := (4 * m + 2) * up
    den := 4 <<< (-e).toNat
    closed := m % 2 = 0 }

/-- Whether `d · 10 ^ u` rounds to the number. -/
def Interval.has (i : Interval) (d : Nat) (u : Int) : Bool :=
  let n := d * tenTo u.toNat * i.den
  let s := tenTo (-u).toNat
  if i.closed then i.low * s ≤ n && n ≤ i.high * s else i.low * s < n && n < i.high * s

/-- The grid point next to the number, if one of its two neighbours on the grid rounds to it. -/
def Interval.onGrid (i : Interval) (u : Int) : Option Nat :=
  let num := i.value * tenTo (-u).toNat
  let den := i.den * tenTo u.toNat
  let d := num / den
  match i.has d u, i.has (d + 1) u with
  | true, true => some (if 2 * (num % den) ≤ den then d else d + 1)
  | true, false => some d
  | false, true => some (d + 1)
  | false, false => none

/-- The coarsest grid with a point that rounds to the number, from `10 ^ u` downwards. -/
def Interval.coarsest (i : Interval) : Nat → Int → Nat × Int
  | 0, u => (i.value * tenTo (-u).toNat / (i.den * tenTo u.toNat), u)
  | fuel + 1, u =>
    match i.onGrid u with
    | some d => (d, u)
    | none => i.coarsest fuel (u - 1)

def digitCount (n : Nat) : Nat := (Nat.toDigits 10 n).length

/-- `d · 10 ^ u` without an exponent. -/
def positional (d : Nat) (u : Int) : String :=
  if 0 ≤ u then toString (d * tenTo u.toNat)
  else
    let k := (-u).toNat
    let frac := Nat.toDigits 10 (d % tenTo k)
    toString (d / tenTo k) ++ "." ++ String.ofList (List.replicate (k - frac.length) '0' ++ frac)

/-- The fewest digits that read back, written out without an exponent. -/
def text : Binary64 → String
  | .nan => "NaN"
  | .infinite negative => if negative then "-inf" else "inf"
  | .finite negative m e =>
    let sign := if negative then "-" else ""
    if m = 0 then sign ++ "0"
    else
      let i := interval m e
      let (d, u) := i.coarsest 700 (digitCount (i.value / i.den))
      sign ++ positional d u

end Binary64
end TileAtlas
