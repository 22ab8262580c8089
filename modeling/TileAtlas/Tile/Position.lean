import TileAtlas.Bytes
import Std.Data.ExtTreeSet.Lemmas
import TileAtlas.Tile.Level
/-!
# Tile positions

A tile's column and row are signed numbers of 32 bits.  Both are folded onto the naturals, the
negative ones to the odd numbers, and their bits are interleaved, column first, so that tiles close
to one another have close keys.
-/
namespace TileAtlas

/-- The signed numbers folded onto the naturals, of which the low 32 bits are kept. -/
def zigzag (v : Int) : Nat := ((if 0 ≤ v then 2 * v else -2 * v - 1) % UInt32.size).toNat

def unzigzag (n : Nat) : Int := if n % 2 = 0 then (n / 2 : Nat) else -((n / 2 : Nat) : Int) - 1

/-- The low `k` bits of a number, moved to the even places. -/
def spreadBits : Nat → Nat → Nat
  | 0, _ => 0
  | k + 1, v => v % 2 + 4 * spreadBits k (v / 2)

/-- The low `k` bits at even places, moved together. -/
def gatherBits : Nat → Nat → Nat
  | 0, _ => 0
  | k + 1, v => v % 2 + 2 * gatherBits k (v / 4)

structure TilePosition where
  raw : UInt64
deriving DecidableEq

namespace TilePosition

instance : Ord TilePosition := ⟨fun a b => compare a.raw b.raw⟩

instance : Std.TransOrd TilePosition :=
  inferInstanceAs (Std.TransCmp (compareOn TilePosition.raw))

instance : Std.LawfulEqOrd TilePosition where
  compare_self {a} := @Std.ReflCmp.compare_self UInt64 compare _ a.raw
  eq_of_compare {a b} h := by
    cases a; cases b
    exact congrArg TilePosition.mk (Std.LawfulEqOrd.eq_of_compare h)

def ofCoords (x y : Int) : TilePosition :=
  ⟨UInt64.ofNat (spreadBits 32 (zigzag x) + 2 * spreadBits 32 (zigzag y))⟩

def x (t : TilePosition) : Int := unzigzag (gatherBits 32 t.raw.toNat)

def y (t : TilePosition) : Int := unzigzag (gatherBits 32 (t.raw.toNat / 2))

def key (t : TilePosition) : Bytes := Bytes.ofNatBE 8 t.raw.toNat

/-- The tile that the first eight bytes spell. -/
def ofKey? (key : Bytes) : Option TilePosition :=
  if key.length < 8 then none else some ⟨UInt64.ofNat (Bytes.toNatBE (key.take 8))⟩

def text (t : TilePosition) : String := s!"{t.x}/{t.y}"

/-- The position as a value of the program, for diagnostics. -/
def debugText (t : TilePosition) : String := s!"TilePosition({t.x}, {t.y})"

end TilePosition

/-- The tile that holds a point. -/
def TileLevel.tileOf (level : TileLevel) (p : Point) : TilePosition :=
  .ofCoords (level.tileCoord p.x.toInt) (level.tileCoord p.y.toInt)

/-- A set of tiles, listed in the order of their keys. -/
abbrev TileSet := Std.ExtTreeSet TilePosition

end TileAtlas
