import TileAtlas.Bytes
/-!
# Weights of ranges

A segment spreads its weight evenly from its smallest key to its largest.  The tree of such
intervals answers how much weight a range holds: a subtree that the range covers answers with its
total, and one that it misses answers nothing.

Keys count as numbers of 128 bits by their first sixteen bytes, so a longer key counts like one a
little before it.  Weights are floating point when scans are planned; the tree needs no more of
them than sums and shares.
-/
namespace TileAtlas

/-- What a tree does with weights. -/
class Weight (α : Type) where
  zero : α
  add : α → α → α
  /-- The part of a weight that falls to `part` out of `whole`. -/
  share : α → (part whole : Nat) → α

/-- The nearest number from 0 to 1. -/
def Weight.clampUnit [LT α] [DecidableLT α] [OfNat α 0] [OfNat α 1] (x : α) : α :=
  if x < 0 then 0 else if 1 < x then 1 else x

instance : Weight Float where
  zero := 0.0
  add := (· + ·)
  share w part whole := w * Weight.clampUnit (Float.ofNat part / Float.ofNat whole)

namespace KeyNumber

/-- The largest number of a key. -/
def last : Nat := (1 <<< 128) - 1

/-- The first sixteen bytes as a number; a shorter key is filled up with zeros. -/
def ofKey (key : Bytes) : Nat :=
  Bytes.toNatBE ((key ++ List.replicate 16 0).take 16)

/-- The least key that counts as a number. -/
def toKey (n : Nat) : Bytes := Bytes.ofNatBE 16 n

def midpoint (a b : Nat) : Nat := (a + b) / 2

end KeyNumber

structure Interval (α : Type) where
  low : Nat
  high : Nat
  low_le_high : low ≤ high
  weight : α

namespace Interval

variable {α : Type}

def center (i : Interval α) : Nat := KeyNumber.midpoint i.low i.high

theorem center_mem (i : Interval α) : i.low ≤ i.center ∧ i.center ≤ i.high := by
  have := i.low_le_high
  unfold center KeyNumber.midpoint
  omega

def byCenter (is : List (Interval α)) : List (Interval α) :=
  is.mergeSort fun a b => a.center ≤ b.center

variable [Weight α]

/-- The weight from `a` up to, and without, `b`. -/
def overlap (i : Interval α) (a b : Nat) : α :=
  if i.high < a || b ≤ i.low then Weight.zero
  else if i.low = i.high || (a ≤ i.low && i.high < b) then i.weight
  else Weight.share i.weight (min i.high b - max i.low a) (i.high - i.low)

def sum (ws : List α) : α := ws.foldl Weight.add Weight.zero

def totalWeight (is : List (Interval α)) : α := sum (is.map (·.weight))

end Interval

inductive IntervalTree (α : Type) where
  | empty
  | node (low high : Nat) (total : α) (here : List (Interval α)) (left right : IntervalTree α)

namespace IntervalTree

variable {α : Type} [Weight α]

/-- So few intervals are not split further. -/
def leafSize : Nat := 8

/-- A list without an element that a test refuses is shorter. -/
theorem length_filter_lt {p : β → Bool} {l : List β} {x : β} (hx : x ∈ l) (hp : p x = false) :
    (l.filter p).length < l.length :=
  List.length_filter_lt_length_iff_exists.2 ⟨x, hx, by simp [hp]⟩

/-- Split at the center of the interval in the middle: what ends before it goes left, what begins
after it goes right, and what holds it stays. -/
def build (is : List (Interval α)) : IntervalTree α :=
  match is with
  | [] => .empty
  | i :: rest =>
    let low := rest.foldl (fun n j => min n j.low) i.low
    let high := rest.foldl (fun n j => max n j.high) i.high
    let total := Interval.totalWeight (i :: rest)
    if (i :: rest).length ≤ leafSize then .node low high total (i :: rest) .empty .empty
    else
      let sorted := Interval.byCenter (i :: rest)
      match _h : sorted[sorted.length / 2]? with
      | none => .node low high total (i :: rest) .empty .empty
      | some m =>
        let c := m.center
        .node low high total
          (sorted.filter fun j => !(decide (j.high < c)) && !(decide (c < j.low)))
          (build (sorted.filter fun j => j.high < c))
          (build (sorted.filter fun j => c < j.low))
termination_by is.length
decreasing_by
  · have hm : m ∈ sorted := List.mem_of_getElem? _h
    have hlen : sorted.length = (i :: rest).length := by simp [sorted, Interval.byCenter]
    rw [← hlen]
    exact length_filter_lt hm (by have := m.center_mem; simp [c]; omega)
  · have hm : m ∈ sorted := List.mem_of_getElem? _h
    have hlen : sorted.length = (i :: rest).length := by simp [sorted, Interval.byCenter]
    rw [← hlen]
    exact length_filter_lt hm (by have := m.center_mem; simp [c]; omega)

/-- The least and the greatest number in the tree. -/
def extent? : IntervalTree α → Option (Nat × Nat)
  | empty => none
  | node low high _ _ _ _ => some (low, high)

def total : IntervalTree α → α
  | empty => Weight.zero
  | node _ _ t _ _ _ => t

def weightWithin (a b : Nat) : IntervalTree α → α
  | empty => Weight.zero
  | node low high t here left right =>
    if high < a || b ≤ low then Weight.zero
    else if a ≤ low && high < b then t
    else
      Weight.add
        (Weight.add (Interval.sum (here.map (·.overlap a b))) (left.weightWithin a b))
        (right.weightWithin a b)

/-- The weight from `a` up to, and without, `b`. -/
def weight (t : IntervalTree α) (a b : Nat) : α := if b ≤ a then Weight.zero else t.weightWithin a b

end IntervalTree
end TileAtlas
