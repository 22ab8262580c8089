import Mathlib.Algebra.BigOperators.Group.List.Basic
import Mathlib.Algebra.Order.Ring.Rat
import Mathlib.Data.Nat.Size
import Mathlib.Data.Rat.Cast.Order
import Mathlib.Tactic.FieldSimp
import Mathlib.Tactic.Linarith
import Mathlib.Tactic.Ring
import TileAtlas.Proofs.Scan.Piece
/-!
# Weights add up

A tree of intervals skips the subtrees that a range misses and takes those that it covers whole.  With weights that
are not rounded it still answers with the plain sum of what its intervals hold of the range
(`IntervalTree.weightWithin_eq`).  An interval holds of a range what it holds before the end less what it holds before
the start (`Interval.overlap_eq_sub`), so wherever a range is cut, its parts weigh together as much as the range.

A tree is built from halves, so it is as high as its number of intervals has binary digits
(`IntervalTree.height_build_le`), and no query subtracts the larger number from the smaller
(`IntervalTree.weight?_eq`).
-/
namespace TileAtlas

/-! ## Weights without rounding -/

instance : Weight ℚ where
  zero := 0
  add := (· + ·)
  share w part whole := w * Weight.clampUnit ((part : ℚ) / whole)

/-- A part of a whole needs no clamping. -/
theorem Weight.share_eq (w : ℚ) {part whole : Nat} (h : part ≤ whole) :
    Weight.share w part whole = w * ((part : ℚ) / whole) := by
  have hlow : ¬ ((part : ℚ) / whole) < 0 := not_lt.2 (div_nonneg part.cast_nonneg whole.cast_nonneg)
  have hhigh : ¬ 1 < ((part : ℚ) / whole) := not_lt.2 (div_le_one_of_le₀ (Nat.cast_le.2 h) whole.cast_nonneg)
  change w * Weight.clampUnit _ = _
  rw [Weight.clampUnit, if_neg hlow, if_neg hhigh]

namespace Interval

theorem sum_eq (ws : List ℚ) : sum ws = ws.sum := by
  rw [List.sum_eq_foldl]
  rfl

theorem totalWeight_eq (is : List (Interval ℚ)) : totalWeight is = (is.map (·.weight)).sum := sum_eq _

/-! ## What an interval holds of a range -/

section Overlap

variable {α : Type} [Weight α] (i : Interval α) {a b : Nat}

theorem overlap_of_apart (h : i.high < a ∨ b ≤ i.low) : i.overlap a b = Weight.zero := by
  rw [overlap, if_pos (by simpa using h)]

theorem overlap_of_covered (ha : a ≤ i.low) (hb : i.high < b) : i.overlap a b = i.weight := by
  have := i.low_le_high
  rw [overlap, if_neg (by simp; omega), if_pos (by simp [ha, hb])]

end Overlap

/-- What an interval holds before a number: an interval of a single key holds nothing up to that key and everything
after it. -/
def before (i : Interval ℚ) (n : Nat) : ℚ :=
  if i.low = i.high then if i.low < n then i.weight else 0
  else i.weight * ((min n i.high - i.low : Nat) : ℚ) / (i.high - i.low : Nat)

/-- An interval of several keys holds its share of a range, also where they are apart or the range covers it. -/
theorem overlap_eq_share (i : Interval ℚ) (hi : i.low < i.high) (a b : Nat) :
    i.overlap a b = i.weight * (((min i.high b - max i.low a : Nat) : ℚ) / (i.high - i.low : Nat)) := by
  by_cases hapart : i.high < a ∨ b ≤ i.low
  · -- nothing is left between the ends
    rw [overlap_of_apart i hapart, show min i.high b - max i.low a = 0 by omega, Nat.cast_zero, zero_div, mul_zero]
    rfl
  by_cases hcovered : a ≤ i.low ∧ i.high < b
  · -- the part is the whole, which is not 0
    have hspan : ((i.high - i.low : Nat) : ℚ) ≠ 0 := Nat.cast_ne_zero.2 (by omega)
    rw [overlap_of_covered i hcovered.1 hcovered.2, show min i.high b - max i.low a = i.high - i.low by omega,
      div_self hspan, mul_one]
  · rw [overlap, if_neg (by simpa using hapart), if_neg (by simpa [hi.ne] using hcovered),
      Weight.share_eq _ (by omega)]

/-- **An interval holds of a range what it holds before the end less what it holds before the start.** -/
theorem overlap_eq_sub (i : Interval ℚ) {a b : Nat} (hab : a ≤ b) : i.overlap a b = i.before b - i.before a := by
  rcases i.low_le_high.eq_or_lt with hpoint | hi
  · rw [before, before, if_pos hpoint, if_pos hpoint]
    by_cases hapart : i.low < a ∨ b ≤ i.low
    · rw [overlap_of_apart i (hpoint ▸ hapart)]
      rcases hapart with ha | hb
      · rw [if_pos (ha.trans_le hab), if_pos ha, sub_self]; rfl
      · rw [if_neg (by omega), if_neg (by omega), sub_self]; rfl
    · obtain ⟨ha, hb⟩ : a ≤ i.low ∧ i.low < b := by omega
      rw [overlap_of_covered i ha (hpoint ▸ hb), if_pos hb, if_neg (Nat.not_lt.2 ha), sub_zero]
  · -- before the end lies what lies before the start and what lies in the range, also where either is outside
    have hsplit : min b i.high - i.low = (min i.high b - max i.low a) + (min a i.high - i.low) := by omega
    rw [overlap_eq_share i hi, before, before, if_neg hi.ne, if_neg hi.ne, hsplit, Nat.cast_add]
    ring

theorem overlap_add (i : Interval ℚ) {lo mid hi : Nat} (hlo : lo ≤ mid) (hhi : mid ≤ hi) :
    i.overlap lo mid + i.overlap mid hi = i.overlap lo hi := by
  rw [overlap_eq_sub i hlo, overlap_eq_sub i hhi, overlap_eq_sub i (hlo.trans hhi)]
  ring

end Interval

/-! ## Trees -/

namespace IntervalTree

section Shape

variable {α : Type}

def intervals : IntervalTree α → List (Interval α)
  | empty => []
  | node _ _ _ here left right => here ++ (left.intervals ++ right.intervals)

def height : IntervalTree α → Nat
  | empty => 0
  | node _ _ _ _ left right => max left.height right.height + 1

end Shape

/-- Every node tells bounds and the weight of the intervals from it down. -/
def Summarized : IntervalTree ℚ → Prop
  | empty => True
  | node low high total here left right =>
    (∀ i ∈ here ++ (left.intervals ++ right.intervals), low ≤ i.low ∧ i.high ≤ high) ∧
      total = ((here ++ (left.intervals ++ right.intervals)).map (·.weight)).sum ∧ left.Summarized ∧ right.Summarized

/-- **What is skipped holds nothing, and what is taken whole holds its total.** -/
theorem weightWithin_eq (a b : Nat) : ∀ {t : IntervalTree ℚ}, t.Summarized →
    t.weightWithin a b = (t.intervals.map (·.overlap a b)).sum
  | empty, _ => rfl
  | node low high total here left right, ⟨hbounds, htotal, hleft, hright⟩ => by
    rw [weightWithin, intervals]
    split
    · rename_i hmiss
      rw [Bool.or_eq_true, decide_eq_true_eq, decide_eq_true_eq] at hmiss
      refine (List.sum_eq_zero (List.forall_mem_map.2 fun i hi => ?_)).symm
      obtain ⟨hlow, hhigh⟩ := hbounds i hi
      exact i.overlap_of_apart (by omega)
    · split
      · rename_i hcover
        rw [Bool.and_eq_true, decide_eq_true_eq, decide_eq_true_eq] at hcover
        rw [htotal]
        refine congrArg List.sum (List.map_congr_left fun i hi => ?_)
        obtain ⟨hlow, hhigh⟩ := hbounds i hi
        exact (i.overlap_of_covered (hcover.1.trans hlow) (hhigh.trans_lt hcover.2)).symm
      · rw [weightWithin_eq a b hleft, weightWithin_eq a b hright, Interval.sum_eq, List.map_append, List.map_append,
          List.sum_append, List.sum_append]
        exact add_assoc _ _ _

/-! ## Building -/

/-- A fold whose steps are bounds of what they pass ends at a bound of everything. -/
theorem foldl_bounds {β : Type} (r : Nat → Nat → Prop) (hrefl : ∀ n, r n n) (htrans : ∀ {a b c}, r a b → r b c → r a c)
    (op : Nat → β → Nat) (f : β → Nat) (hop : ∀ n x, r (op n x) n ∧ r (op n x) (f x)) : ∀ (l : List β) (n : Nat),
    r (l.foldl op n) n ∧ ∀ x ∈ l, r (l.foldl op n) (f x)
  | [], n => ⟨hrefl n, nofun⟩
  | x :: l, n => by
    obtain ⟨hfirst, hrest⟩ := foldl_bounds r hrefl htrans op f hop l (op n x)
    exact ⟨htrans hfirst (hop n x).1, List.forall_mem_cons.2 ⟨htrans hfirst (hop n x).2, hrest⟩⟩

theorem filter_three_perm {β : Type} {p q : β → Bool} (l : List β) (h : ∀ x ∈ l, q x = true → p x = false) :
    (l.filter (fun x => !p x && !q x) ++ (l.filter p ++ l.filter q)).Perm l := by
  have hq : (l.filter (fun x => !p x)).filter q = l.filter q := by
    rw [List.filter_filter]
    refine List.filter_congr fun x hx => ?_
    cases hqx : q x with
    | false => rfl
    | true => rw [h x hx hqx]; rfl
  have hneither : (l.filter (fun x => !p x)).filter (fun x => !q x) = l.filter (fun x => !p x && !q x) := by
    rw [List.filter_filter]
    exact List.filter_congr fun x _ => Bool.and_comm ..
  rw [← hneither, ← hq]
  refine List.perm_append_comm.trans ?_
  rw [List.append_assoc]
  exact ((List.filter_append_perm q _).append_left _).trans (List.filter_append_perm p l)

theorem pairwise_byCenter {α : Type} (is : List (Interval α)) :
    (Interval.byCenter is).Pairwise fun a b => a.center ≤ b.center := by
  refine (List.pairwise_mergeSort (fun a b c hab hbc => ?_) (fun a b => ?_) is).imp of_decide_eq_true
  · simpa using Nat.le_trans (by simpa using hab) (by simpa using hbc)
  · simpa using Nat.le_total a.center b.center

/-- What stands before the interval at a place has no center after that interval's, and what stands behind it none
before. -/
theorem byCenter_split {α : Type} {is : List (Interval α)} {k : Nat} {m : Interval α}
    (h : (Interval.byCenter is)[k]? = some m) :
    ∃ front back, Interval.byCenter is = front ++ m :: back ∧ front.length = k ∧
      (∀ i ∈ front, i.center ≤ m.center) ∧ ∀ i ∈ back, m.center ≤ i.center := by
  obtain ⟨hk, hm⟩ := List.getElem?_eq_some_iff.1 h
  have hsplit : Interval.byCenter is = (Interval.byCenter is).take k ++ m :: (Interval.byCenter is).drop (k + 1) := by
    rw [← hm, List.getElem_cons_drop, List.take_append_drop]
  have hsorted := pairwise_byCenter is
  rw [hsplit] at hsorted
  obtain ⟨-, hback, hfront⟩ := List.pairwise_append.1 hsorted
  exact ⟨_, _, hsplit, List.length_take_of_le hk.le, fun i hi => hfront i hi m List.mem_cons_self,
    (List.pairwise_cons.1 hback).1⟩

/-- At most half of the intervals end before the center of the one in the middle, and at most half begin after it. -/
theorem length_sides_le {α : Type} {is : List (Interval α)} {m : Interval α}
    (h : (Interval.byCenter is)[(Interval.byCenter is).length / 2]? = some m) :
    ((Interval.byCenter is).filter fun j => j.high < m.center).length ≤ is.length / 2 ∧
      ((Interval.byCenter is).filter fun j => m.center < j.low).length ≤ is.length / 2 := by
  have hlen : (Interval.byCenter is).length = is.length := List.length_mergeSort is
  obtain ⟨front, back, hsplit, hfront, hbefore, hafter⟩ := byCenter_split h
  have hmiddle := m.center_mem
  have hleft : (m :: back).filter (fun j => j.high < m.center) = [] :=
    List.filter_eq_nil_iff.2 (List.forall_mem_cons.2 ⟨by simpa using hmiddle.2, fun j hj => by
      have hj' := hafter j hj
      have hcenter := j.center_mem
      simp only [decide_eq_true_eq]; omega⟩)
  have hright : (front ++ [m]).filter (fun j => m.center < j.low) = [] :=
    List.filter_eq_nil_iff.2 fun j hj => by
      have hcenter := j.center_mem
      rcases List.mem_append.1 hj with hj | hj
      · have hj' := hbefore j hj
        simp only [decide_eq_true_eq]; omega
      · rw [List.mem_singleton.1 hj]
        simpa using hmiddle.1
  have hcount := congrArg List.length hsplit
  rw [List.length_append, List.length_cons] at hcount
  constructor
  · rw [hsplit, List.filter_append, hleft, List.append_nil]
    exact (List.length_filter_le ..).trans (by omega)
  · rw [hsplit, List.append_cons, List.filter_append, hright, List.nil_append]
    exact (List.length_filter_le ..).trans (by omega)

theorem foldl_low_high {α : Type} (i : Interval α) (rest : List (Interval α)) : ∀ j ∈ i :: rest,
    rest.foldl (fun n j => min n j.low) i.low ≤ j.low ∧ j.high ≤ rest.foldl (fun n j => max n j.high) i.high := by
  have hlow := foldl_bounds (· ≤ ·) Nat.le_refl Nat.le_trans _ (fun j : Interval α => j.low)
    (fun n j => ⟨Nat.min_le_left n j.low, Nat.min_le_right n j.low⟩) rest i.low
  have hhigh := foldl_bounds (· ≥ ·) Nat.le_refl (fun h h' => Nat.le_trans h' h) _ (fun j : Interval α => j.high)
    (fun n j => ⟨Nat.le_max_left n j.high, Nat.le_max_right n j.high⟩) rest i.high
  exact List.forall_mem_cons.2 ⟨⟨hlow.1, hhigh.1⟩, fun j hj => ⟨hlow.2 j hj, hhigh.2 j hj⟩⟩

/-- **A node tells bounds and the weight of the intervals that it is built from**, and divides them so that no more
than half of them go to either side. -/
theorem build_eq {α : Type} [Weight α] {is : List (Interval α)} (h : is ≠ []) :
    ∃ low high here left right, build is = .node low high (Interval.totalWeight is) here (build left) (build right) ∧
      (∀ i ∈ is, low ≤ i.low ∧ i.high ≤ high) ∧ (here ++ (left ++ right)).Perm is ∧
      left.length ≤ is.length / 2 ∧ right.length ≤ is.length / 2 := by
  obtain ⟨i, rest, rfl⟩ := List.exists_cons_of_ne_nil h
  have hempty : build ([] : List (Interval α)) = .empty := by rw [build]
  have hbounds := foldl_low_high i rest
  rw [build]
  simp only
  split
  · -- few intervals stay together
    exact ⟨_, _, i :: rest, [], [], by rw [hempty], hbounds, by simp, Nat.zero_le _, Nat.zero_le _⟩
  · split
    · exact ⟨_, _, i :: rest, [], [], by rw [hempty], hbounds, by simp, Nat.zero_le _, Nat.zero_le _⟩
    · rename_i m hm
      -- no interval both begins after the center and ends before it
      have hapart : ∀ j ∈ Interval.byCenter (i :: rest), decide (m.center < j.low) = true →
          decide (j.high < m.center) = false := fun j _ hj => by
        have := j.low_le_high
        simp only [decide_eq_true_eq, decide_eq_false_iff_not] at hj ⊢
        omega
      exact ⟨_, _, _, _, _, rfl, hbounds, (filter_three_perm _ hapart).trans (List.mergeSort_perm ..),
        length_sides_le hm⟩

-- Both inductions below halve the bound on the number of intervals, as building does.

/-- **A tree holds the intervals that it is built from**, and its nodes tell what they hold. -/
theorem build_holds : ∀ (n : Nat) (is : List (Interval ℚ)), is.length < 2 ^ n →
    (build is).intervals.Perm is ∧ (build is).Summarized
  | n, [], _ => by rw [build]; exact ⟨.nil, trivial⟩
  | 0, i :: is, hn => by simp at hn
  | n + 1, i :: is, hn => by
    obtain ⟨low, high, here, left, right, hbuild, hbounds, hperm, hleft, hright⟩ := build_eq (List.cons_ne_nil i is)
    obtain ⟨hpl, hsl⟩ := build_holds n left (by omega)
    obtain ⟨hpr, hsr⟩ := build_holds n right (by omega)
    have hall : (here ++ ((build left).intervals ++ (build right).intervals)).Perm (i :: is) :=
      ((hpl.append hpr).append_left here).trans hperm
    rw [hbuild]
    refine ⟨hall, fun j hj => hbounds j (hall.mem_iff.1 hj), ?_, hsl, hsr⟩
    rw [Interval.totalWeight_eq]
    exact ((hall.map _).sum_eq).symm

/-- **With twice the intervals a tree is built one level higher.** -/
theorem height_build_le {α : Type} [Weight α] : ∀ (n : Nat) (is : List (Interval α)), is.length < 2 ^ n →
    (build is).height ≤ n
  | n, [], _ => by rw [build]; exact Nat.zero_le n
  | 0, i :: is, hn => by simp at hn
  | n + 1, i :: is, hn => by
    obtain ⟨low, high, here, left, right, hbuild, -, -, hleft, hright⟩ := build_eq (List.cons_ne_nil i is)
    rw [hbuild]
    exact Nat.succ_le_succ (max_le (height_build_le n left (by omega)) (height_build_le n right (by omega)))

end IntervalTree

/-! ## Subtractions -/

/-- Subtraction that fails below 0. -/
def KeyNumber.sub? (a b : Nat) : Option Nat := if b ≤ a then some (a - b) else none

theorem KeyNumber.sub?_eq {a b : Nat} (h : b ≤ a) : sub? a b = some (a - b) := if_pos h

section Checked

variable {α : Type} [Weight α]

/-- The weight of a range in an interval, where every subtraction is checked. -/
def Interval.overlap? (i : Interval α) (a b : Nat) : Option α :=
  if i.high < a || b ≤ i.low then some Weight.zero
  else if i.low = i.high || (a ≤ i.low && i.high < b) then some i.weight
  else do
    let part ← KeyNumber.sub? (min i.high b) (max i.low a)
    let whole ← KeyNumber.sub? i.high i.low
    return Weight.share i.weight part whole

namespace IntervalTree

def weightWithin? (a b : Nat) : IntervalTree α → Option α
  | empty => some Weight.zero
  | node low high t here left right =>
    if high < a || b ≤ low then some Weight.zero
    else if a ≤ low && high < b then some t
    else do
      let hereWeights ← here.mapM (·.overlap? a b)
      let leftWeight ← left.weightWithin? a b
      let rightWeight ← right.weightWithin? a b
      return Weight.add (Weight.add (Interval.sum hereWeights) leftWeight) rightWeight

def weight? (t : IntervalTree α) (a b : Nat) : Option α :=
  if b ≤ a then some Weight.zero else t.weightWithin? a b

end IntervalTree

theorem Interval.overlap?_eq (i : Interval α) {a b : Nat} (hab : a ≤ b) : i.overlap? a b = some (i.overlap a b) := by
  rw [overlap?, overlap]
  split
  · rfl
  · split
    · rfl
    · rename_i hapart _
      have hlow := i.low_le_high
      simp only [Bool.or_eq_true, decide_eq_true_eq] at hapart
      rw [KeyNumber.sub?_eq (by omega), KeyNumber.sub?_eq hlow]
      rfl

namespace IntervalTree

theorem weightWithin?_eq {a b : Nat} (hab : a ≤ b) : ∀ t : IntervalTree α,
    t.weightWithin? a b = some (t.weightWithin a b)
  | empty => rfl
  | node low high t here left right => by
    have hhere : here.mapM (·.overlap? a b) = some (here.map (·.overlap a b)) := by
      rw [funext fun i : Interval α => i.overlap?_eq hab]
      exact List.mapM_pure
    rw [weightWithin?, weightWithin, hhere, weightWithin?_eq hab left, weightWithin?_eq hab right]
    split
    · rfl
    · split <;> rfl

/-- **No query subtracts the larger number from the smaller.** -/
theorem weight?_eq (t : IntervalTree α) (a b : Nat) : t.weight? a b = some (t.weight a b) := by
  rw [weight?, weight]
  split
  · rfl
  · exact weightWithin?_eq (by omega) t

end IntervalTree

end Checked

/-! ## Cutting ranges -/

namespace IntervalTree

theorem weight_eq (is : List (Interval ℚ)) {lo hi : Nat} (h : lo ≤ hi) :
    (build is).weight lo hi = (is.map (·.overlap lo hi)).sum := by
  rcases h.eq_or_lt with rfl | hlt
  · -- an empty range is not looked up, and no interval holds anything of it
    rw [weight, if_pos (Nat.le_refl lo)]
    refine (List.sum_eq_zero (List.forall_mem_map.2 fun i _ => ?_)).symm
    rw [i.overlap_eq_sub (Nat.le_refl lo), sub_self]
  · obtain ⟨hperm, hsummarized⟩ := build_holds _ is Nat.lt_two_pow_self
    rw [weight, if_neg (Nat.not_le.2 hlt), weightWithin_eq lo hi hsummarized]
    exact (hperm.map _).sum_eq

theorem weight_add (is : List (Interval ℚ)) {lo mid hi : Nat} (hlo : lo ≤ mid) (hhi : mid ≤ hi) :
    (build is).weight lo mid + (build is).weight mid hi = (build is).weight lo hi := by
  rw [weight_eq is hlo, weight_eq is hhi, weight_eq is (hlo.trans hhi), ← List.sum_map_add]
  exact congrArg List.sum (List.map_congr_left fun i _ => i.overlap_add hlo hhi)

end IntervalTree

theorem Piece.weightIn_trySplit (is : List (Interval ℚ)) {p lower upper : Piece}
    (h : p.trySplit = some (lower, upper)) :
    ScanPlan.weightIn (.build is) lower.range + ScanPlan.weightIn (.build is) upper.range =
      ScanPlan.weightIn (.build is) p.range := by
  obtain ⟨k, hk, rfl, rfl⟩ := trySplit_eq h
  obtain ⟨n, hlo, hhi, hlower, hupper⟩ := ScanPlan.bounds_split hk
  rw [ScanPlan.weightIn, ScanPlan.weightIn, hlower, hupper]
  exact IntervalTree.weight_add is hlo.le hhi.le

theorem Cursor.weightIn_trySplit (is : List (Interval ℚ)) {c c' : Cursor} {upper : Piece}
    (h : c.trySplit = some (c', upper)) :
    ScanPlan.weightIn (.build is) c'.piece.range + ScanPlan.weightIn (.build is) upper.range =
      ScanPlan.weightIn (.build is) c.piece.range := by
  obtain ⟨-, lower, hlower, rfl⟩ := trySplit_eq h
  exact Piece.weightIn_trySplit is hlower

/-- **A tree of intervals weighs a range as its intervals do one by one, and cutting a range conserves its weight.**
Building ends: the tree holds what it is built from, on no more levels than the number of intervals has binary digits.
Queries never subtract below 0.  So the estimates of the parts of a piece add up to that of the piece, wherever its plan
splits it, and what a cursor keeps and what it hands off add up to what it had. -/
theorem IntervalTree.weight_conserved (is : List (Interval ℚ)) :
    ((build is).intervals.Perm is ∧ (build is).height ≤ is.length.size) ∧
      (∀ lo hi, (build is).weight? lo hi = some ((build is).weight lo hi)) ∧
      (∀ lo hi, lo ≤ hi → (build is).weight lo hi = (is.map (·.overlap lo hi)).sum) ∧
      (∀ lo mid hi, lo ≤ mid → mid ≤ hi →
        (build is).weight lo mid + (build is).weight mid hi = (build is).weight lo hi) ∧
      (∀ p lower upper : Piece, p.trySplit = some (lower, upper) →
        ScanPlan.weightIn (build is) lower.range + ScanPlan.weightIn (build is) upper.range =
          ScanPlan.weightIn (build is) p.range) ∧
      ∀ (c c' : Cursor) (upper : Piece), c.trySplit = some (c', upper) →
        ScanPlan.weightIn (build is) c'.piece.range + ScanPlan.weightIn (build is) upper.range =
          ScanPlan.weightIn (build is) c.piece.range :=
  ⟨⟨(build_holds _ is Nat.lt_two_pow_self).1, height_build_le _ is (Nat.lt_size_self _)⟩,
    weight?_eq _, fun _ _ => weight_eq is, fun _ _ _ => weight_add is,
    fun _ _ _ => Piece.weightIn_trySplit is, fun _ _ _ => Cursor.weightIn_trySplit is⟩

/-- Ten intervals with gaps between them, and the single key at which the third one ends. -/
def spans : List (Interval ℚ) :=
  ⟨5 * 2 ^ 121, 5 * 2 ^ 121, Nat.le_refl _, 7⟩ ::
    (List.range 10).map fun n => ⟨2 * n * 2 ^ 121, (2 * n + 1) * 2 ^ 121, by omega, 100 * (n + 1)⟩

def spansPiece : Piece where
  plan := ⟨.node 0 (2 ^ 125) 4096.0 [⟨0, 2 ^ 125, by decide, 4096.0⟩] .empty .empty, 1024.0⟩
  pairsFrom _ := []
  range := .all

def spansKey : Bytes := [15, 255, 240, 0, 0, 0, 0, 0, 0, 0, 0, 0, 0, 0, 0, 0]

def spansLower : Piece := { spansPiece with range := ⟨[], some spansKey⟩ }

def spansUpper : Piece := { spansPiece with range := ⟨spansKey, none⟩ }

/-- A query from the middle of an interval is cut where another ends and a single key lies. -/
theorem IntervalTree.weight_conserved_spans :
    (build spans).height ≤ 4 ∧
      (build spans).weight (2 ^ 120) (5 * 2 ^ 121) = 550 ∧ (build spans).weight (2 ^ 120) (15 * 2 ^ 121) = 3557 ∧
      (build spans).weight (2 ^ 120) (5 * 2 ^ 121) + (build spans).weight (5 * 2 ^ 121) (15 * 2 ^ 121) =
        (build spans).weight (2 ^ 120) (15 * 2 ^ 121) ∧
      spansPiece.trySplit = some (spansLower, spansUpper) ∧
      ScanPlan.weightIn (build spans) spansLower.range + ScanPlan.weightIn (build spans) spansUpper.range =
        ScanPlan.weightIn (build spans) spansPiece.range ∧
      (Cursor.ofPiece spansPiece).trySplit = some (Cursor.ofPiece spansLower, spansUpper) ∧
      ScanPlan.weightIn (build spans) (Cursor.ofPiece spansLower).piece.range +
          ScanPlan.weightIn (build spans) spansUpper.range =
        ScanPlan.weightIn (build spans) (Cursor.ofPiece spansPiece).piece.range := by
  obtain ⟨⟨-, hheight⟩, -, hsum, hadd, hpiece, hcursor⟩ := weight_conserved spans
  have hkey : spansPiece.plan.splitKey? .all = some spansKey := by decide +kernel
  have hsplit : spansPiece.trySplit = some (spansLower, spansUpper) := congrArg (Option.map _) hkey
  have hhandOff : (Cursor.ofPiece spansPiece).trySplit = some (Cursor.ofPiece spansLower, spansUpper) := by
    rw [Cursor.trySplit_ofPiece, hsplit]; rfl
  have hlo : 2 ^ 120 ≤ 5 * 2 ^ 121 := by decide +kernel
  have hhi : 5 * 2 ^ 121 ≤ 15 * 2 ^ 121 := by decide +kernel
  refine ⟨hheight, (hsum _ _ hlo).trans ?_, (hsum _ _ (hlo.trans hhi)).trans ?_, hadd _ _ _ hlo hhi, hsplit,
    hpiece spansPiece spansLower spansUpper hsplit, hhandOff, hcursor (.ofPiece spansPiece) (.ofPiece spansLower)
      spansUpper hhandOff⟩
  · decide +kernel
  · decide +kernel

end TileAtlas
