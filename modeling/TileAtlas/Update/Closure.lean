import TileAtlas.ElementId
import Std.Data.ExtTreeSet.Lemmas
/-!
# Everything that depends on some elements

When elements change, so do those made of them, those made of these, and so on.  The walk keeps the
elements it has met and a stack of those whose referrers it has not asked for.  It ends because
there are only so many identifiers: a step that pushes anything has met something new.
-/
namespace TileAtlas

/-- A set of elements, listed in the order of their keys. -/
abbrev ElementSet := Std.ExtTreeSet ElementId

namespace Closure

/-- The elements met so far, and those whose referrers are still to be asked for. -/
abbrev Walk := ElementSet × List ElementId

/-- Meet an element: a new one goes on the stack. -/
def meet (w : Walk) (id : ElementId) : Walk :=
  if w.1.contains id then w else (w.1.insert id, id :: w.2)

/-- How many identifiers have not been met. -/
def unmet (seen : ElementSet) : Nat := UInt64.size - seen.size

theorem length_le_of_ascending (high : Nat) : ∀ (ns : List Nat) (low : Nat),
    ns.Pairwise (· < ·) → (∀ n ∈ ns, low ≤ n ∧ n < high) → ns.length ≤ high - low
  | [], _, _, _ => Nat.zero_le _
  | n :: ns, low, h, hb => by
    rw [List.pairwise_cons] at h
    have := hb n List.mem_cons_self
    have := length_le_of_ascending high ns (n + 1) h.2 fun m hm =>
      ⟨h.1 m hm, (hb m (List.mem_cons_of_mem n hm)).2⟩
    simp only [List.length_cons]
    omega

/-- There are only so many identifiers. -/
theorem size_le (seen : ElementSet) : seen.size ≤ UInt64.size := by
  rw [← Std.ExtTreeSet.length_toList, ← List.length_map (·.raw.toNat)]
  refine length_le_of_ascending UInt64.size _ 0 ?_ fun n hn => ?_
  · rw [List.pairwise_map]
    refine Std.ExtTreeSet.ordered_toList.imp fun {a b} h => ?_
    exact UInt64.lt_iff_toNat_lt.1 (Std.compare_eq_lt.1 h)
  · obtain ⟨id, -, rfl⟩ := List.mem_map.1 hn
    exact ⟨Nat.zero_le _, id.raw.toNat_lt⟩

/-- Meeting elements either leaves the walk alone or makes it meet something new. -/
theorem foldl_meet (ids : List ElementId) (w : Walk) :
    ids.foldl meet w = w ∨ w.1.size < (ids.foldl meet w).1.size := by
  induction ids generalizing w with
  | nil => exact .inl rfl
  | cons id ids ih =>
    rw [List.foldl_cons]
    by_cases h : w.1.contains id
    · rw [show meet w id = w by simp [meet, h]]
      exact ih w
    · have hs : w.1.size < (meet w id).1.size := by
        simp [meet, h, Std.ExtTreeSet.size_insert]
      right
      rcases ih (meet w id) with h' | h'
      · rwa [h']
      · exact Nat.lt_trans hs h'

/-- Ask for the referrers of everything on the stack, and of everything met on the way. -/
def run (referrers : ElementId → Except ε (List ElementId)) (seen : ElementSet)
    (pending : List ElementId) : Except ε ElementSet :=
  match pending with
  | [] => .ok seen
  | id :: rest =>
    match referrers id with
    | .error e => .error e
    | .ok ids =>
      let w := ids.foldl meet (seen, rest)
      run referrers w.1 w.2
termination_by (unmet seen, pending.length)
decreasing_by
  rcases foldl_meet ids (seen, rest) with h | h
  · simp only [h]
    exact Prod.Lex.right _ (Nat.lt_succ_self _)
  · refine Prod.Lex.left _ _ ?_
    have := size_le (ids.foldl meet (seen, rest)).1
    have : seen.size < (ids.foldl meet (seen, rest)).1.size := h
    unfold unmet
    omega

/-- Some elements and all that refer to them, directly or through others. -/
def of (referrers : ElementId → Except ε (List ElementId)) (changed : ElementSet) :
    Except ε ElementSet :=
  run referrers changed changed.toList.reverse

end Closure
end TileAtlas
