import TileAtlas.Proofs.Index.References
import TileAtlas.Update.Closure
/-!
# The walk finds everything that depends on the changed elements

Everything met is on the stack or has all its referrers met, and nothing is met that does not depend on
the start (`Closure.Invariant`).  A step keeps to this, and when the stack is empty what was met is
exactly what depends on the start (`Closure.mem_of`).
-/
namespace TileAtlas

/-- An element depends on some elements if it is one of them or is made of one that depends on them. -/
inductive Dependent (links : Links) (start : ElementId → Prop) : ElementId → Prop where
  | self {x : ElementId} (h : start x) : Dependent links start x
  | link {r e : ElementId} (hr : Dependent links start r) (h : links r e) : Dependent links start e

namespace Closure

/-- What the walk keeps to. -/
structure Invariant (links : Links) (start : ElementId → Prop) (w : Walk) : Prop where
  pending : ∀ x ∈ w.2, x ∈ w.1
  met : ∀ x, start x → x ∈ w.1
  closed : ∀ r ∈ w.1, r ∈ w.2 ∨ ∀ e, links r e → e ∈ w.1
  dependent : ∀ x ∈ w.1, Dependent links start x

theorem mem_meet {w : Walk} {id x : ElementId} : x ∈ (meet w id).1 ↔ x ∈ w.1 ∨ x = id := by
  rw [meet]
  split
  · rename_i h
    constructor
    · exact .inl
    · rintro (hx | rfl)
      · exact hx
      · exact Std.ExtTreeSet.mem_iff_contains.2 h
  · rw [Std.ExtTreeSet.mem_insert, Std.LawfulEqOrd.compare_eq_iff_eq, or_comm, eq_comm]

/-- What is on the stack stays there, and so does everything new. -/
theorem mem_stack_meet {w : Walk} {id x : ElementId} : x ∈ (meet w id).2 ↔ x ∈ w.2 ∨ (x = id ∧ id ∉ w.1) := by
  rw [meet]
  split
  · rename_i h
    have hin : id ∈ w.1 := Std.ExtTreeSet.mem_iff_contains.2 h
    simp [hin]
  · rename_i h
    have hout : id ∉ w.1 := fun hin => h (Std.ExtTreeSet.mem_iff_contains.1 hin)
    simp [hout, or_comm]

theorem mem_foldl_meet : ∀ {ids : List ElementId} {w : Walk} {x : ElementId},
    x ∈ (ids.foldl meet w).1 ↔ x ∈ w.1 ∨ x ∈ ids
  | [], w, x => by simp
  | id :: ids, w, x => by
    rw [List.foldl_cons, mem_foldl_meet, mem_meet, List.mem_cons, or_assoc]

theorem mem_stack_foldl_meet : ∀ {ids : List ElementId} {w : Walk} {x : ElementId},
    x ∈ (ids.foldl meet w).2 ↔ x ∈ w.2 ∨ (x ∈ ids ∧ x ∉ w.1)
  | [], w, x => by simp
  | id :: ids, w, x => by
    rw [List.foldl_cons, mem_stack_foldl_meet, mem_stack_meet, mem_meet, List.mem_cons]
    by_cases hx : x = id
    · subst hx
      by_cases hw : x ∈ w.1 <;> simp [hw]
    · simp [hx]

variable {ε : Type} {links : Links} {start : ElementId → Prop}

/-- **Asking for the referrers of the topmost element keeps to the invariant.** -/
theorem Invariant.step {seen : ElementSet} {id : ElementId} {rest ids : List ElementId}
    (h : Invariant links start (seen, id :: rest)) (hids : ∀ e, e ∈ ids ↔ links id e) :
    Invariant links start (ids.foldl meet (seen, rest)) where
  pending x hx := by
    rcases mem_stack_foldl_meet.1 hx with hx | hx
    · exact mem_foldl_meet.2 (.inl (h.pending x (List.mem_cons_of_mem _ hx)))
    · exact mem_foldl_meet.2 (.inr hx.1)
  met x hx := mem_foldl_meet.2 (.inl (h.met x hx))
  closed r hr := by
    -- the topmost element leaves the stack, so its referrers must have been met
    by_cases hseen : r ∈ seen
    · rcases h.closed r hseen with hp | hc
      · rcases List.mem_cons.1 hp with rfl | hp
        · exact .inr fun e he => mem_foldl_meet.2 (.inr ((hids e).2 he))
        · exact .inl (mem_stack_foldl_meet.2 (.inl hp))
      · exact .inr fun e he => mem_foldl_meet.2 (.inl (hc e he))
    · exact .inl (mem_stack_foldl_meet.2 (.inr ⟨(mem_foldl_meet.1 hr).resolve_left hseen, hseen⟩))
  dependent x hx := by
    rcases mem_foldl_meet.1 hx with hx | hx
    · exact h.dependent x hx
    · exact .link (h.dependent id (h.pending id List.mem_cons_self)) ((hids x).1 hx)

theorem Invariant.run {referrers : ElementId → Except ε (List ElementId)}
    (hr : ∀ r, ∃ ids, referrers r = .ok ids ∧ ∀ e, e ∈ ids ↔ links r e) (seen : ElementSet)
    (pending : List ElementId) (h : Invariant links start (seen, pending)) :
    ∃ all, Closure.run referrers seen pending = .ok all ∧ Invariant links start (all, []) := by
  fun_induction Closure.run referrers seen pending with
  | case1 seen => exact ⟨seen, rfl, h⟩
  | case2 seen id rest e he =>
    obtain ⟨ids, hids, -⟩ := hr id
    rw [he] at hids
    cases hids
  | case3 seen id rest ids hids w ih =>
    obtain ⟨ids', hids', hmem⟩ := hr id
    rw [hids] at hids'
    cases hids'
    exact ih (h.step hmem)

/-- **The closure is everything that depends on the changed elements.** -/
theorem mem_of {referrers : ElementId → Except ε (List ElementId)}
    (hr : ∀ r, ∃ ids, referrers r = .ok ids ∧ ∀ e, e ∈ ids ↔ links r e) (changed : ElementSet) :
    ∃ all, Closure.of referrers changed = .ok all ∧ ∀ x, x ∈ all ↔ Dependent links (· ∈ changed) x := by
  have hstart : Invariant links (· ∈ changed) (changed, changed.toList.reverse) :=
    { pending := fun x hx => Std.ExtTreeSet.mem_toList.1 (List.mem_reverse.1 hx)
      met := fun x hx => hx
      closed := fun r hr => .inl (List.mem_reverse.2 (Std.ExtTreeSet.mem_toList.2 hr))
      dependent := fun x hx => .self hx }
  obtain ⟨all, hall, hinv⟩ := hstart.run hr
  refine ⟨all, hall, fun x => ⟨hinv.dependent x, fun hx => ?_⟩⟩
  induction hx with
  | self h => exact hinv.met _ h
  | link _ h ih => exact (hinv.closed _ ih).resolve_left List.not_mem_nil _ h

end Closure
end TileAtlas
