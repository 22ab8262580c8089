import TileAtlas.Proofs.Scan.Piece
import TileAtlas.Proofs.Store.Rows
/-!
# Segments that make runs

Segments without deletion markers are grouped into runs if on level 0 each was written before the next, and below
it those of one level follow one another by their keys (`SortedRun.Layered`).  Nothing is then reordered by the
sorting (`SortedRun.classify_ok`).
-/
namespace TileAtlas

theorem exists_mapM {ε α β : Type} {f : α → Except ε β} : ∀ {l : List α}, (∀ a ∈ l, ∃ b, f a = .ok b) →
    ∃ bs, l.mapM f = .ok bs
  | [], _ => ⟨[], rfl⟩
  | a :: _, h => by
    obtain ⟨b, hb⟩ := h a List.mem_cons_self
    obtain ⟨bs, hbs⟩ := exists_mapM fun x hx => h x (List.mem_cons_of_mem _ hx)
    exact ⟨b :: bs, mapM_cons_ok hb hbs⟩

namespace SortedRun

/-- Segments that are ready to be walked, and in order. -/
structure Layered (ss : List SegmentMeta) : Prop where
  noDeletions : ∀ g ∈ ss, g.deletions = 0
  writes : ∀ g ∈ ss, g.level = 0 → g.oldestWrite ≤ g.newestWrite
  /-- The writes of level 0 do not interleave. -/
  consecutive : (ss.filter (·.level = 0)).Pairwise (·.newestWrite < ·.oldestWrite)
  keys : ∀ g ∈ ss, g.level ≠ 0 → ¬ g.largest < g.smallest
  /-- Below it no two of a level overlap. -/
  apart : ∀ n ≠ 0, (ss.filter (·.level = n)).Pairwise (·.largest < ·.smallest)

theorem neighbours?_eq_none {α : Type} {test : α → α → Bool} : ∀ {l : List α}, l.Pairwise (test · · = false) →
    neighbours? test l = none
  | [], _ => rfl
  | [_], _ => rfl
  | a :: b :: rest, h => by
    obtain ⟨hhead, hrest⟩ := List.pairwise_cons.1 h
    rw [neighbours?, hhead b List.mem_cons_self, if_neg Bool.false_ne_true]
    exact neighbours?_eq_none hrest

/-- Where the test fails of neighbours, what follows from that holds of all, as long as it can be passed on. -/
theorem pairwise_of_neighbours? {α : Type} {test : α → α → Bool} {r : α → α → Prop} {p : α → Prop}
    (htest : ∀ {a b}, test a b = false → r a b) (htrans : ∀ {a b c}, p b → r a b → r b c → r a c) :
    ∀ {l : List α}, (∀ a ∈ l, p a) → neighbours? test l = none → l.Pairwise r
  | [], _, _ => .nil
  | [_], _, _ => List.pairwise_singleton _ _
  | a :: b :: rest, hp, h => by
    rw [neighbours?] at h
    split at h
    · cases h
    · rename_i hab
      have hrab : r a b := htest (Bool.eq_false_iff.2 hab)
      have hrest := pairwise_of_neighbours? htest htrans (fun x hx => hp x (List.mem_cons_of_mem a hx)) h
      refine .cons (fun x hx => ?_) hrest
      rcases List.mem_cons.1 hx with rfl | hx
      · exact hrab
      · exact htrans (hp b (by simp)) hrab (List.rel_of_pairwise_cons hrest hx)

/-- The neighbours that are found stand side by side, and the test holds of them. -/
theorem infix_of_neighbours? {α : Type} {test : α → α → Bool} {a b : α} : ∀ {l : List α},
    neighbours? test l = some (a, b) → test a b = true ∧ [a, b] <:+: l
  | x :: y :: rest, h => by
    rw [neighbours?] at h
    split at h
    · rename_i htest
      cases h
      exact ⟨htest, [], rest, rfl⟩
    · obtain ⟨htest, hinfix⟩ := infix_of_neighbours? h
      exact ⟨htest, hinfix.trans (List.suffix_cons x _).isInfix⟩

/-! ## Levels -/

theorem getD_foldl_level (n : Nat) : ∀ (ss : List SegmentMeta) (m : Std.ExtTreeMap Nat (List SegmentMeta)),
    (ss.foldl (fun (m : Std.ExtTreeMap Nat (List SegmentMeta)) s =>
      m.insert s.level (m.getD s.level [] ++ [s])) m).getD n [] = m.getD n [] ++ ss.filter (·.level = n)
  | [], m => (List.append_nil _).symm
  | s :: ss, m => by
    rw [List.foldl_cons, getD_foldl_level n ss, Std.ExtTreeMap.getD_insert]
    by_cases hs : s.level = n
    · rw [hs, if_pos Std.ReflOrd.compare_self, List.filter_cons_of_pos (by simp [hs]), List.append_assoc]; rfl
    · rw [if_neg fun hc => hs (Std.LawfulEqOrd.eq_of_compare hc), List.filter_cons_of_neg (by simp [hs])]

/-- The segments of a level, in the order in which they were given. -/
theorem eq_filter_of_mem_levels {ss gs : List SegmentMeta} {n : Nat} (h : (n, gs) ∈ levels ss) :
    gs = ss.filter (·.level = n) := by
  have hget := Std.ExtTreeMap.mem_toList_iff_getElem?_eq_some.1 h
  have hfold := getD_foldl_level n ss ∅
  rw [Std.ExtTreeMap.getD_eq_getD_getElem?, hget] at hfold
  simpa using hfold

namespace Layered

variable {ss : List SegmentMeta} (h : Layered ss)
include h

theorem byOldestWrite_eq : byOldestWrite (ss.filter (·.level = 0)) = ss.filter (·.level = 0) := by
  refine List.mergeSort_of_pairwise (h.consecutive.imp_of_mem fun {a b} ha _ hab => decide_eq_true ?_)
  have := h.writes a (List.mem_filter.1 ha).1 (of_decide_eq_true (List.mem_filter.1 ha).2)
  omega

theorem interleaving?_eq_none : interleaving? (byOldestWrite (ss.filter (·.level = 0))) = none := by
  rw [h.byOldestWrite_eq]
  exact neighbours?_eq_none (h.consecutive.imp fun hab => decide_eq_false (Nat.not_le.2 hab))

theorem overlap?_eq_none {n : Nat} (hn : n ≠ 0) : overlap? (byKey (ss.filter (·.level = n))) = none := by
  have hsorted : byKey (ss.filter (·.level = n)) = ss.filter (·.level = n) := by
    refine List.mergeSort_of_pairwise ((h.apart n hn).imp_of_mem fun {a b} ha _ hab => ?_)
    obtain ⟨hmem, hlevel⟩ := List.mem_filter.1 ha
    have hkeys := h.keys a hmem (by rw [of_decide_eq_true hlevel]; exact hn)
    simp only [Bool.not_eq_true', decide_eq_false_iff_not]
    exact fun hba => hkeys (List.lt_trans hab hba)
  rw [hsorted]
  exact neighbours?_eq_none ((h.apart n hn).imp fun hab => by simp [hab])

theorem levelRuns_ok (c : Column) {l : Nat × List SegmentMeta} (hl : l ∈ levels ss) :
    ∃ runs, levelRuns c l.1 l.2 = .ok runs := by
  obtain ⟨n, gs⟩ := l
  obtain rfl := eq_filter_of_mem_levels hl
  unfold levelRuns
  dsimp only
  split
  · exact ⟨_, rfl⟩
  · rename_i hn
    rw [h.overlap?_eq_none hn]
    exact ⟨_, rfl⟩

end Layered

/-- **Segments that are ready and in order are accepted.** -/
theorem classify_ok (c : Column) {ss : List SegmentMeta} (h : Layered ss) : ∃ runs, classify c ss = .ok runs := by
  have hfind : ss.find? (0 < ·.deletions) = none :=
    List.find?_eq_none.2 fun g hg => by simp [h.noDeletions g hg]
  obtain ⟨runs, hruns⟩ := exists_mapM fun l hl => h.levelRuns_ok c (l := l) hl
  rw [classify, hfind]
  simp only [h.interleaving?_eq_none, hruns]
  exact ⟨_, rfl⟩

end SortedRun
end TileAtlas
