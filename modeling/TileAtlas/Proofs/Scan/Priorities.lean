import Mathlib.Data.List.Pairwise
import TileAtlas.Proofs.Scan.Runs
/-!
# Runs in the order of their priorities

Segments that are accepted make runs, numbered from the newest (`SortedRun.exists_of_classify`).  The members of a
run follow one another by their keys (`pairwise_of_mem_classify`), and of two segments of level 0 the one that was
written later is in the earlier run, unless both are in one (`newestFirst_of_classify`).  So where two of them hold
one key, the later of the two hides the other (`priority_lt_of_classify`).
-/
namespace TileAtlas

theorem pairwise_mapM {ε α β : Type} {f : α → Except ε β} {r : α → α → Prop} {q : β → β → Prop} : ∀ {l : List α}
    {bs : List β}, l.mapM f = .ok bs → l.Pairwise r →
    (∀ a a' b b', r a a' → f a = .ok b → f a' = .ok b' → q b b') → bs.Pairwise q
  | [], _, h, _, _ => by cases h; exact .nil
  | a :: l, _, h, hl, hq => by
    obtain ⟨b, bs, hb, hbs, rfl⟩ := exists_of_mapM_cons h
    obtain ⟨ha, hl⟩ := List.pairwise_cons.1 hl
    refine .cons (fun b' hb' => ?_) (pairwise_mapM hbs hl hq)
    obtain ⟨a', ha', hfa'⟩ := (mem_mapM_iff hbs).1 hb'
    exact hq a a' b b' (ha a' ha') hb hfa'

theorem or_of_pairwise {α : Type} {r : α → α → Prop} {l : List α} (h : l.Pairwise r) {a b : α} (ha : a ∈ l) (hb : b ∈ l)
    (hne : a ≠ b) : r a b ∨ r b a := by
  have : Std.Symm fun a b => r a b ∨ r b a := ⟨fun _ _ => Or.symm⟩
  have heither : l.Pairwise fun a b => r a b ∨ r b a := h.imp .inl
  exact heither.forall ha hb hne

namespace SortedRun

/-! ## Segments that follow one another by their keys -/

/-- Where no neighbours overlap, no two segments do. -/
theorem pairwise_of_overlap? {ss : List SegmentMeta} (hkeys : ∀ g ∈ ss, ¬ g.largest < g.smallest)
    (h : overlap? ss = none) : ss.Pairwise (·.largest < ·.smallest) :=
  pairwise_of_neighbours? (r := fun a b => a.largest < b.smallest) (fun htest => by simpa using htest)
    (fun hb hab hbc => List.lt_trans (Bytes.lt_of_lt_of_not_lt hab hb) hbc) hkeys h

theorem byKey_perm (ss : List SegmentMeta) : (byKey ss).Perm ss := List.mergeSort_perm ss _

theorem byOldestWrite_perm (ss : List SegmentMeta) : (byOldestWrite ss).Perm ss := List.mergeSort_perm ss _

theorem newestFirst_perm (ss : List SegmentMeta) : (newestFirst ss).Perm ss := List.mergeSort_perm ss _

theorem pairwise_byKey {ss : List SegmentMeta} (hkeys : ∀ g ∈ ss, ¬ g.largest < g.smallest)
    (h : overlap? (byKey ss) = none) : (byKey ss).Pairwise (·.largest < ·.smallest) :=
  pairwise_of_overlap? (fun g hg => hkeys g ((byKey_perm ss).mem_iff.1 hg)) h

theorem pairwise_newestFirst (ss : List SegmentMeta) : (newestFirst ss).Pairwise fun a b => b.newestWrite ≤ a.newestWrite := by
  have hsorted : (newestFirst ss).Pairwise fun a b => decide (b.newestWrite ≤ a.newestWrite) = true :=
    List.pairwise_mergeSort (fun a b c hab hbc => by simp only [decide_eq_true_eq] at *; omega)
      (fun a b => by simp only [Bool.or_eq_true, decide_eq_true_eq]; omega) ss
  exact hsorted.imp fun hab => of_decide_eq_true hab

/-! ## The runs of a level -/

variable {c : Column} {ss gs : List SegmentMeta} {n : Nat} {rs : List (List SegmentMeta)}

theorem levelRuns_cases (h : levelRuns c n gs = .ok rs) : ∃ l, l.Perm gs ∧
    (rs = [byKey l] ∧ overlap? (byKey l) = none ∨
      n = 0 ∧ (∃ pair, overlap? (byKey l) = some pair) ∧ rs = (newestFirst (byKey l)).map ([·])) := by
  unfold levelRuns at h
  split at h
  · rename_i hn
    cases h
    refine ⟨byOldestWrite gs, byOldestWrite_perm gs, ?_⟩
    unfold level0Runs
    dsimp only
    split
    · rename_i hnone
      exact .inl ⟨rfl, hnone⟩
    · rename_i pair hsome
      exact .inr ⟨hn, ⟨pair, hsome⟩, rfl⟩
  · dsimp only at h
    split at h
    · rename_i hnone
      cases h
      exact ⟨gs, .rfl, .inl ⟨rfl, hnone⟩⟩
    · cases h

/-- **The runs of a level hold each of its segments once.** -/
theorem perm_levelRuns (h : levelRuns c n gs = .ok rs) : rs.flatten.Perm gs := by
  obtain ⟨l, hl, ⟨rfl, -⟩ | ⟨-, -, rfl⟩⟩ := levelRuns_cases h
  · rw [List.flatten_singleton]
    exact (byKey_perm l).trans hl
  · rw [← List.flatMap_def, List.flatMap_singleton']
    exact (newestFirst_perm _).trans ((byKey_perm l).trans hl)

/-- The runs of a level have its segments for their members. -/
theorem mem_levelRuns (h : levelRuns c n gs = .ok rs) (g : SegmentMeta) : (∃ r ∈ rs, g ∈ r) ↔ g ∈ gs := by
  rw [← (perm_levelRuns h).mem_iff, List.mem_flatten]

theorem pairwise_of_mem_levelRuns (hkeys : ∀ g ∈ gs, ¬ g.largest < g.smallest) (h : levelRuns c n gs = .ok rs)
    {r : List SegmentMeta} (hr : r ∈ rs) : r.Pairwise (·.largest < ·.smallest) := by
  obtain ⟨l, hl, ⟨rfl, hnone⟩ | ⟨-, -, rfl⟩⟩ := levelRuns_cases h
  · obtain rfl := List.mem_singleton.1 hr
    exact pairwise_byKey (fun g hg => hkeys g (hl.mem_iff.1 hg)) hnone
  · obtain ⟨g, -, rfl⟩ := List.mem_map.1 hr
    exact List.pairwise_singleton _ g

/-- One list of segments before another: of those of level 0, its own were written last. -/
def NewerFirst (r r' : List SegmentMeta) : Prop :=
  ∀ g ∈ r, ∀ g' ∈ r', g.level = 0 → g'.level = 0 → g'.newestWrite ≤ g.newestWrite

theorem newerFirst_levelRuns (h : levelRuns c n gs = .ok rs) : rs.Pairwise NewerFirst := by
  obtain ⟨l, -, ⟨rfl, -⟩ | ⟨-, -, rfl⟩⟩ := levelRuns_cases h
  · exact List.pairwise_singleton _ _
  · rw [List.pairwise_map]
    refine (pairwise_newestFirst _).imp fun hab g hg g' hg' _ _ => ?_
    rw [List.mem_singleton.1 hg, List.mem_singleton.1 hg']
    exact hab

/-! ## All runs -/

theorem exists_of_classify {runs : List SortedRun} (h : classify c ss = .ok runs) :
    ∃ rss, (levels ss).mapM (fun l => levelRuns c l.1 l.2) = .ok rss ∧ runs = rss.flatten.zipIdx.map fun r => ⟨r.2, r.1⟩ := by
  unfold classify at h
  split at h
  · cases h
  · split at h
    · cases h
    · obtain ⟨rss, hrss, h⟩ := exists_of_bind h
      cases h
      exact ⟨rss, hrss, rfl⟩

theorem mem_levels {g : SegmentMeta} (h : g ∈ ss) : (g.level, ss.filter (·.level = g.level)) ∈ levels ss := by
  have hmem : g ∈ ss.filter (·.level = g.level) := List.mem_filter.2 ⟨h, by simp⟩
  have hfold := getD_foldl_level g.level ss ∅
  rw [Std.ExtTreeMap.getD_empty, List.nil_append, Std.ExtTreeMap.getD_eq_getD_getElem?] at hfold
  rw [levels, Std.ExtTreeMap.mem_toList_iff_getElem?_eq_some]
  cases hfound : (ss.foldl (fun (m : Std.ExtTreeMap Nat (List SegmentMeta)) s =>
      m.insert s.level (m.getD s.level [] ++ [s])) ∅)[g.level]? with
  | none => rw [hfound] at hfold; rw [← hfold] at hmem; cases hmem
  | some gs => rw [hfound] at hfold; exact congrArg some hfold

/-- **Every segment is in a run.** -/
theorem exists_run_of_classify {runs : List SortedRun} (h : classify c ss = .ok runs) {g : SegmentMeta} (hg : g ∈ ss) :
    ∃ r ∈ runs, g ∈ r.segments := by
  obtain ⟨rss, hrss, rfl⟩ := exists_of_classify h
  obtain ⟨rs, hruns⟩ := exists_of_mapM hrss _ (mem_levels hg)
  obtain ⟨r, hr, hgr⟩ := (mem_levelRuns hruns g).2 (List.mem_filter.2 ⟨hg, by simp⟩)
  have hflat : r ∈ rss.flatten := List.mem_flatten.2 ⟨rs, (mem_mapM_iff hrss).2 ⟨_, mem_levels hg, hruns⟩, hr⟩
  rw [← List.zipIdx_map_fst 0 rss.flatten, List.mem_map] at hflat
  obtain ⟨x, hx, rfl⟩ := hflat
  exact ⟨⟨x.2, x.1⟩, List.mem_map_of_mem hx, hgr⟩

/-- **The segments of a run follow one another by their keys.** -/
theorem pairwise_of_mem_classify {runs : List SortedRun} (h : classify c ss = .ok runs)
    (hkeys : ∀ g ∈ ss, ¬ g.largest < g.smallest) {r : SortedRun} (hr : r ∈ runs) :
    r.segments.Pairwise (·.largest < ·.smallest) := by
  obtain ⟨rss, hrss, rfl⟩ := exists_of_classify h
  obtain ⟨x, hx, rfl⟩ := List.mem_map.1 hr
  obtain ⟨rs, hrs, hmem⟩ := List.mem_flatten.1 (List.fst_mem_of_mem_zipIdx hx)
  obtain ⟨⟨n, gs⟩, hl, hruns⟩ := (mem_mapM_iff hrss).1 hrs
  obtain rfl := eq_filter_of_mem_levels hl
  exact pairwise_of_mem_levelRuns (fun g hg => hkeys g (List.mem_filter.1 hg).1) hruns hmem

/-- **Of the segments of level 0 those that were written last come first.** -/
theorem newerFirst_of_classify {runs : List SortedRun} (h : classify c ss = .ok runs) {r r' : SortedRun} (hr : r ∈ runs)
    (hr' : r' ∈ runs) (hlt : r.priority < r'.priority) : NewerFirst r.segments r'.segments := by
  obtain ⟨rss, hrss, rfl⟩ := exists_of_classify h
  have hflat : rss.flatten.Pairwise NewerFirst := by
    refine List.pairwise_flatten.2 ⟨fun rs hrs => ?_, ?_⟩
    · obtain ⟨l, -, hruns⟩ := (mem_mapM_iff hrss).1 hrs
      exact newerFirst_levelRuns hruns
    · -- only one of the levels is level 0
      have hlevels : (levels ss).Pairwise fun l l' => l ∈ levels ss ∧ l' ∈ levels ss ∧ l.1 ≠ l'.1 :=
        (Ascending.toList _).imp_of_mem fun {l l'} hl hl' hll' => ⟨hl, hl', fun heq => compare_irrefl _ (heq ▸ hll')⟩
      refine pairwise_mapM hrss hlevels fun l l' rs rs' ⟨hl, hl', hne⟩ hrs hrs' A hA B hB g hg g' hg' hzero hzero' => ?_
      have hlevel := (mem_levelRuns hrs g).1 ⟨A, hA, hg⟩
      have hlevel' := (mem_levelRuns hrs' g').1 ⟨B, hB, hg'⟩
      rw [eq_filter_of_mem_levels hl, List.mem_filter, hzero, decide_eq_true_eq] at hlevel
      rw [eq_filter_of_mem_levels hl', List.mem_filter, hzero', decide_eq_true_eq] at hlevel'
      exact absurd (hlevel.2.symm.trans hlevel'.2) hne
  obtain ⟨x, hx, rfl⟩ := List.mem_map.1 hr
  obtain ⟨x', hx', rfl⟩ := List.mem_map.1 hr'
  obtain ⟨hi, hget⟩ := List.getElem?_eq_some_iff.1 (List.mem_zipIdx_iff_getElem?.1 hx)
  obtain ⟨hi', hget'⟩ := List.getElem?_eq_some_iff.1 (List.mem_zipIdx_iff_getElem?.1 hx')
  have hpair := List.pairwise_iff_getElem.1 hflat x.2 x'.2 hi hi' hlt
  rwa [hget, hget'] at hpair

/-- **Where two segments of level 0 hold one key, the one that was written later has the smaller priority.** -/
theorem priority_lt_of_classify {runs : List SortedRun} (h : classify c ss = .ok runs)
    (hkeys : ∀ g ∈ ss, ¬ g.largest < g.smallest) {older newer : SegmentMeta} {k : Bytes}
    (holder : older.level = 0) (hnewer : newer.level = 0) (hlt : older.newestWrite < newer.newestWrite)
    (hk : ¬ k < older.smallest ∧ ¬ older.largest < k) (hk' : ¬ k < newer.smallest ∧ ¬ newer.largest < k)
    {r r' : SortedRun} (hr : r ∈ runs) (hr' : r' ∈ runs) (hin : newer ∈ r.segments) (hin' : older ∈ r'.segments) :
    r.priority < r'.priority := by
  rcases Nat.lt_trichotomy r.priority r'.priority with hrr | hrr | hrr
  · exact hrr
  · -- in one run they would not share a key
    obtain rfl : r = r' := by
      obtain ⟨rss, -, rfl⟩ := exists_of_classify h
      obtain ⟨x, hx, rfl⟩ := List.mem_map.1 hr
      obtain ⟨x', hx', rfl⟩ := List.mem_map.1 hr'
      have hget := List.mem_zipIdx_iff_getElem?.1 hx
      rw [show x.2 = x'.2 from hrr, List.mem_zipIdx_iff_getElem?.1 hx'] at hget
      exact congrArg₂ SortedRun.mk hrr (Option.some.inj hget).symm
    have hne : newer ≠ older := fun heq => by rw [heq] at hlt; omega
    rcases or_of_pairwise (pairwise_of_mem_classify h hkeys hr) hin hin' hne with hapart | hapart
    · exact absurd (Bytes.lt_of_lt_of_not_lt hapart hk.1) hk'.2
    · exact absurd (Bytes.lt_of_lt_of_not_lt hapart hk'.1) hk.2
  · have := newerFirst_of_classify h hr' hr hrr older hin' newer hin holder hnewer
    omega

end SortedRun
end TileAtlas
