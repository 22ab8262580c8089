import Mathlib.Data.List.Perm.Subperm
import TileAtlas.Proofs.Scan.Priorities
/-!
# Which segments can be walked, and as which runs

A column can be walked if no segment has deletion markers, no two segments of level 0 share the number of a write, and
no two of a deeper level share a key (`SortedRun.Groupable`).  Whether any two do is found out from neighbours only,
in the order of writes and in the order of keys.  That is enough: where no neighbours share anything the whole list is
one chain, and where two do the later of them begins inside the other (`SortedRun.classify_groups`).
-/
namespace TileAtlas

namespace SegmentMeta

/-- The bounds of a segment are in order. -/
structure IsRanged (g : SegmentMeta) : Prop where
  keys : ¬ g.largest < g.smallest
  writes : g.oldestWrite ≤ g.newestWrite

instance : DecidablePred IsRanged := fun g =>
  decidable_of_iff (¬ g.largest < g.smallest ∧ g.oldestWrite ≤ g.newestWrite) ⟨fun h => ⟨h.1, h.2⟩, fun h => ⟨h.1, h.2⟩⟩

/-- A key is between the bounds of a segment. -/
def Covers (g : SegmentMeta) (k : Bytes) : Prop := ¬ k < g.smallest ∧ ¬ g.largest < k

/-- The number of a write is between those of a segment. -/
def Spans (g : SegmentMeta) (n : Nat) : Prop := g.oldestWrite ≤ n ∧ n ≤ g.newestWrite

def KeysApart (a b : SegmentMeta) : Prop := ∀ k, a.Covers k → ¬ b.Covers k

def WritesApart (a b : SegmentMeta) : Prop := ∀ n, a.Spans n → ¬ b.Spans n

variable {a b : SegmentMeta}

theorem KeysApart.symm (h : a.KeysApart b) : b.KeysApart a := fun k hb ha => h k ha hb

theorem WritesApart.symm (h : a.WritesApart b) : b.WritesApart a := fun n hb ha => h n ha hb

theorem keysApart_of_lt (h : a.largest < b.smallest) : a.KeysApart b := fun _ ha hb =>
  ha.2 (Bytes.lt_of_lt_of_not_lt h hb.1)

theorem writesApart_of_lt (h : a.newestWrite < b.oldestWrite) : a.WritesApart b := fun _ ha hb => by
  have := ha.2
  have := hb.1
  omega

/-- A segment that begins inside another shares a key with it, the one that it begins with. -/
theorem not_keysApart (hb : b.IsRanged) (hfirst : ¬ b.smallest < a.smallest) (hinside : ¬ a.largest < b.smallest) :
    ¬ a.KeysApart b := fun h => h b.smallest ⟨hfirst, hinside⟩ ⟨List.lt_irrefl _, hb.keys⟩

theorem not_writesApart (hb : b.IsRanged) (hfirst : a.oldestWrite ≤ b.oldestWrite)
    (hinside : b.oldestWrite ≤ a.newestWrite) : ¬ a.WritesApart b := fun h =>
  h b.oldestWrite ⟨hfirst, hinside⟩ ⟨Nat.le_refl _, hb.writes⟩

end SegmentMeta

open SegmentMeta (IsRanged KeysApart WritesApart keysApart_of_lt writesApart_of_lt not_keysApart not_writesApart)

theorem not_pairwise_of_subperm {α : Type} {r : α → α → Prop} (hsymm : ∀ {x y}, r x y → r y x) {a b : α} {l : List α}
    (h : List.Subperm [a, b] l) (hab : ¬ r a b) : ¬ l.Pairwise r := fun hl => by
  obtain ⟨l', hperm, hsub⟩ := h
  have hpair : [a, b].Pairwise r := (hl.sublist hsub).perm hperm hsymm
  exact hab (List.rel_of_pairwise_cons hpair (by simp))

/-- Lists that are split by something are put together again, as far as it was looked for. -/
theorem flatMap_filter_perm {α : Type} (f : α → Nat) (l : List α) : ∀ {ns : List Nat}, ns.Nodup →
    (ns.flatMap fun n => l.filter (f · = n)).Perm (l.filter (f · ∈ ns))
  | [], _ => by simp
  | n :: ns, hnd => by
    obtain ⟨hn, hns⟩ := List.nodup_cons.1 hnd
    have hsplit := List.filter_append_perm (f · = n) (l.filter (f · ∈ n :: ns))
    have hone : (l.filter (f · ∈ n :: ns)).filter (f · = n) = l.filter (f · = n) := by
      rw [List.filter_filter]
      exact List.filter_congr fun x _ => by by_cases hx : f x = n <;> simp [hx]
    have hrest : (l.filter (f · ∈ n :: ns)).filter (fun x => !decide (f x = n)) = l.filter (f · ∈ ns) := by
      rw [List.filter_filter]
      exact List.filter_congr fun x _ => by by_cases hx : f x = n <;> simp [hx, hn]
    rw [hone, hrest] at hsplit
    rw [List.flatMap_cons]
    exact ((flatMap_filter_perm f l hns).append_left _).trans hsplit

namespace SortedRun

/-- What segments have to be like to make runs. -/
structure Groupable (ss : List SegmentMeta) : Prop where
  noDeletions : ∀ g ∈ ss, g.deletions = 0
  writesApart : (ss.filter (·.level = 0)).Pairwise WritesApart
  keysApart : ∀ n ≠ 0, (ss.filter (·.level = n)).Pairwise KeysApart

/-- The runs of the segments of level 0: one if no two of these share a key, and otherwise one for each, those that
were written last in front. -/
structure Level0As (gs : List SegmentMeta) (rs : List (List SegmentMeta)) : Prop where
  empty : gs = [] → rs = []
  one : gs ≠ [] → gs.Pairwise KeysApart → ∃ r, rs = [r] ∧ r.Perm gs
  each : ¬ gs.Pairwise KeysApart → ∃ l : List SegmentMeta, l.Perm gs ∧
    l.Pairwise (fun a b => b.newestWrite < a.oldestWrite) ∧ rs = l.map ([·])

/-- Segments are grouped into runs as a walk needs them. -/
structure GroupedAs (ss : List SegmentMeta) (runs : List SortedRun) : Prop where
  /-- Each segment is in one run. -/
  perm : (runs.flatMap (·.segments)).Perm ss
  sorted : ∀ r ∈ runs, r.segments.Pairwise fun a b => a.smallest < b.smallest ∧ a.KeysApart b
  priorities : runs.map (·.priority) = List.range runs.length
  /-- Level 0 comes first, and then a run for each deeper level. -/
  levels : ∃ zero deeper ns, runs.map (·.segments) = zero ++ deeper ∧ Level0As (ss.filter (·.level = 0)) zero ∧
    ns.Pairwise (· < ·) ∧ (∀ n, n ∈ ns ↔ n ≠ 0 ∧ ∃ g ∈ ss, g.level = n) ∧
    List.Forall₂ (fun n r => r.Perm (ss.filter (·.level = n))) ns deeper

end SortedRun

/-- A refusal names what is in the way: a segment with deletion markers, two segments of a deeper level that share a
key, or two of level 0 that share the number of a write; of two, the one that begins first is named first. -/
def ScanError.Blames (c : Column) (ss : List SegmentMeta) : ScanError → Prop
  | .deletionsPresent d id n => d = c ∧ 0 < n ∧ ∃ g ∈ ss, g.id = id ∧ g.deletions = n
  | .overlapping d n x y => d = c ∧ n ≠ 0 ∧ ∃ a b, List.Subperm [a, b] (ss.filter (·.level = n)) ∧ a.id = x ∧ b.id = y ∧
      ¬ b.smallest < a.smallest ∧ ¬ a.KeysApart b
  | .interleaved d x y => d = c ∧ ∃ a b, List.Subperm [a, b] (ss.filter (·.level = 0)) ∧ a.id = x ∧ b.id = y ∧
      a.oldestWrite ≤ b.oldestWrite ∧ ¬ a.WritesApart b
  | .store _ => False

namespace SortedRun

variable {c : Column} {ss gs : List SegmentMeta} {a b : SegmentMeta}

theorem not_groupable_of_blames {e : ScanError} (h : e.Blames c ss) : ¬ Groupable ss := fun hgroup => by
  cases e with
  | deletionsPresent d id n =>
    obtain ⟨-, hn, g, hg, -, rfl⟩ := h
    have := hgroup.noDeletions g hg
    omega
  | overlapping d n x y =>
    obtain ⟨-, hn, a, b, hsub, -, -, -, hab⟩ := h
    exact not_pairwise_of_subperm KeysApart.symm hsub hab (hgroup.keysApart n hn)
  | interleaved d x y =>
    obtain ⟨-, a, b, hsub, -, -, -, hab⟩ := h
    exact not_pairwise_of_subperm WritesApart.symm hsub hab hgroup.writesApart
  | store e => exact h

/-! ## Neighbours tell of all -/

theorem subperm_of_infix {gs' : List SegmentMeta} (hperm : gs'.Perm gs) (h : [a, b] <:+: gs') : List.Subperm [a, b] gs :=
  h.sublist.subperm.trans hperm.subperm

theorem pairwise_keysApart (hgs : ∀ g ∈ gs, g.IsRanged) (h : overlap? (byKey gs) = none) : gs.Pairwise KeysApart :=
  ((pairwise_byKey (fun g hg => (hgs g hg).keys) h).imp keysApart_of_lt).perm (byKey_perm gs) KeysApart.symm

theorem overlap?_eq_some (hgs : ∀ g ∈ gs, g.IsRanged) (h : overlap? (byKey gs) = some (a, b)) :
    List.Subperm [a, b] gs ∧ ¬ b.smallest < a.smallest ∧ ¬ a.KeysApart b := by
  obtain ⟨htest, hinfix⟩ := infix_of_neighbours? h
  have hsub := subperm_of_infix (byKey_perm gs) hinfix
  have hsorted : (byKey gs).Pairwise fun a b => (!decide (b.smallest < a.smallest)) = true :=
    List.pairwise_mergeSort
      (fun a b c hab hbc => by
        simp only [Bool.not_eq_true', decide_eq_false_iff_not] at *
        exact List.le_trans (List.not_lt.1 hab) (List.not_lt.1 hbc))
      (fun a b => by
        simp only [Bool.or_eq_true, Bool.not_eq_true', decide_eq_false_iff_not]
        exact (List.le_total a.smallest b.smallest).imp List.not_lt.2 List.not_lt.2) gs
  have hfirst : ¬ b.smallest < a.smallest := by
    simpa using List.rel_of_pairwise_cons (hsorted.sublist hinfix.sublist) (List.mem_singleton_self b)
  exact ⟨hsub, hfirst, not_keysApart (hgs b (hsub.subset (by simp))) hfirst (by simpa using htest)⟩

theorem pairwise_writesApart (hgs : ∀ g ∈ gs, g.IsRanged) (h : interleaving? (byOldestWrite gs) = none) :
    gs.Pairwise WritesApart := by
  have hchain : (byOldestWrite gs).Pairwise fun a b => a.newestWrite < b.oldestWrite :=
    pairwise_of_neighbours? (r := fun a b => a.newestWrite < b.oldestWrite) (p := IsRanged)
      (fun htest => by simpa using htest)
      (fun hb hab hbc => by have := hb.writes; omega)
      (fun g hg => hgs g ((byOldestWrite_perm gs).mem_iff.1 hg)) h
  exact (hchain.imp writesApart_of_lt).perm (byOldestWrite_perm gs) WritesApart.symm

theorem interleaving?_eq_some (hgs : ∀ g ∈ gs, g.IsRanged) (h : interleaving? (byOldestWrite gs) = some (a, b)) :
    List.Subperm [a, b] gs ∧ a.oldestWrite ≤ b.oldestWrite ∧ ¬ a.WritesApart b := by
  obtain ⟨htest, hinfix⟩ := infix_of_neighbours? h
  have hsub := subperm_of_infix (byOldestWrite_perm gs) hinfix
  have hsorted : (byOldestWrite gs).Pairwise fun a b => decide (a.oldestWrite ≤ b.oldestWrite) = true :=
    List.pairwise_mergeSort (fun a b c hab hbc => by simp only [decide_eq_true_eq] at *; omega)
      (fun a b => by simp only [Bool.or_eq_true, decide_eq_true_eq]; omega) gs
  have hfirst : a.oldestWrite ≤ b.oldestWrite := by
    simpa using List.rel_of_pairwise_cons (hsorted.sublist hinfix.sublist) (List.mem_singleton_self b)
  exact ⟨hsub, hfirst, not_writesApart (hgs b (hsub.subset (by simp))) hfirst (by simpa using htest)⟩

/-! ## The runs of a level -/

theorem perm_of_levelRuns {n : Nat} {rs : List (List SegmentMeta)} (hn : n ≠ 0) (h : levelRuns c n gs = .ok rs) :
    ∃ r, rs = [r] ∧ r.Perm gs := by
  obtain ⟨l, hl, ⟨rfl, -⟩ | ⟨hzero, -⟩⟩ := levelRuns_cases h
  · exact ⟨byKey l, rfl, (byKey_perm l).trans hl⟩
  · exact absurd hzero hn

/-- Segments whose writes do not interleave follow one another in the order of their newest. -/
theorem pairwise_newestFirst_lt (hgs : ∀ g ∈ gs, g.IsRanged) (h : gs.Pairwise WritesApart) :
    (newestFirst gs).Pairwise fun a b => b.newestWrite < a.oldestWrite := by
  have hapart : (newestFirst gs).Pairwise WritesApart := h.perm (newestFirst_perm gs).symm WritesApart.symm
  refine ((pairwise_newestFirst gs).and hapart).imp_of_mem fun {a b} _ hb ⟨hle, hab⟩ => ?_
  have hranged := hgs b ((newestFirst_perm gs).mem_iff.1 hb)
  by_contra hlt
  exact hab b.newestWrite ⟨by omega, hle⟩ ⟨hranged.writes, Nat.le_refl _⟩

theorem level0As_levelRuns {rs : List (List SegmentMeta)} (hgs : ∀ g ∈ gs, g.IsRanged) (hne : gs ≠ [])
    (hwrites : gs.Pairwise WritesApart) (h : levelRuns c 0 gs = .ok rs) : Level0As gs rs := by
  obtain ⟨l, hl, hrs⟩ := levelRuns_cases h
  have hranged : ∀ g ∈ l, g.IsRanged := fun g hg => hgs g (hl.mem_iff.1 hg)
  refine ⟨fun hnil => absurd hnil hne, fun _ hkeys => ?_, fun hkeys => ?_⟩
  · rcases hrs with ⟨rfl, -⟩ | ⟨-, ⟨⟨a, b⟩, hsome⟩, -⟩
    · exact ⟨byKey l, rfl, (byKey_perm l).trans hl⟩
    · obtain ⟨hsub, -, hab⟩ := overlap?_eq_some hranged hsome
      exact absurd hkeys (not_pairwise_of_subperm KeysApart.symm (hsub.trans hl.subperm) hab)
  · rcases hrs with ⟨-, hnone⟩ | ⟨-, -, rfl⟩
    · exact absurd ((pairwise_keysApart hranged hnone).perm hl KeysApart.symm) hkeys
    · have hperm : (byKey l).Perm gs := (byKey_perm l).trans hl
      refine ⟨newestFirst (byKey l), (newestFirst_perm _).trans hperm, ?_, rfl⟩
      exact pairwise_newestFirst_lt (fun g hg => hgs g (hperm.mem_iff.1 hg)) (hwrites.perm hperm.symm WritesApart.symm)

/-! ## All levels -/

theorem ne_nil_foldl_level : ∀ (ss : List SegmentMeta) (m : Std.ExtTreeMap Nat (List SegmentMeta)),
    (∀ (n : Nat) (gs : List SegmentMeta), m[n]? = some gs → gs ≠ []) →
    ∀ (n : Nat) (gs : List SegmentMeta), (ss.foldl (fun (m : Std.ExtTreeMap Nat (List SegmentMeta)) s =>
      m.insert s.level (m.getD s.level [] ++ [s])) m)[n]? = some gs → gs ≠ []
  | [], _, hm, n, gs, h => hm n gs h
  | s :: ss, m, hm, n, gs, h => by
    rw [List.foldl_cons] at h
    refine ne_nil_foldl_level ss _ (fun n gs hget => ?_) n gs h
    rw [Std.ExtTreeMap.getElem?_insert] at hget
    split at hget
    · cases hget
      simp
    · exact hm n gs hget

/-- The levels ascend, each with its segments. -/
theorem levels_eq (ss : List SegmentMeta) : ∃ ns : List Nat, ns.Pairwise (· < ·) ∧
    (∀ n, n ∈ ns ↔ ∃ g ∈ ss, g.level = n) ∧ levels ss = ns.map fun n => (n, ss.filter (·.level = n)) := by
  refine ⟨(levels ss).map (·.1), ?_, fun n => ?_, ?_⟩
  · rw [List.pairwise_map]
    exact (Ascending.toList _).imp fun hlt => Nat.compare_eq_lt.1 hlt
  · rw [List.mem_map]
    constructor
    · rintro ⟨⟨n, gs⟩, hl, rfl⟩
      have hne := ne_nil_foldl_level ss ∅ (fun n gs h => by simp at h) n gs
        (Std.ExtTreeMap.mem_toList_iff_getElem?_eq_some.1 hl)
      obtain ⟨g, hg⟩ := List.exists_mem_of_ne_nil gs hne
      rw [eq_filter_of_mem_levels hl, List.mem_filter, decide_eq_true_eq] at hg
      exact ⟨g, hg⟩
    · rintro ⟨g, hg, rfl⟩
      exact ⟨_, mem_levels hg, rfl⟩
  · rw [List.map_map]
    refine ((List.map_congr_left fun l hl => ?_).trans (List.map_id _)).symm
    exact Prod.ext rfl (eq_filter_of_mem_levels hl).symm

section
variable {ns : List Nat} {rss : List (List (List SegmentMeta))}
  (h : (ns.map fun n => (n, ss.filter (·.level = n))).mapM (fun l => levelRuns c l.1 l.2) = .ok rss)
include h

theorem forall₂_deeper (hns : ∀ n ∈ ns, n ≠ 0) :
    List.Forall₂ (fun n r => r.Perm (ss.filter (·.level = n))) ns rss.flatten := by
  induction ns generalizing rss with
  | nil => cases h; exact .nil
  | cons n ns ih =>
    obtain ⟨rs, rss, hrs, hrss, rfl⟩ := exists_of_mapM_cons h
    obtain ⟨r, rfl, hr⟩ := perm_of_levelRuns (hns n List.mem_cons_self) hrs
    exact .cons hr (ih hrss fun x hx => hns x (List.mem_cons_of_mem n hx))

theorem perm_flatten_runs : rss.flatten.flatten.Perm (ns.flatMap fun n => ss.filter (·.level = n)) := by
  induction ns generalizing rss with
  | nil => cases h; exact .nil
  | cons n ns ih =>
    obtain ⟨rs, rss, hrs, hrss, rfl⟩ := exists_of_mapM_cons h
    rw [List.flatten_cons, List.flatten_append, List.flatMap_cons]
    exact (perm_levelRuns hrs).append (ih hrss)

end

/-! ## Refusals -/

theorem exists_of_mapM_error {ε α β : Type} {f : α → Except ε β} {e : ε} : ∀ {l : List α}, l.mapM f = .error e →
    ∃ a ∈ l, f a = .error e
  | [], h => by cases h
  | a :: l, h => by
    rw [List.mapM_cons] at h
    cases ha : f a with
    | error e' => rw [ha] at h; cases h; exact ⟨a, List.mem_cons_self, ha⟩
    | ok b =>
      rw [ha] at h
      cases hl : l.mapM f with
      | error e' =>
        rw [hl] at h
        cases h
        obtain ⟨x, hx, hfx⟩ := exists_of_mapM_error hl
        exact ⟨x, List.mem_cons_of_mem a hx, hfx⟩
      | ok bs => rw [hl] at h; cases h

theorem blames_of_levelRuns {n : Nat} {e : ScanError} (hss : ∀ g ∈ ss, g.IsRanged)
    (h : levelRuns c n (ss.filter (·.level = n)) = .error e) : e.Blames c ss := by
  unfold levelRuns at h
  split at h
  · cases h
  · rename_i hn
    dsimp only at h
    split at h
    · cases h
    · rename_i a b hsome
      cases h
      obtain ⟨hsub, hfirst, hab⟩ := overlap?_eq_some (fun g hg => hss g ((List.mem_filter.1 hg).1)) hsome
      exact ⟨rfl, hn, a, b, hsub, rfl, rfl, hfirst, hab⟩

theorem blames_of_classify {e : ScanError} (hss : ∀ g ∈ ss, g.IsRanged) (h : classify c ss = .error e) :
    e.Blames c ss := by
  unfold classify at h
  split at h
  · rename_i g hfound
    cases h
    exact ⟨rfl, by simpa using List.find?_some hfound, g, List.mem_of_find?_eq_some hfound, rfl, rfl⟩
  · split at h
    · rename_i a b hsome
      cases h
      obtain ⟨hsub, hfirst, hab⟩ := interleaving?_eq_some (fun g hg => hss g ((List.mem_filter.1 hg).1)) hsome
      exact ⟨rfl, a, b, hsub, rfl, rfl, hfirst, hab⟩
    · cases hruns : (levels ss).mapM fun l => levelRuns c l.1 l.2 with
      | ok rss => rw [hruns] at h; cases h
      | error e' =>
        rw [hruns] at h
        cases h
        obtain ⟨⟨n, gs⟩, hl, hlevel⟩ := exists_of_mapM_error hruns
        obtain rfl := eq_filter_of_mem_levels hl
        exact blames_of_levelRuns hss hlevel

/-! ## Runs -/

theorem groupable_of_classify {runs : List SortedRun} (hss : ∀ g ∈ ss, g.IsRanged) (h : classify c ss = .ok runs) :
    Groupable ss := by
  obtain ⟨rss, hrss, -⟩ := exists_of_classify h
  unfold classify at h
  split at h
  · cases h
  · rename_i hfind
    split at h
    · cases h
    · rename_i hnone
      refine ⟨fun g hg => ?_, ?_, fun n hn => ?_⟩
      · simpa using List.find?_eq_none.1 hfind g hg
      · exact pairwise_writesApart (fun g hg => hss g ((List.mem_filter.1 hg).1)) hnone
      · by_cases hlevel : ∃ g ∈ ss, g.level = n
        · obtain ⟨g, hg, rfl⟩ := hlevel
          obtain ⟨rs, hrs⟩ := exists_of_mapM hrss _ (mem_levels hg)
          obtain ⟨l, hl, ⟨-, hkeys⟩ | ⟨hzero, -⟩⟩ := levelRuns_cases hrs
          · have hranged : ∀ x ∈ l, x.IsRanged := fun x hx => hss x ((List.mem_filter.1 (hl.mem_iff.1 hx)).1)
            exact (pairwise_keysApart hranged hkeys).perm hl KeysApart.symm
          · exact absurd hzero hn
        · have hnil : ss.filter (·.level = n) = [] :=
            List.filter_eq_nil_iff.2 fun g hg heq => hlevel ⟨g, hg, of_decide_eq_true heq⟩
          rw [hnil]
          exact .nil

/-- Level 0 is the least of all. -/
theorem exists_cons_zero {ns : List Nat} (hasc : ns.Pairwise (· < ·)) (hzero : 0 ∈ ns) : ∃ ns', ns = 0 :: ns' := by
  cases ns with
  | nil => cases hzero
  | cons n ns =>
    rcases List.mem_cons.1 hzero with rfl | hin
    · exact ⟨ns, rfl⟩
    · exact absurd (List.rel_of_pairwise_cons hasc hin) (Nat.not_lt_zero n)

/-- **The runs of level 0 come first,** and then a run for each deeper level. -/
theorem exists_zero_deeper {ns : List Nat} {rss : List (List (List SegmentMeta))} (hss : ∀ g ∈ ss, g.IsRanged)
    (hwrites : (ss.filter (·.level = 0)).Pairwise WritesApart) (hasc : ns.Pairwise (· < ·))
    (hmem : ∀ n, n ∈ ns ↔ ∃ g ∈ ss, g.level = n)
    (h : (ns.map fun n => (n, ss.filter (·.level = n))).mapM (fun l => levelRuns c l.1 l.2) = .ok rss) :
    ∃ zero deeper ns', rss.flatten = zero ++ deeper ∧ Level0As (ss.filter (·.level = 0)) zero ∧ ns'.Pairwise (· < ·) ∧
      (∀ n, n ∈ ns' ↔ n ≠ 0 ∧ ∃ g ∈ ss, g.level = n) ∧
      List.Forall₂ (fun n r => r.Perm (ss.filter (·.level = n))) ns' deeper := by
  by_cases hzero : 0 ∈ ns
  · obtain ⟨ns, rfl⟩ := exists_cons_zero hasc hzero
    obtain ⟨rs, rss, hrs, hrest, rfl⟩ := exists_of_mapM_cons h
    obtain ⟨g, hg, hlevel⟩ := (hmem 0).1 hzero
    have hpos : ∀ n ∈ ns, n ≠ 0 := fun n hn => Nat.ne_of_gt (List.rel_of_pairwise_cons hasc hn)
    have hne : ss.filter (·.level = 0) ≠ [] := List.ne_nil_of_mem (List.mem_filter.2 ⟨hg, decide_eq_true hlevel⟩)
    refine ⟨rs, rss.flatten, ns, List.flatten_cons, ?_, hasc.of_cons, fun n => ?_, forall₂_deeper hrest hpos⟩
    · exact level0As_levelRuns (fun g hg => hss g ((List.mem_filter.1 hg).1)) hne hwrites hrs
    · rw [← hmem, List.mem_cons]
      exact ⟨fun hn => ⟨hpos n hn, .inr hn⟩, fun ⟨hn, hor⟩ => hor.resolve_left hn⟩
  · have hpos : ∀ n ∈ ns, n ≠ 0 := fun n hn heq => hzero (heq ▸ hn)
    have hnil : ss.filter (·.level = 0) = [] :=
      List.filter_eq_nil_iff.2 fun g hg heq => hzero ((hmem 0).2 ⟨g, hg, of_decide_eq_true heq⟩)
    refine ⟨[], rss.flatten, ns, rfl, ?_, hasc, fun n => ?_, forall₂_deeper h hpos⟩
    · rw [hnil]
      exact ⟨fun _ => rfl, fun hne => absurd rfl hne, fun hkeys => absurd .nil hkeys⟩
    · rw [← hmem]
      exact ⟨fun hn => ⟨hpos n hn, hn⟩, fun hn => hn.2⟩

theorem groupedAs_of_classify {runs : List SortedRun} (hss : ∀ g ∈ ss, g.IsRanged) (h : classify c ss = .ok runs) :
    GroupedAs ss runs := by
  have hgroup := groupable_of_classify hss h
  have hsorted : ∀ r ∈ runs, r.segments.Pairwise (·.largest < ·.smallest) := fun r hr =>
    pairwise_of_mem_classify h (fun g hg => (hss g hg).keys) hr
  obtain ⟨rss, hrss, rfl⟩ := exists_of_classify h
  obtain ⟨ns, hasc, hmem, hlevels⟩ := levels_eq ss
  rw [hlevels] at hrss
  have hsegments : (rss.flatten.zipIdx.map fun r => (⟨r.2, r.1⟩ : SortedRun)).map (·.segments) = rss.flatten := by
    rw [List.map_map]
    exact List.zipIdx_map_fst 0 rss.flatten
  have hperm : rss.flatten.flatten.Perm ss := by
    refine (perm_flatten_runs hrss).trans ((flatMap_filter_perm (·.level) ss (hasc.imp Nat.ne_of_lt)).trans ?_)
    rw [List.filter_eq_self.2 fun g hg => decide_eq_true ((hmem g.level).2 ⟨g, hg, rfl⟩)]
  constructor
  · rw [List.flatMap_def, hsegments]
    exact hperm
  · intro r hr
    have hin : ∀ g ∈ r.segments, g ∈ ss := fun g hg => by
      rw [← hperm.mem_iff, ← hsegments]
      exact List.mem_flatten.2 ⟨r.segments, List.mem_map_of_mem hr, hg⟩
    refine (hsorted r hr).imp_of_mem fun {a b} ha _ hab => ⟨?_, keysApart_of_lt hab⟩
    exact Classical.byContradiction fun hlt => (hss a (hin a ha)).keys (Bytes.lt_of_lt_of_not_lt hab hlt)
  · rw [List.map_map, List.length_map, List.length_zipIdx]
    exact (List.zipIdx_map_snd 0 rss.flatten).trans (List.range_eq_range' (n := _)).symm
  · rw [hsegments]
    exact exists_zero_deeper hss hgroup.writesApart hasc hmem hrss

/-- **Segments make runs exactly if they can be grouped,** the runs are those that a walk needs, and a refusal names
what is in the way. -/
theorem classify_groups (c : Column) {ss : List SegmentMeta} (hss : ∀ g ∈ ss, g.IsRanged) :
    ((∃ runs, classify c ss = .ok runs) ↔ Groupable ss) ∧
      (∀ runs, classify c ss = .ok runs → GroupedAs ss runs) ∧ ∀ e, classify c ss = .error e → e.Blames c ss := by
  refine ⟨⟨fun ⟨runs, h⟩ => groupable_of_classify hss h, fun hgroup => ?_⟩, fun runs h => groupedAs_of_classify hss h,
    fun e h => blames_of_classify hss h⟩
  cases h : classify c ss with
  | ok runs => exact ⟨runs, rfl⟩
  | error e => exact absurd hgroup (not_groupable_of_blames (blames_of_classify hss h))

/-- Two segments of level 0 that share keys become two runs, the newer one first, and level 1 comes after both. -/
theorem classify_groups_overlapping :
    let older : SegmentMeta := ⟨1, 0, [0], [20], 8, 2, 0, 1, 4⟩
    let newer : SegmentMeta := ⟨2, 0, [10], [29], 8, 2, 0, 5, 9⟩
    let deep : SegmentMeta := ⟨3, 1, [0], [50], 8, 2, 0, 0, 9⟩
    (∀ g ∈ [older, deep, newer], g.IsRanged) ∧
      GroupedAs [older, deep, newer] [⟨0, [newer]⟩, ⟨1, [older]⟩, ⟨2, [deep]⟩] := by
  intro older newer deep
  have hranged : ∀ g ∈ [older, deep, newer], g.IsRanged := by decide
  have hlevels : levels [older, deep, newer] = [(0, [older, newer]), (1, [deep])] := rfl
  have hwrites : byOldestWrite [older, newer] = [older, newer] := List.mergeSort_of_pairwise (by decide)
  have hkeys : byKey [older, newer] = [older, newer] := List.mergeSort_of_pairwise (by decide)
  have hdeep : byKey [deep] = [deep] := List.mergeSort_singleton deep
  have hnewest : newestFirst [older, newer] = [newer, older] := by
    simp [newestFirst, List.mergeSort, older, newer]
  have hruns : classify .tiles [older, deep, newer] = .ok [⟨0, [newer]⟩, ⟨1, [older]⟩, ⟨2, [deep]⟩] := by
    have hfilter : [older, deep, newer].filter (·.level = 0) = [older, newer] := rfl
    have hfirst : levelRuns .tiles 0 [older, newer] = .ok [[newer], [older]] := by
      have hoverlap : overlap? [older, newer] = some (older, newer) := rfl
      simp only [levelRuns, level0Runs, if_true, hwrites, hkeys, hoverlap, hnewest, List.map_cons, List.map_nil]
    have hsecond : levelRuns .tiles 1 [deep] = .ok [[deep]] := by
      rw [levelRuns, hdeep]
      rfl
    rw [classify, hfilter, hwrites, hlevels]
    simp only [List.mapM_cons, List.mapM_nil, hfirst, hsecond]
    rfl
  exact ⟨hranged, (classify_groups .tiles hranged).2.1 _ hruns⟩

/-- Segments that only touch share a key. -/
example : overlap? [⟨1, 2, [0], [10], 8, 2, 0, 1, 4⟩, ⟨2, 2, [10], [20], 8, 2, 0, 5, 9⟩] =
    some (⟨1, 2, [0], [10], 8, 2, 0, 1, 4⟩, ⟨2, 2, [10], [20], 8, 2, 0, 5, 9⟩) := by decide

end SortedRun
end TileAtlas
