import TileAtlas.Proofs.Store.Layers
/-!
# Upkeep changes no read

A flush puts the memory before all segments, where it hides what it hid before.  Laying a column out anew
cuts the pairs that show into segments which share no key.  So neither changes what readers see of a store
(`SegmentedStore.contents_flush`, `SegmentedStore.contents_compact`).
-/
namespace TileAtlas

/-- A segment holds what it is built of, and nothing builds none. -/
theorem Segment.build_cases (id level : Nat) (writes : Nat × Nat) (entries : EntryTable) :
    (∃ g, build id level writes entries = some g ∧ g.entries = entries) ∨
      build id level writes entries = none ∧ entries = ∅ := by
  unfold build
  dsimp only
  split
  · exact .inl ⟨_, rfl, rfl⟩
  · rename_i hno
    refine .inr ⟨rfl, Std.ExtTreeMap.toList_eq_nil_iff.1 ?_⟩
    cases hes : entries.toList with
    | nil => rfl
    | cons e es =>
      rw [hes] at hno
      exact absurd (List.getLast?_eq_some_getLast (List.cons_ne_nil e es)) (hno _ _ rfl)

namespace ColumnState

theorem table_congr {s s' : ColumnState} (h : ∀ k, s'.get k = s.get k) : s'.table = s.table :=
  Std.ExtTreeMap.ext_getElem? fun {k} => by rw [getElem?_table, getElem?_table, h]

theorem get_eq_findSome? (s : ColumnState) (k : Bytes) :
    s.get k = ((s.memory :: (s.level0.reverse ++ s.deeper).map (·.entries)).findSome? (·[k]?)).join := rfl

/-! ## Freezing the memory -/

/-- A column with its memory frozen. -/
def frozen (s : ColumnState) (id : Nat) : ColumnState :=
  { s with
    memory := ∅, memoryWrites := none,
    level0 := s.level0 ++ (Segment.build id 0 (s.memoryWrites.getD (0, 0)) s.memory).toList }

theorem get_frozen (s : ColumnState) (id : Nat) (k : Bytes) : (s.frozen id).get k = s.get k := by
  have hempty : (∅ : EntryTable)[k]? = none := Std.ExtTreeMap.getElem?_empty
  have hdeeper : (s.frozen id).deeper = s.deeper := rfl
  rw [get_eq_findSome?, get_eq_findSome?, hdeeper]
  unfold frozen
  rcases Segment.build_cases id 0 (s.memoryWrites.getD (0, 0)) s.memory with ⟨g, hg, hentries⟩ | ⟨hnone, hmemory⟩
  · simp [hg, hentries]
  · rw [hnone, hmemory]
    simp

/-! ## Laying a column out anew -/

/-- The entries of a segment with these pairs. -/
def entriesOf (run : List Pair) : EntryTable := .ofList (run.map fun p => (p.1, some p.2))

theorem getElem?_entriesOf {run : List Pair} (h : Ascending run) (k : Bytes) (e : Entry) :
    (entriesOf run)[k]? = some e ↔ ∃ v, e = some v ∧ (k, v) ∈ run := by
  have hasc : Ascending (run.map fun p => (p.1, some p.2)) := by
    rw [Ascending, List.pairwise_map]
    exact h
  rw [entriesOf, hasc.getElem?_ofList, List.mem_map]
  constructor
  · rintro ⟨⟨l, v⟩, hmem, heq⟩
    cases heq
    exact ⟨v, rfl, hmem⟩
  · rintro ⟨v, rfl, hmem⟩
    exact ⟨(k, v), hmem, rfl⟩

/-- Runs of one ascending list answer for the pairs of this list. -/
theorem findSome?_runs : ∀ {runs : List (List Pair)}, Ascending runs.flatten → ∀ (k : Bytes) (e : Entry),
    (runs.map entriesOf).findSome? (·[k]?) = some e ↔ ∃ v, e = some v ∧ (k, v) ∈ runs.flatten
  | [], _, k, e => by simp
  | run :: runs, h, k, e => by
    rw [List.flatten_cons] at h ⊢
    obtain ⟨hrun, hrest, hcross⟩ := List.pairwise_append.1 h
    have ih := findSome?_runs hrest k e
    have hown := fun f => getElem?_entriesOf (k := k) hrun f
    rw [List.map_cons, List.findSome?_cons]
    simp only [List.mem_append]
    cases hk : (entriesOf run)[k]? with
    | none =>
      rw [hk] at hown
      simp only [ih]
      refine exists_congr fun v => and_congr_right fun _ => ⟨.inr, fun hv => hv.resolve_left fun hin => ?_⟩
      cases (hown (some v)).2 ⟨v, rfl, hin⟩
    | some f =>
      obtain ⟨w, rfl, hw⟩ := (hown f).1 hk
      constructor
      · intro he
        cases he
        exact ⟨w, rfl, .inl hw⟩
      · rintro ⟨v, rfl, hv | hv⟩
        · exact hk.symm.trans ((hown _).2 ⟨v, rfl, hv⟩)
        · exact absurd (hcross _ hw _ hv) (compare_irrefl k)

/-- A column that consists of segments of level 1. -/
theorem deeper_ofList (built : List Segment) : ({ levels := .ofList [(1, built)] } : ColumnState).deeper = built := by
  have hone : Ascending [(1, built)] := List.pairwise_singleton _ _
  rw [deeper, hone.toList_ofList]
  simp

end ColumnState

namespace SegmentedStore

theorem flatten_runsOf (per : Nat) : ∀ {fuel : Nat} {ps : List Pair}, ps.length ≤ fuel →
    (runsOf per fuel ps).flatten = ps
  | 0, ps, h => by rw [List.eq_nil_of_length_eq_zero (Nat.le_zero.1 h)]; rfl
  | fuel + 1, [], _ => rfl
  | fuel + 1, p :: ps, h => by
    have hlen : (ps.drop per).length ≤ fuel := by
      rw [List.length_cons] at h
      rw [List.length_drop]
      omega
    rw [runsOf, List.flatten_cons, flatten_runsOf per hlen, List.take_succ_cons, List.cons_append,
      List.take_append_drop]

theorem ne_nil_of_mem_runsOf (per : Nat) : ∀ {fuel : Nat} {ps run : List Pair}, run ∈ runsOf per fuel ps → run ≠ []
  | 0, _, _, h => by cases h
  | fuel + 1, [], _, h => by cases h
  | fuel + 1, p :: ps, run, h => by
    rcases List.mem_cons.1 h with rfl | h
    · rw [List.take_succ_cons]
      exact List.cons_ne_nil _ _
    · exact ne_nil_of_mem_runsOf per h

/-- Every run is built into a segment of its own. -/
theorem entries_built (start : Nat) (span : Nat × Nat) : ∀ {runs : List (List Pair)} (n : Nat),
    (∀ run ∈ runs, run ≠ []) →
    ((runs.zipIdx n).filterMap fun r => Segment.build (start + r.2) 1 span (ColumnState.entriesOf r.1)).map (·.entries)
      = runs.map ColumnState.entriesOf
  | [], _, _ => rfl
  | run :: runs, n, h => by
    have ih := entries_built start span (n + 1) fun r hr => h r (List.mem_cons_of_mem _ hr)
    rw [List.zipIdx_cons]
    rcases Segment.build_cases (start + n) 1 span (ColumnState.entriesOf run) with ⟨g, hg, hentries⟩ | ⟨-, hempty⟩
    · rw [List.filterMap_cons, hg]
      simp only [List.map_cons, hentries, ih]
    · obtain ⟨p, hp⟩ := List.exists_mem_of_ne_nil run (h run List.mem_cons_self)
      have hkey : (ColumnState.entriesOf run).contains p.1 = true := by
        rw [ColumnState.entriesOf, Std.ExtTreeMap.contains_ofList, List.contains_iff_mem, List.map_map]
        exact List.mem_map_of_mem hp
      rw [hempty, Std.ExtTreeMap.contains_empty] at hkey
      cases hkey

variable (s : SegmentedStore) (c : Column)

/-- What a column is replaced by does not matter if it reads the same. -/
theorem contents_setColumn_eq {state : ColumnState} (h : ∀ k, state.get k = (s.column c).get k) :
    (s.setColumn c state).contents = s.contents := by
  rw [contents_setColumn]
  refine Columns.ext_get fun d => ?_
  rw [Columns.get_set]
  by_cases hd : d = c
  · rw [if_pos hd, ColumnState.table_congr h, table_eq, hd]
  · rw [if_neg hd]

theorem contents_flushColumn : (s.flushColumn c).contents = s.contents := by
  unfold flushColumn
  cases hstate : s.columns.get c with
  | none => rfl
  | some state =>
    have hcolumn : s.column c = state := by rw [column, hstate]; rfl
    refine contents_setColumn_eq { s with lastSegment := s.lastSegment + 1 } c fun k => ?_
    exact (state.get_frozen (s.lastSegment + 1) k).trans (by rw [← hcolumn]; rfl)

/-- **A flush changes no read.** -/
theorem contents_flush : s.flush.contents = s.contents := by
  unfold flush
  induction Column.all generalizing s with
  | nil => rfl
  | cons c cs ih => rw [List.foldl_cons, ih, contents_flushColumn]

/-- **Laying a column out anew changes no read**, however long its segments become. -/
theorem contents_compact (per : Nat) : (s.compact c per).contents = s.contents := by
  have hflat := flatten_runsOf (per - 1) (Nat.le_refl ((s.column c).visibleIn .all).length)
  unfold compact
  dsimp only
  generalize hruns : runsOf (per - 1) ((s.column c).visibleIn .all).length ((s.column c).visibleIn .all) = runs at hflat
  refine contents_setColumn_eq { s with lastSegment := s.lastSegment + runs.length } c fun k => ?_
  change _ = (s.column c).get k
  have hnil : ∀ run ∈ runs, run ≠ [] := fun run hrun => ne_nil_of_mem_runsOf (per - 1) (by rw [hruns]; exact hrun)
  have hentries := entries_built (s.lastSegment + 1) (s.column c).writeSpan 0 hnil
  have hasc : Ascending runs.flatten := by
    rw [hflat]
    exact (s.column c).ascending_visibleIn _
  have hempty : (∅ : EntryTable)[k]? = none := Std.ExtTreeMap.getElem?_empty
  -- the runs are the visible pairs cut up, so that a key is in one of them at most
  refine Option.ext fun v => ?_
  rw [ColumnState.get_eq_findSome?, ColumnState.deeper_ofList, List.reverse_nil, List.nil_append, List.findSome?_cons, hempty,
    Option.join_eq_some_iff]
  have hruns := ColumnState.findSome?_runs hasc k (some v)
  rw [← hentries, hflat] at hruns
  refine hruns.trans ?_
  simp only [Option.some.injEq, exists_eq_left', ColumnState.mem_visibleIn, KeyRange.contains_all, and_true]

end SegmentedStore
end TileAtlas
