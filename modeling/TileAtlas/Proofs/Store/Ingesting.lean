import TileAtlas.Proofs.Scan.Priorities
import TileAtlas.Proofs.Store.Filling
/-!
# Ingested segments and the order of writes

A store of segments grows by batches and flushes, is compacted, and takes segments as they are.  Reads ask the
segments of level 0 from the last to the first, while scans order them by the numbers of their writes.  Both orders
are one as long as a segment is ingested only where nothing is in memory that was written to its column
(`SegmentedStore.grown_newestAnswers`).  Where something is, a later flush puts these older writes behind the segment,
and the two orders part (`SegmentedStore.grown_overtaken`).
-/
namespace TileAtlas

/-! ## What a segment spans -/

namespace Segment

/-- The keys of a segment lie between those that are told of it. -/
structure Spans (g : Segment) : Prop where
  keys : ¬ g.info.largest < g.info.smallest
  within : ∀ k e, g.entries[k]? = some e → ¬ k < g.info.smallest ∧ ¬ g.info.largest < k

theorem spans_of_build {id level : Nat} {writes : Nat × Nat} {entries : EntryTable} {g : Segment}
    (h : build id level writes entries = some g) : g.Spans := by
  refine ⟨(builtOf h).keys, fun k e he => ?_⟩
  unfold build at h
  dsimp only at h
  split at h
  · rename_i first last hfirst hlast
    cases h
    have hmem : (k, e) ∈ entries.toList := Std.ExtTreeMap.mem_toList_iff_getElem?_eq_some.2 he
    have hasc := Ascending.toList entries
    have hle : ∀ {a b : Bytes}, a = b ∨ compare a b = .lt → ¬ b < a := fun {a b} hab hlt => by
      rcases hab with rfl | hab
      · exact List.lt_irrefl _ hlt
      · exact List.lt_irrefl _ (List.lt_trans hlt (Bytes.compare_eq_lt.1 hab))
    refine ⟨hle ?_, hle ?_⟩
    · obtain ⟨rest, hrest⟩ := List.head?_eq_some_iff.1 hfirst
      rw [hrest] at hmem hasc
      rcases List.mem_cons.1 hmem with heq | hin
      · exact .inl (congrArg Prod.fst heq).symm
      · exact .inr (hasc.lt_of_cons _ hin)
    · obtain ⟨rest, hrest⟩ := List.getLast?_eq_some_iff.1 hlast
      rw [hrest] at hmem hasc
      rcases List.mem_append.1 hmem with hin | hin
      · exact .inr ((List.pairwise_append.1 hasc).2.2 _ hin _ (List.mem_singleton_self _))
      · exact .inl (congrArg Prod.fst (List.mem_singleton.1 hin))
  · cases h

end Segment

/-! ## One column -/

namespace ColumnState

/-- A column in order whose segments span their keys. -/
structure Sequenced (s : ColumnState) (now : Nat) : Prop extends s.InOrder now where
  spans : ∀ g ∈ s.level0, g.Spans

variable {s : ColumnState} {now : Nat}

theorem Filled.sequenced (h : s.Filled now) (hlevel0 : s.level0 = []) : s.Sequenced now :=
  { h.inOrder with spans := fun g hg => by rw [hlevel0] at hg; cases hg }

theorem Sequenced.mono {later : Nat} (h : s.Sequenced now) (hle : now ≤ later) : s.Sequenced later :=
  { h.toInOrder.mono hle with spans := h.spans }

theorem Sequenced.noteWrite {n : Nat} (h : s.Sequenced now) (hn : now < n) (memory : EntryTable) :
    Sequenced { s.noteWrite n with memory := memory } n :=
  { h.toInOrder.noteWrite hn memory with spans := h.spans }

theorem Sequenced.frozen (h : s.Sequenced now) (id : Nat) : (s.frozen id).Sequenced now :=
  { h.toInOrder.frozen id with
    spans := fun g hg => (List.mem_append.1 hg).elim (h.spans g) fun hg => Segment.spans_of_build (Option.mem_toList.1 hg) }

/-- A segment is ingested while nothing waits in memory. -/
theorem Sequenced.ingested (h : s.Sequenced now) (hmemory : s.memoryWrites = none) {id n : Nat} (hn : 0 < n)
    {entries : EntryTable} {g : Segment} (hg : Segment.build id 0 (now + 1, now + n) entries = some g) :
    Sequenced { s with level0 := s.level0 ++ [g] } (now + n) := by
  have hbuilt := Segment.builtOf hg
  have hwritten : g.IsWritten (now + n) :=
    ⟨hbuilt.level, by rw [hbuilt.oldestWrite, hbuilt.newestWrite]; simp only; omega, Nat.le_of_eq hbuilt.newestWrite⟩
  have hmono := h.mono (Nat.le_add_right now n)
  refine
    { hmono with
      memoryWrites := fun w hw => by rw [hmemory] at hw; cases hw
      level0 := fun x hx => ?_
      consecutive := List.pairwise_append.2 ⟨h.consecutive, List.pairwise_singleton _ g, fun x hx y hy => ?_⟩
      spans := fun x hx => ?_ }
  · rcases List.mem_append.1 hx with hx | hx
    · exact hmono.level0 x hx
    · rwa [List.mem_singleton.1 hx]
  · rw [List.mem_singleton.1 hy, hbuilt.oldestWrite]
    exact Nat.lt_succ_of_le (h.level0 x hx).newestWrite
  · rcases List.mem_append.1 hx with hx | hx
    · exact h.spans x hx
    · rw [List.mem_singleton.1 hx]
      exact Segment.spans_of_build hg

/-- Reads and scans agree on which of two segments of level 0 hides the other. -/
structure NewestAnswers (s : ColumnState) (c : Column) : Prop where
  /-- Reads ask the later of two segments first, and all of it was written after the other. -/
  asked : ∀ older newer, [older, newer].Sublist s.level0 → older.info.newestWrite < newer.info.oldestWrite
  /-- What was written last of a key is what is read. -/
  answer : ∀ g ∈ s.level0, ∀ (k : Bytes) (e : Entry), g.entries[k]? = some e →
    (∀ other ∈ s.level0, ∀ f, other.entries[k]? = some f → other.info.newestWrite ≤ g.info.newestWrite) → s.get k = e
  /-- A scan puts it into an earlier run. -/
  priorities : ∀ runs, SortedRun.classify c (s.segments.map (·.info)) = .ok runs →
    ∀ older ∈ s.level0, ∀ newer ∈ s.level0, ∀ (k : Bytes) (e f : Entry), older.entries[k]? = some e → newer.entries[k]? = some f →
      older.info.newestWrite < newer.info.oldestWrite →
      (∃ r ∈ runs, newer.info ∈ r.segments) ∧ (∃ r ∈ runs, older.info ∈ r.segments) ∧
        ∀ r ∈ runs, ∀ r' ∈ runs, newer.info ∈ r.segments → older.info ∈ r'.segments → r.priority < r'.priority
  /-- Only deletion markers keep scans away. -/
  accepted : (∀ g ∈ s.segments, g.info.deletions = 0) →
    ∃ runs, SortedRun.classify c (s.segments.map (·.info)) = .ok runs

theorem Sequenced.newestAnswers (h : s.Sequenced now) (hmemory : s.memory = ∅) (c : Column) : s.NewestAnswers c where
  asked older newer hsub := by
    have hpair := h.consecutive.sublist hsub
    exact List.rel_of_pairwise_cons hpair (List.mem_singleton_self newer)
  answer g hg k e he hlast := by
    obtain ⟨before, after, hsplit⟩ := List.append_of_mem hg
    have hafter : ∀ x ∈ after, x.entries[k]? = none := fun x hx => by
      have hx0 : x ∈ s.level0 := by rw [hsplit]; simp [hx]
      have hlt : g.info.newestWrite < x.info.oldestWrite := by
        have hconsecutive := h.consecutive
        rw [hsplit] at hconsecutive
        exact List.rel_of_pairwise_cons (List.pairwise_append.1 hconsecutive).2.1 hx
      have hwrites := (h.level0 x hx0).writes
      refine Option.eq_none_iff_forall_ne_some.2 fun f hf => ?_
      have := hlast x hx0 f hf
      omega
    have hnone : (after.reverse.map (·.entries)).findSome? (·[k]?) = none :=
      List.findSome?_eq_none_iff.2 fun t ht => by
        obtain ⟨x, hx, rfl⟩ := List.mem_map.1 ht
        exact hafter x (List.mem_reverse.1 hx)
    have hempty : (∅ : EntryTable)[k]? = none := Std.ExtTreeMap.getElem?_empty
    rw [get_eq_findSome?, hmemory, hsplit, List.findSome?_cons, hempty, List.reverse_append, List.reverse_cons,
      List.append_assoc, List.append_assoc, List.map_append]
    simp only [List.findSome?_append, hnone, Option.none_or]
    simp [he]
  priorities runs hruns older holder newer hnewer k e f he hf hlt := by
    have hin : ∀ g ∈ s.level0, g.info ∈ s.segments.map (·.info) := fun g hg =>
      List.mem_map_of_mem (List.mem_append_left _ hg)
    have hkeys : ∀ g ∈ s.segments.map (·.info), ¬ g.largest < g.smallest := fun g hg => by
      obtain ⟨x, hx, rfl⟩ := List.mem_map.1 hg
      rcases List.mem_append.1 hx with hx | hx
      · exact (h.spans x hx).keys
      · exact (h.deeper x hx).keys
    have hwrites := (h.level0 newer hnewer).writes
    exact ⟨SortedRun.exists_run_of_classify hruns (hin newer hnewer),
      SortedRun.exists_run_of_classify hruns (hin older holder), fun r hr r' hr' =>
      SortedRun.priority_lt_of_classify hruns hkeys (h.level0 older holder).level (h.level0 newer hnewer).level
        (by omega) ((h.spans older holder).within k e he) ((h.spans newer hnewer).within k f hf) hr hr'⟩
  accepted hdeletions := SortedRun.classify_ok c (h.layered hdeletions)

end ColumnState

/-! ## Stores that grow -/

/-- What a store of segments grows by. -/
inductive Growth where
  | write (b : Batch)
  | flush
  | compact (c : Column) (per : Nat)
  /-- A segment of level 0 is taken as it is. -/
  | ingest (c : Column) (entries : List (Bytes × Entry))

namespace SegmentedStore

/-- One step; a batch that is refused changes nothing. -/
def grow (s : SegmentedStore) : Growth → SegmentedStore
  | .write b =>
    match s.write b with
    | .ok s' => s'
    | .error _ => s
  | .flush => s.flush
  | .compact c per => s.compact c per
  | .ingest c entries => s.ingest c 0 entries

/-- The store that some steps lead to. -/
def grown (steps : List Growth) : SegmentedStore := steps.foldl grow .empty

/-- A segment is ingested only while no write to its column waits in memory. -/
def IsTimely (s : SegmentedStore) : Growth → Prop
  | .ingest c _ => (s.column c).memoryWrites = none
  | _ => True

instance (s : SegmentedStore) : (step : Growth) → Decidable (s.IsTimely step)
  | .ingest _ _ => inferInstanceAs (Decidable (_ = none))
  | .write _ | .flush | .compact _ _ => .isTrue trivial

def AllTimely : SegmentedStore → List Growth → Prop
  | _, [] => True
  | s, step :: steps => s.IsTimely step ∧ AllTimely (s.grow step) steps

instance : (s : SegmentedStore) → (steps : List Growth) → Decidable (s.AllTimely steps)
  | _, [] => .isTrue trivial
  | s, step :: steps => @instDecidableAnd _ _ _ (instDecidableAllTimely (s.grow step) steps)

/-- Every column is in order. -/
def Sequenced (s : SegmentedStore) : Prop := ∀ c, (s.column c).Sequenced s.lastWrite

variable {s s' : SegmentedStore}

theorem sequenced_empty : empty.Sequenced := fun c => by
  rw [column, empty, Columns.get_const]
  exact (ColumnState.filled_default 0).sequenced rfl

/-- A column is replaced while the numbers of writes go on. -/
theorem Sequenced.setColumn (h : s.Sequenced) {now segment : Nat} (hnow : s.lastWrite ≤ now) {c : Column}
    {state : ColumnState} (hstate : state.Sequenced now) :
    ({ s with lastWrite := now, lastSegment := segment }.setColumn c state).Sequenced := fun d => by
  rw [column_setColumn]
  split
  · exact hstate
  · exact (h d).mono hnow

theorem exists_foldl_forget : ∀ (ps : List Pair) (state : ColumnState), ∃ memory,
    ps.foldl (fun st p => st.remember p.1 none) state = { state with memory := memory }
  | [], state => ⟨state.memory, rfl⟩
  | p :: ps, state => by
    obtain ⟨memory, h⟩ := exists_foldl_forget ps (state.remember p.1 none)
    exact ⟨memory, h⟩

/-- A write is numbered, and changes what is in memory of its column. -/
theorem exists_of_applyOp {op : Op} (h : s.applyOp op = .ok s') : ∃ memory,
    s' = { s with lastWrite := s.lastWrite + 1 }.setColumn op.column
      { (s.column op.column).noteWrite (s.lastWrite + 1) with memory := memory } := by
  cases op with
  | put c k v => cases h; exact ⟨_, rfl⟩
  | delete c k => cases h; exact ⟨_, rfl⟩
  | deleteRange c r =>
    cases h
    obtain ⟨memory, hforget⟩ := exists_foldl_forget (((s.column c).noteWrite (s.lastWrite + 1)).visibleIn r)
      ((s.column c).noteWrite (s.lastWrite + 1))
    exact ⟨memory, congrArg (SegmentedStore.setColumn _ c) hforget⟩
  | merge c k d =>
    rw [applyOp] at h
    split at h
    · cases h; exact ⟨_, rfl⟩
    · cases h

theorem Sequenced.applyOp (h : s.Sequenced) {op : Op} (hs : s.applyOp op = .ok s') : s'.Sequenced := by
  obtain ⟨memory, rfl⟩ := exists_of_applyOp hs
  exact h.setColumn (Nat.le_succ _) ((h op.column).noteWrite (Nat.lt_succ_self _) memory)

theorem Sequenced.write : ∀ {b : Batch} {s s' : SegmentedStore}, s.Sequenced → s.write b = .ok s' → s'.Sequenced
  | [], s, s', h, hs => by cases hs; exact h
  | op :: b, s, s', h, hs => by
    rw [SegmentedStore.write, List.foldlM_cons] at hs
    obtain ⟨s₁, hs₁, hs⟩ := exists_of_bind hs
    exact Sequenced.write (h.applyOp hs₁) hs

theorem Sequenced.flushColumn (h : s.Sequenced) (c : Column) : (s.flushColumn c).Sequenced := by
  unfold SegmentedStore.flushColumn
  cases hstate : s.columns.get c with
  | none => exact h
  | some state =>
    have hcolumn : s.column c = state := by rw [column, hstate]; rfl
    exact h.setColumn (Nat.le_refl _) ((hcolumn ▸ h c).frozen (s.lastSegment + 1))

theorem Sequenced.flush (h : s.Sequenced) : s.flush.Sequenced := by
  unfold SegmentedStore.flush
  induction Column.all generalizing s with
  | nil => exact h
  | cons c cs ih => exact ih (h.flushColumn c)

theorem Sequenced.compact (h : s.Sequenced) (c : Column) (per : Nat) : (s.compact c per).Sequenced := by
  have hfilled := s.onlyFilled_compact c per
  unfold SegmentedStore.OnlyFilled at hfilled
  unfold SegmentedStore.compact at hfilled ⊢
  dsimp only at hfilled ⊢
  rw [column_setColumn, if_pos rfl] at hfilled
  exact h.setColumn (Nat.le_refl _) (hfilled.sequenced rfl)

theorem Sequenced.ingest (h : s.Sequenced) {c : Column} (hmemory : (s.column c).memoryWrites = none)
    (entries : List (Bytes × Entry)) : (s.ingest c 0 entries).Sequenced := by
  unfold SegmentedStore.ingest
  dsimp only
  split
  · exact h
  · rename_i g hg
    have hpos : 0 < (Std.ExtTreeMap.ofList entries : EntryTable).size := by
      obtain ⟨e, he, -⟩ := (Segment.builtOf hg).smallest
      rw [← Std.ExtTreeMap.length_toList]
      exact List.length_pos_of_mem he
    rw [if_pos rfl]
    exact h.setColumn (Nat.le_add_right _ _) ((h c).ingested hmemory hpos hg)

theorem Sequenced.grow (h : s.Sequenced) {step : Growth} (hstep : s.IsTimely step) : (s.grow step).Sequenced := by
  cases step with
  | write b =>
    rw [SegmentedStore.grow]
    cases hs : s.write b with
    | error e => exact h
    | ok s' => exact h.write hs
  | flush => exact h.flush
  | compact c per => exact h.compact c per
  | ingest c entries => exact h.ingest hstep entries

theorem Sequenced.foldl_grow {steps : List Growth} (h : s.Sequenced) (hsteps : s.AllTimely steps) :
    (steps.foldl SegmentedStore.grow s).Sequenced := by
  induction steps generalizing s with
  | nil => exact h
  | cons step steps ih => exact ih (h.grow hsteps.1) hsteps.2

/-- **Reads and scans agree on which segment hides another.**  However a store has grown, as long as segments were only
ingested where no write to their column was waiting, of all segments of level 0 that hold a key the one whose writes
all came after the others is read, and scans put it first. -/
theorem grown_newestAnswers {steps : List Growth} (hsteps : empty.AllTimely steps) {c : Column}
    (hmemory : ((grown steps).column c).memory = ∅) : ((grown steps).column c).NewestAnswers c :=
  (sequenced_empty.foldl_grow hsteps c).newestAnswers hmemory c

/-- A key is written, flushed, ingested twice, and deleted and written again in another column in between. -/
theorem grown_newestAnswers_rewritten :
    let steps : List Growth := [
      .write [.put .elements [1] [10], .put .tiles [1] [2]], .flush, .ingest .elements [([1], some [11]), ([2], none)],
      .write [.deleteRange .tiles .all, .put .tiles [1] [3]], .ingest .elements [([1], some [12])], .flush]
    empty.AllTimely steps ∧ ((grown steps).column .elements).memory = ∅ ∧
      ((grown steps).column .elements).level0.length = 3 ∧ ((grown steps).column .elements).NewestAnswers .elements := by
  intro steps
  have hsteps : empty.AllTimely steps := by decide +kernel
  have hmemory : ((grown steps).column .elements).memory = ∅ :=
    Std.ExtTreeMap.isEmpty_iff.1 (by decide +kernel)
  exact ⟨hsteps, hmemory, by decide +kernel, grown_newestAnswers hsteps hmemory⟩

/-- **A write overtakes a segment that was ingested after it,** when it is flushed only then: it is what is read of the
key, although the segment holds the later writes and scans put it first. -/
theorem grown_overtaken :
    let s := (grown [.write [.put .elements [1] [10]], .ingest .elements [([1], some [11])], .flush]).column .elements
    let info (id write : Nat) : SegmentMeta :=
      { id := id, level := 0, smallest := [1], largest := [1], size := 2, entries := 1, deletions := 0,
        oldestWrite := write, newestWrite := write }
    s.memory.isEmpty = true ∧ s.level0.map (·.info) = [info 1 2, info 2 1] ∧
      s.level0.map (·.entries[([1] : Bytes)]?) = [some (some [11]), some (some [10])] ∧ s.get [1] = some [10] ∧
      SortedRun.classify .elements (s.segments.map (·.info)) = .ok [⟨0, [info 1 2]⟩, ⟨1, [info 2 1]⟩] ∧
      ¬ s.NewestAnswers .elements := by
  intro s info
  have hinfo : s.level0.map (·.info) = [info 1 2, info 2 1] := by decide +kernel
  refine ⟨by decide +kernel, hinfo, by decide +kernel, by decide +kernel, ?_, fun h => ?_⟩
  · have hsegments : s.segments.map (·.info) = [info 1 2, info 2 1] := by decide +kernel
    have hlevels : SortedRun.levels [info 1 2, info 2 1] = [(0, [info 1 2, info 2 1])] := by decide +kernel
    have hordered : SortedRun.interleaving? (SortedRun.byOldestWrite ([info 1 2, info 2 1].filter (·.level = 0))) = none := by
      simp [SortedRun.interleaving?, SortedRun.neighbours?, SortedRun.byOldestWrite, List.mergeSort, info]
    have hruns : SortedRun.levelRuns .elements 0 [info 1 2, info 2 1] = .ok [[info 1 2], [info 2 1]] := by
      simp [SortedRun.levelRuns, SortedRun.level0Runs, SortedRun.byOldestWrite, SortedRun.byKey, SortedRun.newestFirst,
        SortedRun.overlap?, SortedRun.neighbours?, List.mergeSort, info]
    rw [hsegments, SortedRun.classify, hlevels, hordered, List.mapM_cons, hruns]
    rfl
  · obtain ⟨ingested, rest, hlevel0, hingested, hrest⟩ := List.map_eq_cons_iff.1 hinfo
    obtain ⟨flushed, rest, rfl, hflushed, hnil⟩ := List.map_eq_cons_iff.1 hrest
    cases List.map_eq_nil_iff.1 hnil
    have hasked := h.asked ingested flushed (hlevel0.symm ▸ .refl _)
    rw [hingested, hflushed] at hasked
    exact absurd hasked (by decide)

end SegmentedStore
end TileAtlas
