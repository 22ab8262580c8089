import TileAtlas.Proofs.Scan.Runs
import TileAtlas.Proofs.Store.Histories
/-!
# Columns that are only filled

The memory of a column from which nothing is ever taken holds no deletion markers, and was written after all its
segments.  Freezing it makes one more segment of level 0, written after the others; laying the column out anew cuts
the pairs that show into segments which follow one another by their keys (`ColumnState.Filled`).  Writes to other
columns only make the numbers of writes go on, and batches that are refused do nothing.  So the segments of such a
column always make runs (`SegmentedStore.run_onlyFilled`, `SegmentedStore.OnlyFilled.classify_ok`).
-/
namespace TileAtlas

/-- A write that takes nothing out of a column. -/
def Op.Spares (c : Column) : Op → Prop
  | .put .. | .merge .. => True
  | .delete d _ | .deleteRange d _ => d ≠ c

instance (c : Column) : (op : Op) → Decidable (op.Spares c)
  | .put .. | .merge .. => .isTrue trivial
  | .delete d _ | .deleteRange d _ => inferInstanceAs (Decidable (d ≠ c))

theorem Op.spares_of_ne {c : Column} {op : Op} (h : op.column ≠ c) : op.Spares c := by cases op <;> trivial

/-! ## Segments -/

namespace Segment

/-- What is said of a segment agrees with what it is built of. -/
structure BuiltOf (g : Segment) (level : Nat) (writes : Nat × Nat) (entries : EntryTable) : Prop where
  level : g.info.level = level
  oldestWrite : g.info.oldestWrite = writes.1
  newestWrite : g.info.newestWrite = writes.2
  deletions : g.info.deletions = (entries.toList.filter (·.2.isNone)).length
  smallest : ∃ e ∈ entries.toList, e.1 = g.info.smallest
  largest : ∃ e ∈ entries.toList, e.1 = g.info.largest
  keys : ¬ g.info.largest < g.info.smallest

variable {id level now : Nat} {writes : Nat × Nat} {entries : EntryTable} {g : Segment}

theorem builtOf (h : build id level writes entries = some g) : g.BuiltOf level writes entries := by
  unfold build at h
  dsimp only at h
  split at h
  · rename_i first last hfirst hlast
    cases h
    have hlast := List.mem_of_getLast? hlast
    refine ⟨rfl, rfl, rfl, rfl, ⟨first, List.mem_of_mem_head? hfirst, rfl⟩, ⟨last, hlast, rfl⟩, ?_⟩
    have hasc := Ascending.toList entries
    cases hes : entries.toList with
    | nil => rw [hes] at hlast; cases hlast
    | cons e es =>
      rw [hes] at hfirst hlast hasc
      cases hfirst
      rcases List.mem_cons.1 hlast with rfl | hlast
      · exact List.lt_irrefl _
      · exact fun hlt => List.lt_irrefl _ (List.lt_trans hlt (Bytes.compare_eq_lt.1 (hasc.lt_of_cons _ hlast)))
  · cases h

/-- A segment of level 0, with writes up to some number. -/
structure IsWritten (g : Segment) (now : Nat) : Prop where
  level : g.info.level = 0
  writes : g.info.oldestWrite ≤ g.info.newestWrite
  newestWrite : g.info.newestWrite ≤ now

/-- A segment of level 0 without deletion markers, with writes up to some number. -/
structure IsFrozen (g : Segment) (now : Nat) : Prop where
  level : g.info.level = 0
  deletions : g.info.deletions = 0
  writes : g.info.oldestWrite ≤ g.info.newestWrite
  newestWrite : g.info.newestWrite ≤ now

/-- A segment of level 1 without deletion markers. -/
structure IsLaidOut (g : Segment) : Prop where
  level : g.info.level = 1
  deletions : g.info.deletions = 0
  keys : ¬ g.info.largest < g.info.smallest

theorem IsFrozen.isWritten (h : g.IsFrozen now) : g.IsWritten now := ⟨h.level, h.writes, h.newestWrite⟩

theorem BuiltOf.deletions_eq_zero (h : g.BuiltOf level writes entries) (hvalues : ∀ e ∈ entries.toList, e.2.isNone = false) :
    g.info.deletions = 0 := by
  have hnil : entries.toList.filter (·.2.isNone) = [] :=
    List.filter_eq_nil_iff.2 fun e he => by rw [hvalues e he]; exact Bool.false_ne_true
  rw [h.deletions, hnil]; rfl

end Segment

/-! ## One column -/

namespace ColumnState

/-- A column whose segments of level 0 were written one after another, and its memory after them; deeper segments
follow one another by their keys. -/
structure InOrder (s : ColumnState) (now : Nat) : Prop where
  written : s.memoryWrites = none → s.memory = ∅
  memoryWrites : ∀ w, s.memoryWrites = some w → w.1 ≤ w.2 ∧ w.2 ≤ now ∧ ∀ g ∈ s.level0, g.info.newestWrite < w.1
  level0 : ∀ g ∈ s.level0, g.IsWritten now
  consecutive : s.level0.Pairwise (·.info.newestWrite < ·.info.oldestWrite)
  deeper : ∀ g ∈ s.deeper, g.IsLaidOut
  apart : s.deeper.Pairwise (·.info.largest < ·.info.smallest)

/-- A column from which nothing was taken by the writes up to some number. -/
structure Filled (s : ColumnState) (now : Nat) : Prop where
  values : ∀ e ∈ s.memory.toList, e.2.isNone = false
  written : s.memoryWrites = none → s.memory = ∅
  /-- The memory was written after the segments. -/
  memoryWrites : ∀ w, s.memoryWrites = some w → w.1 ≤ w.2 ∧ w.2 ≤ now ∧ ∀ g ∈ s.level0, g.info.newestWrite < w.1
  level0 : ∀ g ∈ s.level0, g.IsFrozen now
  consecutive : s.level0.Pairwise (·.info.newestWrite < ·.info.oldestWrite)
  deeper : ∀ g ∈ s.deeper, g.IsLaidOut
  apart : s.deeper.Pairwise (·.info.largest < ·.info.smallest)

variable {s : ColumnState} {now : Nat}

theorem deeper_default : ({} : ColumnState).deeper = [] := by
  rw [ColumnState.deeper, Std.ExtTreeMap.toList_eq_nil_iff.2 rfl]; rfl

theorem filled_default (now : Nat) : Filled {} now where
  values e he := by rw [Std.ExtTreeMap.toList_eq_nil_iff.2 rfl] at he; cases he
  written _ := rfl
  memoryWrites := nofun
  level0 := nofun
  consecutive := .nil
  deeper g hg := by rw [deeper_default] at hg; cases hg
  apart := by rw [deeper_default]; exact .nil

theorem Filled.inOrder (h : s.Filled now) : s.InOrder now :=
  { h with level0 := fun g hg => (h.level0 g hg).isWritten }

theorem InOrder.mono {later : Nat} (h : s.InOrder now) (hle : now ≤ later) : s.InOrder later :=
  { h with
    memoryWrites := fun w hw => by
      obtain ⟨hspan, hnow, hlevel0⟩ := h.memoryWrites w hw
      exact ⟨hspan, Nat.le_trans hnow hle, hlevel0⟩
    level0 := fun g hg => { h.level0 g hg with newestWrite := Nat.le_trans (h.level0 g hg).newestWrite hle } }

theorem Filled.mono {later : Nat} (h : s.Filled now) (hle : now ≤ later) : s.Filled later :=
  { h with
    memoryWrites := (h.inOrder.mono hle).memoryWrites
    level0 := fun g hg => { h.level0 g hg with newestWrite := ((h.inOrder.mono hle).level0 g hg).newestWrite } }

/-- **Segments without deletion markers are ready to be walked where they are in order.** -/
theorem InOrder.layered (h : s.InOrder now) (hdeletions : ∀ g ∈ s.segments, g.info.deletions = 0) :
    SortedRun.Layered (s.segments.map (·.info)) := by
  have hmem : ∀ g ∈ s.segments.map (·.info), (∃ x ∈ s.level0, x.info = g) ∨ ∃ x ∈ s.deeper, x.info = g := fun g hg => by
    rw [segments, List.map_append, List.mem_append, List.mem_map, List.mem_map] at hg
    exact hg
  have hsplit : ∀ n, (s.segments.map (·.info)).filter (·.level = n) =
      (s.level0.map (·.info)).filter (·.level = n) ++ (s.deeper.map (·.info)).filter (·.level = n) := fun n => by
    rw [segments, List.map_append, List.filter_append]
  have hlevel0 : ∀ g ∈ s.level0.map (·.info), g.level = 0 := fun g hg => by
    obtain ⟨x, hx, rfl⟩ := List.mem_map.1 hg
    exact (h.level0 x hx).level
  have hlevel1 : ∀ g ∈ s.deeper.map (·.info), g.level = 1 := fun g hg => by
    obtain ⟨x, hx, rfl⟩ := List.mem_map.1 hg
    exact (h.deeper x hx).level
  refine ⟨fun g hg => ?_, fun g hg hzero => ?_, ?_, fun g hg hne => ?_, fun n hn => ?_⟩
  · obtain ⟨x, hx, rfl⟩ := List.mem_map.1 hg
    exact hdeletions x hx
  · obtain ⟨x, hx, rfl⟩ | ⟨x, hx, rfl⟩ := hmem g hg
    · exact (h.level0 x hx).writes
    · rw [(h.deeper x hx).level] at hzero; cases hzero
  · have hnil : (s.deeper.map (·.info)).filter (·.level = 0) = [] :=
      List.filter_eq_nil_iff.2 fun g hg => by simp [hlevel1 g hg]
    rw [hsplit, hnil, List.append_nil, List.filter_eq_self.2 fun g hg => decide_eq_true (hlevel0 g hg), List.pairwise_map]
    exact h.consecutive
  · obtain ⟨x, hx, rfl⟩ | ⟨x, hx, rfl⟩ := hmem g hg
    · exact absurd (h.level0 x hx).level hne
    · exact (h.deeper x hx).keys
  · have hnil : (s.level0.map (·.info)).filter (·.level = n) = [] :=
      List.filter_eq_nil_iff.2 fun g hg => by simp [hlevel0 g hg, hn.symm]
    rw [hsplit, hnil, List.nil_append]
    exact (List.pairwise_map.2 h.apart).sublist List.filter_sublist

theorem Filled.layered (h : s.Filled now) : SortedRun.Layered (s.segments.map (·.info)) :=
  h.inOrder.layered fun g hg => by
    rcases List.mem_append.1 hg with hg | hg
    · exact (h.level0 g hg).deletions
    · exact (h.deeper g hg).deletions

/-- Something is written, whatever it makes of the memory. -/
theorem InOrder.noteWrite {n : Nat} (h : s.InOrder now) (hn : now < n) (memory : EntryTable) :
    InOrder { s.noteWrite n with memory := memory } n := by
  refine { h.mono (Nat.le_of_lt hn) with written := nofun, memoryWrites := fun w hw => ?_ }
  cases hw
  cases hs : s.memoryWrites with
  | none => exact ⟨Nat.le_refl n, Nat.le_refl n, fun g hg => Nat.lt_of_le_of_lt (h.level0 g hg).newestWrite hn⟩
  | some w =>
    obtain ⟨hspan, hnow, hlevel0⟩ := h.memoryWrites w hs
    exact ⟨by simp only [Option.elim_some]; omega, Nat.le_refl n, hlevel0⟩

/-- A value is written. -/
theorem Filled.remember {n : Nat} (h : s.Filled now) (hn : now < n) (k v : Bytes) :
    ((s.noteWrite n).remember k (some v)).Filled n := by
  refine
    { h.mono (Nat.le_of_lt hn) with
      values := fun e he => ?_, written := nofun
      memoryWrites := (h.inOrder.noteWrite hn (s.memory.insert k (some v))).memoryWrites }
  have hget : (s.memory.insert k (some v))[e.1]? = some e.2 := Std.ExtTreeMap.mem_toList_iff_getElem?_eq_some.1 he
  rw [Std.ExtTreeMap.getElem?_insert] at hget
  split at hget
  · rw [← Option.some.inj hget]; rfl
  · exact h.values e (Std.ExtTreeMap.mem_toList_iff_getElem?_eq_some.2 hget)

/-- What is frozen was written after the segments. -/
theorem InOrder.built (h : s.InOrder now) {id : Nat} {g : Segment}
    (hg : Segment.build id 0 (s.memoryWrites.getD (0, 0)) s.memory = some g) :
    g.IsWritten now ∧ ∀ x ∈ s.level0, x.info.newestWrite < g.info.oldestWrite := by
  have hbuilt := Segment.builtOf hg
  cases hw : s.memoryWrites with
  | none =>
    obtain ⟨e, he, -⟩ := hbuilt.smallest
    rw [h.written hw, Std.ExtTreeMap.toList_eq_nil_iff.2 rfl] at he
    cases he
  | some w =>
    obtain ⟨hspan, hnow, hafter⟩ := h.memoryWrites w hw
    rw [hw] at hbuilt
    refine ⟨⟨hbuilt.level, ?_, ?_⟩, ?_⟩
    · rw [hbuilt.oldestWrite, hbuilt.newestWrite]; exact hspan
    · rw [hbuilt.newestWrite]; exact hnow
    · rw [hbuilt.oldestWrite]; exact hafter

/-- The memory is frozen. -/
theorem InOrder.frozen (h : s.InOrder now) (id : Nat) : (s.frozen id).InOrder now := by
  refine
    { h with
      written := fun _ => rfl, memoryWrites := nofun
      level0 := fun g hg => ?_, consecutive := List.pairwise_append.2 ⟨h.consecutive, ?_, fun x hx g hg => ?_⟩ }
  · exact (List.mem_append.1 hg).elim (h.level0 g) fun hg => (h.built (Option.mem_toList.1 hg)).1
  · cases Segment.build id 0 (s.memoryWrites.getD (0, 0)) s.memory with
    | none => exact .nil
    | some g => exact List.pairwise_singleton _ g
  · exact (h.built (Option.mem_toList.1 hg)).2 x hx

theorem Filled.frozen (h : s.Filled now) (id : Nat) : (s.frozen id).Filled now := by
  refine
    { h with
      values := (filled_default now).values, written := fun _ => rfl, memoryWrites := nofun
      level0 := fun g hg => ?_, consecutive := (h.inOrder.frozen id).consecutive }
  rcases List.mem_append.1 hg with hg | hg
  · exact h.level0 g hg
  · have hbuild := Option.mem_toList.1 hg
    exact { (h.inOrder.built hbuild).1 with deletions := (Segment.builtOf hbuild).deletions_eq_zero h.values }

/-! ### Laying a column out anew -/

theorem isLaidOut_of_build {id : Nat} {span : Nat × Nat} {run : List Pair} (hrun : Ascending run) {g : Segment}
    (h : Segment.build id 1 span (entriesOf run) = some g) :
    g.IsLaidOut ∧ (∃ p ∈ run, p.1 = g.info.smallest) ∧ ∃ p ∈ run, p.1 = g.info.largest := by
  have hbuilt := Segment.builtOf h
  have hentry : ∀ e ∈ (entriesOf run).toList, ∃ v, e.2 = some v ∧ (e.1, v) ∈ run := fun e he =>
    (getElem?_entriesOf hrun e.1 e.2).1 (Std.ExtTreeMap.mem_toList_iff_getElem?_eq_some.1 he)
  have hkey : ∀ {k}, (∃ e ∈ (entriesOf run).toList, e.1 = k) → ∃ p ∈ run, p.1 = k := fun ⟨e, he, hk⟩ => by
    obtain ⟨v, -, hv⟩ := hentry e he
    exact ⟨(e.1, v), hv, hk⟩
  refine ⟨⟨hbuilt.level, hbuilt.deletions_eq_zero fun e he => ?_, hbuilt.keys⟩, hkey hbuilt.smallest, hkey hbuilt.largest⟩
  obtain ⟨v, hv, -⟩ := hentry e he
  rw [hv]; rfl

/-- Runs of one ascending list make segments that follow one another. -/
theorem filled_of_runs {runs : List (List Pair)} (hruns : Ascending runs.flatten) (start : Nat) (span : Nat × Nat) (now : Nat) :
    Filled { levels := .ofList [(1, runs.zipIdx.filterMap fun r =>
      Segment.build (start + r.2) 1 span (entriesOf r.1))] } now := by
  obtain ⟨hrun, hcross⟩ := List.pairwise_flatten.1 hruns
  refine { filled_default now with deeper := fun g hg => ?_, apart := ?_ }
  · rw [deeper_ofList] at hg
    obtain ⟨⟨run, i⟩, hmem, hbuild⟩ := List.mem_filterMap.1 hg
    exact (isLaidOut_of_build (hrun run (List.fst_mem_of_mem_zipIdx hmem)) hbuild).1
  · rw [deeper_ofList, List.pairwise_filterMap]
    have hzip : (runs.zipIdx).Pairwise fun a b => ∀ x ∈ a.1, ∀ y ∈ b.1, compare x.1 y.1 = .lt :=
      List.pairwise_map.1 (by rwa [List.zipIdx_map_fst 0 runs])
    refine hzip.imp_of_mem fun {a b} ha hb hab g hg g' hg' => ?_
    obtain ⟨-, -, p, hp, hlargest⟩ := isLaidOut_of_build (hrun a.1 (List.fst_mem_of_mem_zipIdx ha)) hg
    obtain ⟨-, ⟨q, hq, hsmallest⟩, -⟩ := isLaidOut_of_build (hrun b.1 (List.fst_mem_of_mem_zipIdx hb)) hg'
    rw [← hlargest, ← hsmallest]
    exact Bytes.compare_eq_lt.1 (hab p hp q hq)

end ColumnState

/-! ## One column of a store -/

namespace SegmentedStore

/-- Nothing was ever taken out of a column. -/
def OnlyFilled (s : SegmentedStore) (c : Column) : Prop := (s.column c).Filled s.lastWrite

variable {s s' : SegmentedStore} {c : Column}

theorem column_setColumn (s : SegmentedStore) (c d : Column) (state : ColumnState) :
    (s.setColumn c state).column d = if d = c then state else s.column d := by
  rw [column, setColumn, Columns.get_set]
  split <;> rfl

theorem onlyFilled_empty (c : Column) : empty.OnlyFilled c := by
  rw [OnlyFilled, column, empty, Columns.get_const]
  exact ColumnState.filled_default 0

/-- **The segments of a column that is only filled make runs.** -/
theorem OnlyFilled.classify_ok (h : s.OnlyFilled c) :
    ∃ runs, SortedRun.classify c ((s.column c).segments.map (·.info)) = .ok runs :=
  SortedRun.classify_ok c (ColumnState.Filled.layered h)

theorem OnlyFilled.applyOp (h : s.OnlyFilled c) {op : Op} (hop : op.Spares c) (hs : s.applyOp op = .ok s') :
    s'.OnlyFilled c := by
  have hset : ∀ {d : Column} {state : ColumnState},
      (d = c → state.Filled (s.lastWrite + 1)) →
      ({ s with lastWrite := s.lastWrite + 1 }.setColumn d state).OnlyFilled c := fun {d state} hstate => by
    rw [OnlyFilled, column_setColumn]
    split
    · rename_i hd; exact hstate hd.symm
    · exact h.mono (Nat.le_succ _)
  have hvalue : ∀ {d : Column} (k v : Bytes), d = c →
      (((s.column d).noteWrite (s.lastWrite + 1)).remember k (some v)).Filled (s.lastWrite + 1) := fun k v hd => by
    rw [hd]
    exact ColumnState.Filled.remember h (Nat.lt_succ_self _) k v
  cases op with
  | put d k v => cases hs; exact hset (hvalue k v)
  | delete d k => cases hs; exact hset fun hd => absurd hd hop
  | deleteRange d r => cases hs; exact hset fun hd => absurd hd hop
  | merge d k x =>
    rw [SegmentedStore.applyOp] at hs
    split at hs
    · cases hs; exact hset (hvalue k _)
    · cases hs

theorem OnlyFilled.write : ∀ {b : Batch} {s s' : SegmentedStore}, s.OnlyFilled c → (∀ op ∈ b, op.Spares c) →
    s.write b = .ok s' → s'.OnlyFilled c
  | [], s, s', h, _, hs => by cases hs; exact h
  | op :: b, s, s', h, hb, hs => by
    rw [SegmentedStore.write, List.foldlM_cons] at hs
    obtain ⟨s₁, hs₁, hs⟩ := exists_of_bind hs
    exact OnlyFilled.write (h.applyOp (hb op List.mem_cons_self) hs₁) (fun x hx => hb x (List.mem_cons_of_mem _ hx)) hs

theorem OnlyFilled.flushColumn (h : s.OnlyFilled c) (d : Column) : (s.flushColumn d).OnlyFilled c := by
  unfold SegmentedStore.flushColumn
  cases hstate : s.columns.get d with
  | none => exact h
  | some state =>
    have hcolumn : s.column d = state := by rw [column, hstate]; rfl
    dsimp only
    rw [OnlyFilled, column_setColumn]
    split
    · rename_i hd
      subst hd
      rw [← hcolumn]
      exact ColumnState.Filled.frozen h (s.lastSegment + 1)
    · exact h

theorem OnlyFilled.flush (h : s.OnlyFilled c) : s.flush.OnlyFilled c := by
  unfold SegmentedStore.flush
  induction Column.all generalizing s with
  | nil => exact h
  | cons d ds ih => exact ih (h.flushColumn d)

/-- A column that is laid out anew counts as only filled, whatever was taken out of it before. -/
theorem onlyFilled_compact (s : SegmentedStore) (c : Column) (per : Nat) : (s.compact c per).OnlyFilled c := by
  unfold SegmentedStore.compact
  dsimp only
  rw [OnlyFilled, column_setColumn, if_pos rfl]
  refine ColumnState.filled_of_runs ?_ (s.lastSegment + 1) (s.column c).writeSpan s.lastWrite
  rw [flatten_runsOf (per - 1) (Nat.le_refl _)]
  exact (s.column c).ascending_visibleIn _

theorem OnlyFilled.compact (h : s.OnlyFilled c) (d : Column) (per : Nat) : (s.compact d per).OnlyFilled c := by
  by_cases hd : c = d
  · subst hd
    exact s.onlyFilled_compact c per
  · unfold SegmentedStore.compact
    dsimp only
    rw [OnlyFilled, column_setColumn, if_neg hd]
    exact h

end SegmentedStore

/-! ## Histories -/

namespace Keeping

variable {σ : Type}

/-- The batches that are taken when some events follow one another. -/
def taken (w : Keeping σ) : σ → List StoreEvent → List Batch
  | _, [] => []
  | s, .write b :: events =>
    match w.write s b with
    | .ok s' => b :: w.taken s' events
    | .error _ => w.taken s events
  | s, .flush :: events => w.taken (w.flush s) events
  | s, .compact c per :: events => w.taken (w.compact s c per) events

end Keeping

namespace SegmentedStore

theorem OnlyFilled.foldl {c : Column} : ∀ {events : List StoreEvent} {h : History SegmentedStore}, h.state.OnlyFilled c →
    (∀ b ∈ keeping.taken h.state events, ∀ op ∈ b, op.Spares c) → (events.foldl keeping.step h).state.OnlyFilled c
  | [], _, hc, _ => hc
  | .flush :: events, _, hc, hb => by
    rw [List.foldl_cons]
    exact OnlyFilled.foldl hc.flush hb
  | .compact d per :: events, _, hc, hb => by
    rw [List.foldl_cons]
    exact OnlyFilled.foldl (hc.compact d per) hb
  | .write b :: events, h, hc, hb => by
    rw [List.foldl_cons, Keeping.step]
    rw [Keeping.taken] at hb
    cases hs : keeping.write h.state b with
    | error e =>
      rw [hs] at hb
      exact OnlyFilled.foldl hc hb
    | ok s =>
      rw [hs] at hb
      exact OnlyFilled.foldl (OnlyFilled.write hc (hb b List.mem_cons_self) hs) fun x hx => hb x (List.mem_cons_of_mem _ hx)

/-- **A column that only ever took values and merges is only filled,** wherever upkeep falls. -/
theorem run_onlyFilled {c : Column} {events : List StoreEvent}
    (h : ∀ b ∈ keeping.taken .empty events, ∀ op ∈ b, op.Spares c) : (keeping.run .empty events).state.OnlyFilled c :=
  OnlyFilled.foldl (onlyFilled_empty c) h

end SegmentedStore
end TileAtlas
