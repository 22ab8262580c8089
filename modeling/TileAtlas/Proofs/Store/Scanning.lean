import TileAtlas.Proofs.Scan.Piece
import TileAtlas.Proofs.Store.Ingesting
/-!
# Point reads and scans agree

A point read asks the sources of a column one after another, and the first that knows the key answers.  A walk goes
through all of them at once: it takes the least key that is next in any, from the first source that has it next, and
passes this key in all (`Layers.rows`).  Walking is merging the layers two by two (`Layers.rows_eq_live`), so that both
ways of reading tell the same pairs, however segments lie over one another and whatever they hide.  This needs nothing
of the layout of a store, and holds after segments were ingested at any level (`SegmentedStore.changed_scansAgree`).
-/
namespace TileAtlas

/-! ## Walking all sources at once -/

/-- What is left of each source, those first that hide others. -/
abbrev Layers := List (List (Bytes × Entry))

namespace Layers

/-- The least key that is next in a source, as the first of these sources has it. -/
def front? : Layers → Option (Bytes × Entry)
  | [] => none
  | source :: rest =>
    match source.head?, front? rest with
    | none, found => found
    | some e, none => some e
    | some e, some f => if f.1 < e.1 then some f else some e

/-- Pass a key in every source. -/
def past (ls : Layers) (k : Bytes) : Layers := ls.map (·.dropWhile fun e => e.1 = k)

def width (ls : Layers) : Nat := (ls.map List.length).sum

theorem width_past_le (ls : Layers) (k : Bytes) : (ls.past k).width ≤ ls.width := by
  induction ls with
  | nil => exact Nat.le_refl _
  | cons source rest ih =>
    have hsource := (List.dropWhile_sublist (l := source) fun e => decide (e.1 = k)).length_le
    simp only [past, width, List.map_cons, List.sum_cons] at ih ⊢
    omega

theorem exists_of_front? : ∀ {ls : Layers} {e : Bytes × Entry}, ls.front? = some e → ∃ source ∈ ls, source.head? = some e
  | source :: rest, e, h => by
    rw [front?] at h
    split at h
    · obtain ⟨s, hs, he⟩ := exists_of_front? h
      exact ⟨s, List.mem_cons_of_mem _ hs, he⟩
    · rename_i hhead _
      cases h
      exact ⟨source, List.mem_cons_self, hhead⟩
    · rename_i hhead hrest
      split at h
      · cases h
        obtain ⟨s, hs, he⟩ := exists_of_front? hrest
        exact ⟨s, List.mem_cons_of_mem _ hs, he⟩
      · cases h
        exact ⟨source, List.mem_cons_self, hhead⟩

theorem width_past_lt {ls : Layers} {e : Bytes × Entry} (h : ls.front? = some e) : (ls.past e.1).width < ls.width := by
  obtain ⟨source, hsource, hhead⟩ := exists_of_front? h
  obtain ⟨tail, rfl⟩ := List.head?_eq_some_iff.1 hhead
  obtain ⟨before, after, rfl⟩ := List.append_of_mem hsource
  have hbefore := width_past_le before e.1
  have hafter := width_past_le after e.1
  have htail := (List.dropWhile_sublist (l := tail) fun f => decide (f.1 = e.1)).length_le
  simp only [past, width, List.map_append, List.map_cons, List.sum_append, List.sum_cons, List.length_cons,
    List.dropWhile_cons_of_pos (p := fun f : Bytes × Entry => decide (f.1 = e.1)) (decide_eq_true rfl)] at hbefore hafter ⊢
  omega

/-- The pairs that a walk comes to: a deletion marker hides its key and shows nothing. -/
def rows (ls : Layers) : List Pair :=
  match _h : ls.front? with
  | none => []
  | some (k, e) => (e.map fun v => (k, v)).toList ++ rows (ls.past k)
termination_by ls.width
decreasing_by exact width_past_lt _h

end Layers

/-- What is dropped from the front of ascending rows is all that would be dropped anywhere. -/
theorem Ascending.dropWhile_eq_filter {β : Type} {f : Bytes → Bool} : ∀ {l : List (Bytes × β)}, Ascending l →
    (∀ a ∈ l, ∀ b ∈ l, a.1 < b.1 → f b.1 = true → f a.1 = true) →
    (l.dropWhile fun p => f p.1) = l.filter fun p => !f p.1
  | [], _, _ => rfl
  | p :: l, h, hf => by
    have hrest : ∀ a ∈ l, ∀ b ∈ l, a.1 < b.1 → f b.1 = true → f a.1 = true := fun a ha b hb =>
      hf a (List.mem_cons_of_mem p ha) b (List.mem_cons_of_mem p hb)
    cases hp : f p.1 with
    | true =>
      rw [List.dropWhile_cons_of_pos (by simp [hp]), List.filter_cons_of_neg (by simp [hp]), h.tail.dropWhile_eq_filter hrest]
    | false =>
      rw [List.dropWhile_cons_of_neg (by simp [hp]), List.filter_eq_self.2 fun q hq => ?_]
      rcases List.mem_cons.1 hq with rfl | hin
      · simp [hp]
      · refine Bool.not_eq_true' _ ▸ Bool.eq_false_iff.2 fun hq' => ?_
        rw [hf p List.mem_cons_self q hq (Bytes.compare_eq_lt.1 (h.lt_of_cons q hin)) hq'] at hp
        cases hp

/-! ## Merging two by two -/

theorem head?_shadow (newer older : List (Bytes × Entry)) : (shadow newer older).head? =
    match newer.head?, older.head? with
    | none, found => found
    | some e, none => some e
    | some e, some f => if f.1 < e.1 then some f else some e := by
  cases newer with
  | nil => rw [shadow]; rfl
  | cons x newer =>
    obtain ⟨k, e⟩ := x
    cases older with
    | nil => rw [shadow] <;> simp
    | cons y older =>
      obtain ⟨l, f⟩ := y
      rw [shadow]
      cases hc : compare k l with
      | lt => simp [List.lt_asymm (Bytes.compare_eq_lt.1 hc)]
      | eq =>
        obtain rfl := Std.LawfulEqOrd.eq_of_compare hc
        simp [List.lt_irrefl]
      | gt =>
        have hlt : l < k := Bytes.compare_eq_lt.1 (by rw [@Std.OrientedCmp.eq_swap _ compare, hc]; rfl)
        simp [hlt]

/-- Leaving keys out of both sides leaves them out of what is merged. -/
theorem shadow_filter {newer older : List (Bytes × Entry)} (hn : Ascending newer) (ho : Ascending older) (keep : Bytes → Bool) :
    shadow (newer.filter fun e => keep e.1) (older.filter fun e => keep e.1) =
      (shadow newer older).filter fun e => keep e.1 := by
  have hn' : Ascending (newer.filter fun e => keep e.1) := hn.filter _
  have ho' : Ascending (older.filter fun e => keep e.1) := ho.filter _
  refine (ascending_shadow hn' ho').eq_of_mem_iff ((ascending_shadow hn ho).filter _) fun k e => ?_
  simp only [mem_shadow hn' ho', mem_shadow hn ho, List.mem_filter]
  cases keep k <;> simp

namespace Layers

def IsAscending (ls : Layers) : Prop := ∀ source ∈ ls, Ascending source

def merged (ls : Layers) : List (Bytes × Entry) := ls.foldr shadow []

variable {ls : Layers}

theorem IsAscending.merged (h : ls.IsAscending) : Ascending ls.merged := by
  induction ls with
  | nil => exact .nil
  | cons source rest ih =>
    exact ascending_shadow (h source List.mem_cons_self) (ih fun s hs => h s (List.mem_cons_of_mem _ hs))

theorem front?_eq (ls : Layers) : ls.front? = ls.merged.head? := by
  induction ls with
  | nil => rfl
  | cons source rest ih =>
    change _ = (shadow source (Layers.merged rest)).head?
    rw [front?, head?_shadow, ih]

/-- Every key of a source is a key of what is merged. -/
theorem IsAscending.exists_merged (h : ls.IsAscending) {source : List (Bytes × Entry)} (hs : source ∈ ls)
    {e : Bytes × Entry} (he : e ∈ source) : ∃ f, (e.1, f) ∈ ls.merged := by
  induction ls with
  | nil => cases hs
  | cons first rest ih =>
    have hrest : IsAscending rest := fun s hs => h s (List.mem_cons_of_mem _ hs)
    have hmem := mem_shadow (h first List.mem_cons_self) hrest.merged
    change ∃ f, (e.1, f) ∈ shadow first (Layers.merged rest)
    by_cases hfirst : ∃ f, (e.1, f) ∈ first
    · obtain ⟨f, hf⟩ := hfirst
      exact ⟨f, (hmem _ _).2 (.inl hf)⟩
    · rcases List.mem_cons.1 hs with rfl | hs
      · exact absurd ⟨e.2, he⟩ hfirst
      · obtain ⟨f, hf⟩ := ih hrest hs
        exact ⟨f, (hmem _ _).2 (.inr ⟨hf, fun g hg => hfirst ⟨g, hg⟩⟩)⟩

theorem IsAscending.past (h : ls.IsAscending) (k : Bytes) : (ls.past k).IsAscending := fun source hs => by
  obtain ⟨s, hin, rfl⟩ := List.mem_map.1 hs
  exact (h s hin).sublist (List.dropWhile_sublist _)

/-- Passing the least key takes it out of what is merged. -/
theorem IsAscending.merged_past (h : ls.IsAscending) {k : Bytes} (hk : ∀ source ∈ ls, ∀ e ∈ source, ¬ e.1 < k) :
    (ls.past k).merged = ls.merged.filter fun e => !decide (e.1 = k) := by
  induction ls with
  | nil => rfl
  | cons source rest ih =>
    have hrest : IsAscending rest := fun s hs => h s (List.mem_cons_of_mem _ hs)
    have hsource := h source List.mem_cons_self
    have hdrop := hsource.dropWhile_eq_filter (f := fun l => decide (l = k)) fun a ha b _ hab hb =>
      absurd (of_decide_eq_true hb ▸ hab) (hk source List.mem_cons_self a ha)
    change shadow (source.dropWhile fun e => decide (e.1 = k)) (Layers.merged (Layers.past rest k)) = _
    rw [hdrop, ih hrest fun s hs => hk s (List.mem_cons_of_mem _ hs)]
    exact shadow_filter hsource hrest.merged fun l => !decide (l = k)

/-- **A walk through all sources at once comes to what merging them two by two shows.** -/
theorem IsAscending.rows_eq_live (h : ls.IsAscending) : ls.rows = live ls.merged := by
  fun_induction rows ls with
  | case1 ls hfront =>
    rw [front?_eq, List.head?_eq_none_iff] at hfront
    rw [hfront]; rfl
  | case2 ls k e hfront ih =>
    rw [front?_eq] at hfront
    obtain ⟨tail, hmerged⟩ := List.head?_eq_some_iff.1 hfront
    have hasc := h.merged
    rw [hmerged] at hasc
    have hleast : ∀ source ∈ ls, ∀ f ∈ source, ¬ f.1 < k := fun source hs f hf hlt => by
      obtain ⟨g, hg⟩ := h.exists_merged hs hf
      rw [hmerged] at hg
      rcases List.mem_cons.1 hg with heq | hg
      · cases heq
        exact List.lt_irrefl _ hlt
      · exact List.lt_asymm hlt (Bytes.compare_eq_lt.1 (hasc.lt_of_cons (f.1, g) hg))
    have htail : (tail.filter fun f => !decide (f.1 = k)) = tail := List.filter_eq_self.2 fun f hf => by
      have hne := compare_ne_of_lt (hasc.lt_of_cons f hf)
      simp [Ne.symm hne]
    rw [ih (h.past k), h.merged_past hleast, hmerged, List.filter_cons_of_neg (by simp), htail, live, live,
      List.filterMap_cons]
    cases e <;> rfl

end Layers

/-! ## Reading a column -/

namespace ColumnState

/-- What the sources of a column hold from a key on. -/
def layersFrom (s : ColumnState) (start : Bytes) : Layers :=
  s.sources.map fun t => t.toList.dropWhile fun e => e.1 < start

/-- **What shows from a key on is what a walk through all sources comes to.** -/
theorem rows_layersFrom (s : ColumnState) (start : Bytes) :
    (s.layersFrom start).rows = s.visibleIn (.startingAt start) := by
  have hsources : s.layersFrom start =
      s.sources.map fun t => t.toList.filter fun e => (KeyRange.startingAt start).contains e.1 := by
    refine List.map_congr_left fun t _ => ?_
    rw [(Ascending.toList t).dropWhile_eq_filter (f := fun k => decide (k < start)) fun a _ b _ hab hb =>
      decide_eq_true (List.lt_trans hab (of_decide_eq_true hb))]
    simp only [KeyRange.contains_startingAt]
  have hasc : (s.layersFrom start).IsAscending := fun source hs => by
    obtain ⟨t, -, rfl⟩ := List.mem_map.1 hs
    exact (Ascending.toList t).sublist (List.dropWhile_sublist _)
  rw [hasc.rows_eq_live, hsources]
  rfl

/-- A range is walked from its start until it stops. -/
theorem visibleIn_eq_takeWhile (s : ColumnState) (r : KeyRange) :
    s.visibleIn r = (s.layersFrom r.start).rows.takeWhile fun p => r.beforeStop p.1 := by
  rw [rows_layersFrom, (s.ascending_visibleIn _).takeWhile_eq_filter KeyRange.beforeStop_of_lt, visibleIn_eq_scan,
    visibleIn_eq_scan, Table.scan_startingAt_filter]

end ColumnState

/-! ## Stores of segments -/

/-- What may happen to a store of segments: it grows, or takes a segment of any level as it is. -/
inductive Change where
  | grow (step : Growth)
  | ingest (c : Column) (level : Nat) (entries : List (Bytes × Entry))

namespace SegmentedStore

def change (s : SegmentedStore) : Change → SegmentedStore
  | .grow step => s.grow step
  | .ingest c level entries => s.ingest c level entries

/-- The store that some changes lead to. -/
def changed (changes : List Change) : SegmentedStore := changes.foldl change .empty

/-- What is listed is just what point reads answer. -/
structure Lists (s : SegmentedStore) (c : Column) (inside : Bytes → Prop) (pairs : List Pair) : Prop where
  ascending : pairs.Pairwise fun p q => p.1 < q.1
  mem : ∀ k v, (k, v) ∈ pairs ↔ inside k ∧ s.reader.get c k = .ok (some v)

/-- Scans of a store and walks of its snapshots tell what point reads do. -/
structure ScansAgree (s : SegmentedStore) : Prop where
  scan : ∀ c r, ∃ pairs, s.reader.scan c r .ascending = .ok pairs ∧ s.reader.scan c r .descending = .ok pairs.reverse ∧
    s.Lists c (r.contains · = true) pairs
  walk : ∀ c start, s.Lists c (¬ · < start) (s.snapshot.pairsFrom c start)
  /-- They go through all sources of a column at once, up to the end of the range. -/
  merged : ∀ c r, s.snapshot.pairsFrom c r.start = ((s.column c).layersFrom r.start).rows ∧
    s.scan c r = (s.snapshot.pairsFrom c r.start).takeWhile fun p => r.beforeStop p.1
  frozen : s.snapshot.reader = s.reader

/-- Nothing that is read of a store differs from what is read of another. -/
structure ReadsLike (s s' : SegmentedStore) : Prop where
  reader : s.reader = s'.reader
  snapshot : s.snapshot.reader = s'.snapshot.reader
  walk : ∀ c start, s.snapshot.pairsFrom c start = s'.snapshot.pairsFrom c start

variable {s s' : SegmentedStore}

theorem scan_lists (s : SegmentedStore) (c : Column) (r : KeyRange) : s.Lists c (r.contains · = true) (s.scan c r) where
  ascending := ((s.column c).ascending_visibleIn r).imp Bytes.compare_eq_lt.1
  mem k v := by
    rw [scan, ColumnState.mem_visibleIn, and_comm]
    exact and_congr_right fun _ => ⟨congrArg Except.ok, Except.ok.inj⟩

theorem scansAgree (s : SegmentedStore) : s.ScansAgree where
  scan c r := ⟨s.scan c r, rfl, rfl, s.scan_lists c r⟩
  walk c start := by
    have hlists := s.scan_lists c (.startingAt start)
    refine ⟨hlists.ascending, fun k v => (hlists.mem k v).trans (and_congr_left fun _ => ?_)⟩
    rw [KeyRange.contains_startingAt, Bool.not_eq_true', decide_eq_false_iff_not]
  merged c r := by
    have hwalk : s.snapshot.pairsFrom c r.start = ((s.column c).layersFrom r.start).rows :=
      ((s.column c).rows_layersFrom r.start).symm
    rw [hwalk]
    exact ⟨rfl, (s.column c).visibleIn_eq_takeWhile r⟩
  frozen := rfl

/-- Stores with the same contents read alike. -/
theorem readsLike_of_contents (h : s.contents = s'.contents) : s.ReadsLike s' := by
  have hreader : s.reader = s'.reader := by rw [reader_eq, reader_eq, h]
  refine ⟨hreader, hreader, fun c start => ?_⟩
  change (s.column c).visibleIn _ = (s'.column c).visibleIn _
  rw [ColumnState.visibleIn_eq_scan, ColumnState.visibleIn_eq_scan, table_eq, table_eq, h]

/-- **Point reads and scans agree.**  Whatever was written to a store of segments, however it was kept, and whatever
segments it took at whatever level, a scan of a range lists each key in it that has a value once, in order, with the
value that a point read answers, and so does a walk of a snapshot; and upkeep of any column changes nothing that is
read. -/
theorem changed_scansAgree (changes : List Change) :
    (changed changes).ScansAgree ∧ (changed changes).flush.ReadsLike (changed changes) ∧
      ∀ c per, ((changed changes).compact c per).ReadsLike (changed changes) :=
  ⟨scansAgree _, readsLike_of_contents (contents_flush _), fun c per => readsLike_of_contents (contents_compact _ c per)⟩

/-- Of two segments of one level that overlap the one with the smaller first key hides the other. -/
example : (changed [.ingest .tiles 2 [([2], some [1]), ([3], some [2])], .ingest .tiles 2 [([1], some [3]), ([3], none)],
    .grow (.write [.put .tiles [4] [4]])]).scan .tiles .all = [([1], [3]), ([2], [1]), ([4], [4])] := by
  cbv

end SegmentedStore
end TileAtlas
