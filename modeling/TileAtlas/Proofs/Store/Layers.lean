import TileAtlas.Proofs.Store.Contents
import TileAtlas.Store.Segmented
/-!
# A store of segments is a sorted table for each column

Sources of entries lie in layers, the newest on top, and the first that knows a key answers for it.
Merging the layers lists exactly the keys that are so answered with a value (`mem_visibleIn`), whatever
the layers hold.  A column therefore is a table (`ColumnState.table`), and each write makes of that table
what the plain meaning of the write says (`SegmentedStore.contents_applyOp`).
-/
namespace TileAtlas

/-! ## Laying entries over entries -/

theorem compare_ne_of_lt {k l : Bytes} (h : compare k l = .lt) : k ≠ l := fun heq => by
  subst heq; exact compare_irrefl k h

theorem mem_shadow : ∀ {newer older : List (Bytes × Entry)}, Ascending newer → Ascending older →
    ∀ (k : Bytes) (e : Entry), (k, e) ∈ shadow newer older ↔ (k, e) ∈ newer ∨ ((k, e) ∈ older ∧ ∀ f, (k, f) ∉ newer) := by
  intro newer older
  fun_induction shadow newer older with
  | case1 older => intro _ _ k e; simp
  | case2 newer => intro _ _ k e; simp
  | case3 k₀ e₀ newer l f older hlt ih =>
    intro hn ho k e
    have habove : ∀ g, (k, g) ∈ (l, f) :: older → k ≠ k₀ := fun g hg => by
      rcases List.mem_cons.1 hg with heq | hg
      · cases heq; exact (compare_ne_of_lt hlt).symm
      · exact (compare_ne_of_lt (Std.TransCmp.lt_trans hlt (ho.lt_of_cons _ hg))).symm
    rw [List.mem_cons, ih hn.tail ho, List.mem_cons (a := (k, e)) (b := (k₀, e₀))]
    constructor
    · rintro (heq | h | ⟨h, hno⟩)
      · exact .inl (.inl heq)
      · exact .inl (.inr h)
      · refine .inr ⟨h, fun g hg => ?_⟩
        rcases List.mem_cons.1 hg with heq | hg
        · cases heq; exact habove _ h rfl
        · exact hno g hg
    · rintro ((heq | h) | ⟨h, hno⟩)
      · exact .inl heq
      · exact .inr (.inl h)
      · exact .inr (.inr ⟨h, fun g hg => hno g (List.mem_cons_of_mem _ hg)⟩)
  | case4 k₀ e₀ newer l f older heq ih =>
    intro hn ho k e
    obtain rfl : k₀ = l := Std.LawfulEqOrd.eq_of_compare heq
    rw [List.mem_cons, ih hn.tail ho.tail, List.mem_cons (a := (k, e)) (b := (k₀, e₀)),
      List.mem_cons (a := (k, e)) (b := (k₀, f))]
    constructor
    · rintro (heq | h | ⟨h, hno⟩)
      · exact .inl (.inl heq)
      · exact .inl (.inr h)
      · refine .inr ⟨.inr h, fun g hg => ?_⟩
        rcases List.mem_cons.1 hg with heq | hg
        · cases heq; exact compare_irrefl _ (ho.lt_of_cons (k₀, e) h)
        · exact hno g hg
    · rintro ((heq | h) | ⟨heq | h, hno⟩)
      · exact .inl heq
      · exact .inr (.inl h)
      · cases heq; exact absurd List.mem_cons_self (hno e₀)
      · exact .inr (.inr ⟨h, fun g hg => hno g (List.mem_cons_of_mem _ hg)⟩)
  | case5 k₀ e₀ newer l f older hgt ih =>
    intro hn ho k e
    have hlt : compare l k₀ = .lt := by rw [@Std.OrientedCmp.eq_swap _ compare, hgt]; rfl
    rw [List.mem_cons, ih hn ho.tail, List.mem_cons (a := (k, e)) (b := (l, f))]
    constructor
    · rintro (heq | h | ⟨h, hno⟩)
      · cases heq
        refine .inr ⟨.inl rfl, fun g hg => ?_⟩
        rcases List.mem_cons.1 hg with heq | hg
        · cases heq; exact compare_irrefl _ hlt
        · exact compare_irrefl _ (Std.TransCmp.lt_trans hlt (hn.lt_of_cons _ hg))
      · exact .inl h
      · exact .inr ⟨.inr h, hno⟩
    · rintro (h | ⟨heq | h, hno⟩)
      · exact .inr (.inl h)
      · exact .inl heq
      · exact .inr (.inr ⟨h, hno⟩)

theorem ascending_shadow : ∀ {newer older : List (Bytes × Entry)}, Ascending newer → Ascending older →
    Ascending (shadow newer older) := by
  intro newer older
  fun_induction shadow newer older with
  | case1 older => exact fun _ ho => ho
  | case2 newer => exact fun hn _ => hn
  | case3 k₀ e₀ newer l f older hlt ih =>
    intro hn ho
    refine List.Pairwise.cons (fun x hx => ?_) (ih hn.tail ho)
    rcases (mem_shadow hn.tail ho x.1 x.2).1 hx with hx | ⟨hx, -⟩
    · exact hn.lt_of_cons _ hx
    · rcases List.mem_cons.1 hx with heq | hx
      · cases x; cases heq; exact hlt
      · exact Std.TransCmp.lt_trans hlt (ho.lt_of_cons _ hx)
  | case4 k₀ e₀ newer l f older heq ih =>
    intro hn ho
    obtain rfl : k₀ = l := Std.LawfulEqOrd.eq_of_compare heq
    refine List.Pairwise.cons (fun x hx => ?_) (ih hn.tail ho.tail)
    rcases (mem_shadow hn.tail ho.tail x.1 x.2).1 hx with hx | ⟨hx, -⟩
    · exact hn.lt_of_cons _ hx
    · exact ho.lt_of_cons _ hx
  | case5 k₀ e₀ newer l f older hgt ih =>
    intro hn ho
    have hlt : compare l k₀ = .lt := by rw [@Std.OrientedCmp.eq_swap _ compare, hgt]; rfl
    refine List.Pairwise.cons (fun x hx => ?_) (ih hn ho.tail)
    rcases (mem_shadow hn ho.tail x.1 x.2).1 hx with hx | ⟨hx, -⟩
    · rcases List.mem_cons.1 hx with heq | hx
      · cases x; cases heq; exact hlt
      · exact Std.TransCmp.lt_trans hlt (hn.lt_of_cons _ hx)
    · exact ho.lt_of_cons _ hx

theorem mem_live {es : List (Bytes × Entry)} {k v : Bytes} : (k, v) ∈ live es ↔ (k, some v) ∈ es := by
  simp only [live, List.mem_filterMap, Option.map_eq_some_iff, Prod.mk.injEq]
  constructor
  · rintro ⟨⟨k', e⟩, hmem, v', he, rfl, rfl⟩
    exact (show e = some v' from he) ▸ hmem
  · exact fun h => ⟨_, h, v, rfl, rfl, rfl⟩

theorem ascending_live {es : List (Bytes × Entry)} (h : Ascending es) : Ascending (live es) := by
  refine List.Pairwise.filterMap _ (fun x y hxy p hp q hq => ?_) h
  rw [Option.map_eq_some_iff] at hp hq
  obtain ⟨v, -, rfl⟩ := hp
  obtain ⟨w, -, rfl⟩ := hq
  exact hxy

/-! ## Layers -/

/-- The entries of some layers within a range, merged; the first layer is the newest. -/
def layersIn (ts : List EntryTable) (r : KeyRange) : List (Bytes × Entry) :=
  (ts.map fun t => t.toList.filter fun e => r.contains e.1).foldr shadow []

theorem ascending_layersIn : ∀ (ts : List EntryTable) (r : KeyRange), Ascending (layersIn ts r)
  | [], _ => List.Pairwise.nil
  | t :: ts, r => ascending_shadow ((Ascending.toList t).filter _) (ascending_layersIn ts r)

/-- **Merged layers answer like the first layer that knows the key.** -/
theorem mem_layersIn : ∀ (ts : List EntryTable) (r : KeyRange) (k : Bytes) (e : Entry),
    (k, e) ∈ layersIn ts r ↔ ts.findSome? (·[k]?) = some e ∧ r.contains k = true
  | [], r, k, e => by simp [layersIn]
  | t :: ts, r, k, e => by
    have hsplit : layersIn (t :: ts) r = shadow (t.toList.filter fun e => r.contains e.1) (layersIn ts r) := rfl
    have hmem : ∀ f, (k, f) ∈ t.toList.filter (fun e => r.contains e.1) ↔
        t[k]? = some f ∧ r.contains k = true := fun f => by
      rw [List.mem_filter, Std.ExtTreeMap.mem_toList_iff_getElem?_eq_some]
    rw [hsplit, mem_shadow ((Ascending.toList t).filter _) (ascending_layersIn ts r), mem_layersIn ts r k e, hmem,
      List.findSome?_cons]
    simp only [hmem]
    cases hk : t[k]? with
    | none => simp
    | some f =>
      simp only [Option.some.injEq]
      constructor
      · rintro (h | ⟨⟨-, hr⟩, hno⟩)
        · exact h
        · exact absurd ⟨rfl, hr⟩ (hno f)
      · exact .inl

namespace ColumnState

theorem visibleIn_eq_live (s : ColumnState) (r : KeyRange) : s.visibleIn r = live (layersIn s.sources r) := rfl

theorem ascending_visibleIn (s : ColumnState) (r : KeyRange) : Ascending (s.visibleIn r) :=
  ascending_live (ascending_layersIn _ _)

theorem mem_visibleIn {s : ColumnState} {r : KeyRange} {k v : Bytes} :
    (k, v) ∈ s.visibleIn r ↔ s.get k = some v ∧ r.contains k = true := by
  rw [visibleIn_eq_live, mem_live, mem_layersIn, get, Option.join_eq_some_iff]

/-- The pairs of a column, as a table. -/
def table (s : ColumnState) : Table := .ofList (s.visibleIn .all)

theorem getElem?_table (s : ColumnState) (k : Bytes) : s.table[k]? = s.get k := by
  refine Option.ext fun v => ?_
  rw [table, (s.ascending_visibleIn _).getElem?_ofList, mem_visibleIn]
  simp

theorem visibleIn_eq_scan (s : ColumnState) (r : KeyRange) : s.visibleIn r = s.table.scan r :=
  Table.eq_scan (s.ascending_visibleIn r) fun k v => by rw [mem_visibleIn, getElem?_table]

/-! ## Remembering entries -/

theorem get_remember (s : ColumnState) (k l : Bytes) (e : Entry) :
    (s.remember k e).get l = if l = k then e else s.get l := by
  have hsources : (s.remember k e).sources = s.memory.insert k e :: s.sources.tail := rfl
  have hown : s.sources = s.memory :: s.sources.tail := rfl
  rw [get, get, hsources, hown, List.findSome?_cons, List.findSome?_cons, Std.ExtTreeMap.getElem?_insert]
  by_cases hl : l = k
  · subst hl; simp
  · simp [hl, Ne.symm hl]

theorem get_foldl_forget : ∀ (ps : List Pair) (s : ColumnState) (l : Bytes),
    (ps.foldl (fun st p => st.remember p.1 none) s).get l = if l ∈ ps.map Prod.fst then none else s.get l
  | [], s, l => by simp
  | p :: ps, s, l => by
    rw [List.foldl_cons, get_foldl_forget ps, get_remember]
    by_cases h : l ∈ ps.map Prod.fst
    · simp [h]
    · by_cases hl : l = p.1 <;> simp [h, hl]

@[simp] theorem get_noteWrite (s : ColumnState) (n : Nat) (k : Bytes) : (s.noteWrite n).get k = s.get k := rfl

@[simp] theorem table_noteWrite (s : ColumnState) (n : Nat) : (s.noteWrite n).table = s.table := rfl

theorem table_remember_some (s : ColumnState) (k v : Bytes) : (s.remember k (some v)).table = s.table.insert k v :=
  Std.ExtTreeMap.ext_getElem? fun {l} => by
    rw [getElem?_table, get_remember, Std.ExtTreeMap.getElem?_insert, getElem?_table]
    by_cases hl : l = k
    · subst hl; simp
    · simp [hl, Ne.symm hl]

theorem table_remember_none (s : ColumnState) (k : Bytes) : (s.remember k none).table = s.table.erase k :=
  Std.ExtTreeMap.ext_getElem? fun {l} => by
    rw [getElem?_table, get_remember, Std.ExtTreeMap.getElem?_erase, getElem?_table]
    by_cases hl : l = k
    · subst hl; simp
    · simp [hl, Ne.symm hl]

/-- Markers over the keys that show in a range leave what a range deletion leaves. -/
theorem table_forget (s : ColumnState) (r : KeyRange) :
    ((s.visibleIn r).foldl (fun st p => st.remember p.1 none) s).table = s.table.deleteRange r :=
  Std.ExtTreeMap.ext_getElem? fun {l} => by
    rw [getElem?_table, get_foldl_forget, Table.getElem?_deleteRange, getElem?_table]
    by_cases hr : r.contains l = true
    · rw [if_pos hr]
      split
      · rfl
      · rename_i hno
        refine Option.eq_none_iff_forall_ne_some.2 fun v hv => hno ?_
        exact List.mem_map.2 ⟨(l, v), mem_visibleIn.2 ⟨hv, hr⟩, rfl⟩
    · rw [if_neg hr, if_neg]
      intro hmem
      obtain ⟨⟨k, v⟩, hkv, rfl⟩ := List.mem_map.1 hmem
      exact hr (mem_visibleIn.1 hkv).2

end ColumnState

/-! ## The contents of a store -/

/-- One value for each column, by the column. -/
def Columns.ofFn {α : Type} (f : Column → α) : Columns α :=
  ⟨f .elements, f .references, f .tiles, f .tileCounts, f .elementTiles, f .external, f .dirtyTiles, f .dirtyElements,
    f .properties⟩

@[simp] theorem Columns.get_ofFn {α : Type} (f : Column → α) (c : Column) : (Columns.ofFn f).get c = f c := by
  cases c <;> rfl

namespace SegmentedStore

/-- What shows of a store, as a table for each column. -/
def contents (s : SegmentedStore) : Contents := .ofFn fun c => (s.column c).table

theorem get_contents (s : SegmentedStore) (c : Column) (k : Bytes) : s.contents.get c k = s.get c k := by
  rw [Contents.get, contents, Columns.get_ofFn, ColumnState.getElem?_table]; rfl

theorem reader_eq (s : SegmentedStore) : s.reader = s.contents.reader :=
  Reader.eq_contents (fun c k => by rw [get_contents]; rfl) fun c r o => by
    rw [contents, Columns.get_ofFn, ← ColumnState.visibleIn_eq_scan]; rfl

theorem contents_empty : empty.contents = Contents.empty :=
  Contents.ext_get fun c k => by
    rw [get_contents, Contents.get_empty]
    show (((SegmentedStore.empty.columns.get c).getD {}).get k) = none
    rw [SegmentedStore.empty, Columns.get_const]
    simp [ColumnState.get, ColumnState.sources, ColumnState.deeper, Std.ExtTreeMap.toList_eq_nil_iff.2]

theorem contents_setColumn (s : SegmentedStore) (c : Column) (st : ColumnState) :
    (s.setColumn c st).contents = s.contents.set c st.table :=
  Columns.ext_get fun d => by
    rw [contents, Columns.get_ofFn, column, setColumn, Columns.get_set, Columns.get_set]
    by_cases hd : d = c
    · simp [hd]
    · simp only [if_neg hd, contents, Columns.get_ofFn]; rfl

theorem table_eq (s : SegmentedStore) (c : Column) : (s.column c).table = Columns.get s.contents c := by
  rw [contents, Columns.get_ofFn]

/-- **A write does to the contents what it means.** -/
theorem contents_applyOp (s : SegmentedStore) (op : Op) :
    (s.applyOp op).map contents = s.contents.applyOp op := by
  cases op with
  | put c k v =>
    simp only [applyOp, Op.column, Except.map, contents_setColumn, ColumnState.table_remember_some,
      ColumnState.table_noteWrite, table_eq]
    rfl
  | delete c k =>
    simp only [applyOp, Op.column, Except.map, contents_setColumn, ColumnState.table_remember_none,
      ColumnState.table_noteWrite, table_eq]
    rfl
  | deleteRange c r =>
    simp only [applyOp, Op.column, Except.map, contents_setColumn, ColumnState.table_forget,
      ColumnState.table_noteWrite, table_eq]
    rfl
  | merge c k d =>
    have hget : (s.column c).get k = s.contents.get c k := (get_contents s c k).symm
    simp only [applyOp, Op.column, Contents.applyOp, ColumnState.get_noteWrite, hget]
    cases c.merge (s.contents.get c k) d with
    | error e => rfl
    | ok v =>
      simp only [Except.map, contents_setColumn, ColumnState.table_remember_some, ColumnState.table_noteWrite, table_eq]
      rfl

theorem contents_write : ∀ (b : Batch) (s : SegmentedStore), (s.write b).map contents = s.contents.apply b
  | [], s => rfl
  | op :: b, s => by
    have h := contents_applyOp s op
    cases h₁ : s.applyOp op with
    | error e =>
      rw [h₁] at h
      rw [Contents.apply_cons_error h.symm, write, List.foldlM_cons, h₁]; rfl
    | ok s₁ =>
      rw [h₁] at h
      rw [Contents.apply_cons h.symm, ← contents_write b s₁, write, List.foldlM_cons, h₁]; rfl

end SegmentedStore
end TileAtlas
