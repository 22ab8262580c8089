import TileAtlas.Proofs.Pass.Reading
import TileAtlas.Proofs.Runs.Basic
import TileAtlas.Proofs.Store.Filling
import TileAtlas.Proofs.Update.Writes
/-!
# Elements can always be walked

The records of elements are put and never deleted: neither an update nor a pass takes anything out of their column
(`Update.applyIn_spares`, `Pass.orderly_recomputeReferences`, `Pass.orderly_rebuildTiles`).  So the column is only
filled, and wherever flushes and compactions fall in a run, no walk over all elements is ever refused for the
segments that it meets, and every pass comes to its end (`Atlas.tended_walks`).
-/
namespace TileAtlas

/-! ## Stores -/

namespace Store

/-- Freeze what is in memory; only a store of segments has anything there. -/
def flush : Store → Store
  | segmented s => segmented s.flush
  | flat s => flat s

/-- Lay a column out anew. -/
def compact (s : Store) (c : Column) (per : Nat) : Store :=
  match s with
  | segmented s => segmented (s.compact c per)
  | flat s => flat s

/-- Nothing was ever taken out of the column of elements; a flat store has it in one piece in any case, as long as
there are snapshots. -/
def IsOrderly : Store → Prop
  | segmented s => s.OnlyFilled .elements
  | flat s => s.shared = true

variable {s s' : Store}

/-- **The elements of such a store can be walked.** -/
theorem IsOrderly.isWalkable (h : s.IsOrderly) : s.IsWalkable := by
  cases s with
  | segmented s => exact SegmentedStore.OnlyFilled.classify_ok h
  | flat s => exact h

theorem IsOrderly.whole? (h : s.IsOrderly) {n : Snapshot} (hn : s.snapshot = .ok n) :
    ∃ p, Piece.whole? n .elements = .ok p := by
  obtain ⟨n', p, hn', hp⟩ := isWalkable_iff.1 h.isWalkable
  obtain rfl := Except.ok.inj (hn.symm.trans hn')
  exact ⟨p, hp⟩

theorem contents_flush (s : Store) : s.flush.contents = s.contents := by
  cases s with
  | segmented s => exact s.contents_flush
  | flat s => rfl

theorem contents_compact (s : Store) (c : Column) (per : Nat) : (s.compact c per).contents = s.contents := by
  cases s with
  | segmented s => exact s.contents_compact c per
  | flat s => rfl

theorem IsOrderly.flush (h : s.IsOrderly) : s.flush.IsOrderly := by
  cases s with
  | segmented s => exact SegmentedStore.OnlyFilled.flush h
  | flat s => exact h

theorem IsOrderly.compact (h : s.IsOrderly) (c : Column) (per : Nat) : (s.compact c per).IsOrderly := by
  cases s with
  | segmented s => exact SegmentedStore.OnlyFilled.compact h c per
  | flat s => exact h

theorem IsOrderly.write (h : s.IsOrderly) {b : Batch} (hb : ∀ op ∈ b, op.Spares .elements) (hs : s.write b = .ok s') :
    s'.IsOrderly := by
  cases s with
  | segmented s =>
    rw [Store.write] at hs
    cases hw : s.write b with
    | error e => rw [hw] at hs; cases hs
    | ok s₁ => rw [hw] at hs; cases hs; exact SegmentedStore.OnlyFilled.write h hb hw
  | flat s =>
    have hwalkable := (isWalkable_write hs).2 (IsOrderly.isWalkable h)
    rw [Store.write] at hs
    cases hw : s.write b with
    | error e => rw [hw] at hs; cases hs
    | ok s₁ => rw [hw] at hs; cases hs; exact hwalkable

theorem IsOrderly.commit (h : s.IsOrderly) {r : Reader} {t : Transaction}
    (ht : (Transaction.begin r).Adds (Op.Spares .elements) t) (hs : s.commit t = .ok s') : s'.IsOrderly := by
  obtain ⟨ops, hbatch, hops⟩ := ht
  rw [Store.commit] at hs
  split at hs
  · cases hs; exact h
  · exact h.write (fun op hop => hops op (by rwa [hbatch] at hop)) hs

end Store

/-! ## Updates -/

namespace Update

variable {config : IndexConfig} {t t' : Transaction}

theorem modifyOps_spares (l : ReferenceLayout) (old e : Element) : ∀ op ∈ modifyOps l old e, op.Spares .elements :=
  fun op hop => by
    rcases List.mem_append.1 hop with hop | hop
    · refine Op.spares_of_ne fun hc => ?_
      rcases List.mem_append.1 hop with hop | hop
      · obtain ⟨r, -, rfl⟩ := List.mem_map.1 hop
        rw [l.column_add] at hc; cases hc
      · obtain ⟨r, -, rfl⟩ := List.mem_map.1 hop
        rw [l.column_remove] at hc; cases hc
    · obtain rfl := List.mem_singleton.1 hop
      trivial

/-- A record is put, and a tombstone is a record too. -/
theorem entryOps_spares (l : ReferenceLayout) (id : ElementId) (delta : ElementDelta) (stored : Option Element)
    (kind : Operation) : ∀ op ∈ entryOps l id delta stored kind, op.Spares .elements := fun op hop => by
  cases kind with
  | create =>
    rw [entryOps] at hop
    cases he : delta.toElement with
    | error x => rw [he] at hop; cases hop
    | ok e =>
      rw [he] at hop
      rcases List.mem_cons.1 hop with rfl | hop
      · trivial
      · obtain ⟨r, -, rfl⟩ := List.mem_map.1 hop
        refine Op.spares_of_ne fun hc => ?_
        rw [l.column_add] at hc; cases hc
  | modify =>
    rw [entryOps] at hop
    cases stored with
    | none => cases hop
    | some old =>
      cases he : delta.toElement with
      | error x => rw [he] at hop; cases hop
      | ok e => rw [he] at hop; exact modifyOps_spares l old e op hop
  | delete =>
    rw [entryOps] at hop
    cases stored with
    | none => cases hop
    | some old =>
      rw [Option.elim_some, Indexed.deleteOps_eq] at hop
      exact modifyOps_spares l old _ op hop

theorem foldlM_step_adds {reached : Option Int64} : ∀ {entries : List ChangesetEntry} {p p' : Progress},
    entries.foldlM (Progress.step config reached) p = .ok p' →
    p.transaction.Adds (Op.Spares .elements) p'.transaction
  | [], p, p', h => by cases h; exact .refl _
  | entry :: entries, p, p', h => by
    rw [List.foldlM_cons] at h
    obtain ⟨p₁, h₁, h⟩ := exists_of_bind h
    refine Transaction.Adds.trans ?_ (foldlM_step_adds h)
    rw [Progress.step] at h₁
    split at h₁
    · cases h₁; exact .refl _
    · split at h₁
      · cases h₁
      · rename_i id t ht
        cases h₁
        obtain ⟨stored, -, -, hbatch⟩ := applyEntry_batch ht
        exact ⟨_, hbatch, entryOps_spares _ _ _ _ _⟩

/-- **An update takes nothing out of the column of elements.** -/
theorem applyIn_spares {c : Changeset} {report : UpdateReport} (h : applyIn config t c = .ok (report, t')) :
    t.Adds (Op.Spares .elements) t' := by
  obtain ⟨state, p, -, hp, hadds⟩ := applyIn_adds h
  have hentries : t.Adds (Op.Spares .elements) p.transaction := foldlM_step_adds hp
  exact hentries.trans (hadds.imp fun op hop => Op.spares_of_ne hop.1)

end Update

/-! ## Passes -/

theorem Piece.exists_of_mem_mapElements {α : Type} {p : Piece} {f : Element → Except IndexError α} {as : List α}
    (h : p.mapElements f = .ok as) {a : α} (ha : a ∈ as) : ∃ e, f e = .ok a := by
  obtain ⟨pair, -, hpair⟩ := (mem_mapM_iff h).1 ha
  obtain ⟨e, -, he⟩ := exists_of_bind hpair
  exact ⟨e, he⟩

namespace Pass

variable {α β : Type}

/-- No walk was refused. -/
def Unrefused (r : Except PassError α) : Prop := ∀ e, r ≠ .error (.scan e)

theorem unrefused_ok (a : α) : Unrefused (.ok a) := fun e h => by cases h

theorem unrefused_index (r : Except IndexError α) : Unrefused (r.mapError .index) := fun e h => by
  cases r <;> cases h

theorem Unrefused.bind {r : Except PassError α} {f : α → Except PassError β} (h : Unrefused r)
    (h' : ∀ a, r = .ok a → Unrefused (f a)) : Unrefused (r >>= f) := by
  cases r with
  | error e => exact fun x hx => h x (by cases hx; rfl)
  | ok a => exact h' a rfl

theorem unrefused_mapM {f : α → Except PassError β} (h : ∀ a, Unrefused (f a)) : ∀ l : List α, Unrefused (l.mapM f)
  | [] => unrefused_ok []
  | a :: l => by
    rw [List.mapM_cons]
    exact (h a).bind fun b _ => (unrefused_mapM h l).bind fun bs _ => unrefused_ok (b :: bs)

/-- A pass takes nothing out of the column of elements, and is not refused a walk where this was ever so. -/
structure Orderly (p : Pass α) : Prop where
  store : ∀ s, s.IsOrderly → ((ExceptT.run p).run s).2.IsOrderly
  result : ∀ s, s.IsOrderly → Unrefused ((ExceptT.run p).run s).1

theorem orderly_pure (a : α) : Orderly (pure a) := ⟨fun _ h => h, fun _ _ => unrefused_ok a⟩

theorem Orderly.bind {p : Pass α} {f : α → Pass β} (h : p.Orderly)
    (h' : ∀ s a s', s.IsOrderly → p.Does s a s' → (f a).Orderly) : (p >>= f).Orderly := by
  have hrun : ∀ s, s.IsOrderly → ((ExceptT.run (p >>= f)).run s).2.IsOrderly ∧
      Unrefused ((ExceptT.run (p >>= f)).run s).1 := fun s hs => by
    have hstore := h.store s hs
    have hresult := h.result s hs
    have hdoes := h' s
    unfold Does at hdoes
    rw [ExceptT.run_bind, StateT.run_bind]
    generalize (ExceptT.run p).run s = out at hstore hresult hdoes ⊢
    obtain ⟨e | a, s₁⟩ := out
    · exact ⟨hstore, fun x hx => hresult x (by cases hx; rfl)⟩
    · have hf := hdoes a s₁ hs rfl
      exact ⟨hf.store s₁ hstore, hf.result s₁ hstore⟩
  exact ⟨fun s hs => (hrun s hs).1, fun s hs => (hrun s hs).2⟩

theorem orderly_of {r : Except PassError α} (h : Unrefused r) : (of r).Orderly := ⟨fun _ hs => hs, fun _ _ => h⟩

theorem orderly_ofIndex (r : Except IndexError α) : (ofIndex r).Orderly := orderly_of (unrefused_index r)

theorem orderly_write {b : Batch} (hb : ∀ op ∈ b, op.Spares .elements) : (write b).Orderly := by
  have hrun : ∀ s, s.IsOrderly → ((ExceptT.run (write b)).run s).2.IsOrderly ∧
      Unrefused ((ExceptT.run (write b)).run s).1 := fun s hs => by
    rw [write, ExceptT.run_mk]
    simp only [StateT.run]
    split
    · rename_i s' hs'
      exact ⟨hs.write hb hs', unrefused_ok ()⟩
    · rename_i e he
      exact ⟨hs, unrefused_index (.error (.store e))⟩
  exact ⟨fun s hs => (hrun s hs).1, fun s hs => (hrun s hs).2⟩

theorem orderly_snapshot : snapshot.Orderly where
  store _ hs := hs
  result s _ e he := by
    change s.snapshot.mapError (fun e => PassError.index (.store e)) = _ at he
    cases hn : s.snapshot <;> rw [hn] at he <;> cases he

theorem orderly_elements {s : Store} (h : s.IsOrderly) {n : Snapshot} (hn : s.snapshot = .ok n) : (elements n).Orderly := by
  obtain ⟨p, hp⟩ := h.whole? hn
  rw [elements, hp]
  exact orderly_of (unrefused_ok p)

theorem orderly_each {work : Piece → Pass α} (h : ∀ q, (work q).Orderly) : ∀ pieces, (each work pieces).Orderly
  | [] => orderly_pure []
  | q :: pieces => by
    rw [each, List.mapM_cons]
    exact (h q).bind fun _ _ _ _ _ => (orderly_each h pieces).bind fun _ _ _ _ _ => orderly_pure _

/-! ### Every pass -/

/-- The references of a piece are written beside its elements. -/
theorem orderly_writeReferences (l : ReferenceLayout) (p : Piece) : (writeReferences l p).Orderly := by
  rw [writeReferences]
  refine (orderly_ofIndex _).bind fun _ found _ _ hfound => ?_
  refine (orderly_write fun op hop => ?_).bind fun _ _ _ _ _ => orderly_pure _
  obtain ⟨ops, hops, hop⟩ := List.mem_flatten.1 hop
  obtain ⟨e, he⟩ := Piece.exists_of_mem_mapElements hfound.ofIndex_eq.1 hops
  cases he
  refine Op.spares_of_ne fun hc => ?_
  rw [ReferenceLayout.column_referenceOps e op hop] at hc
  cases hc

theorem orderly_recomputeReferences (l : ReferenceLayout) (divide : Division) : (recomputeReferences l divide).Orderly := by
  rw [recomputeReferences]
  have hclear : ∀ op ∈ [Op.deleteRange .references .all], op.Spares .elements := fun op hop => by
    obtain rfl := List.mem_singleton.1 hop
    exact Op.spares_of_ne (by decide)
  refine (orderly_write hclear).bind fun _ _ _ _ _ => ?_
  refine orderly_snapshot.bind fun s n _ hs hn => ?_
  refine (orderly_elements hs hn.snapshot_eq.1).bind fun _ piece _ _ _ => ?_
  exact (orderly_each (orderly_writeReferences l) (divide piece)).bind fun _ _ _ _ _ => orderly_pure _

theorem spares_of_isPlacing {op : Op} (h : op.column.isPlacing = true) : op.Spares .elements :=
  Op.spares_of_ne (Update.isBeside_of_isPlacing h).1

/-- The elements of a piece are placed beside their records. -/
theorem orderly_placePiece (config : IndexConfig) (r : Reader) (p : Piece) : (placePiece config r p).Orderly := by
  rw [placePiece]
  refine (orderly_ofIndex _).bind fun _ placed _ _ hplaced => ?_
  refine (orderly_write fun op hop => ?_).bind fun _ _ _ _ _ => orderly_pure _
  obtain ⟨x, hx, hop⟩ := List.mem_flatMap.1 hop
  obtain ⟨e, he⟩ := Piece.exists_of_mem_mapElements hplaced.ofIndex_eq.1 hx
  obtain ⟨placement, -, hwrite⟩ := exists_of_bind he
  cases hwrite
  exact spares_of_isPlacing (Placement.places_write _ _ op hop).column

theorem orderly_rebuildTiles (config : IndexConfig) (divide : Division) : (rebuildTiles config divide).Orderly := by
  rw [rebuildTiles]
  refine orderly_snapshot.bind fun _ before _ _ _ => ?_
  refine (orderly_ofIndex _).bind fun _ old _ _ _ => ?_
  refine (orderly_write fun op hop => spares_of_isPlacing (column_clearTileOps old op hop)).bind fun _ _ _ _ _ => ?_
  refine orderly_snapshot.bind fun s now _ hs hnow => ?_
  refine (orderly_elements hs hnow.snapshot_eq.1).bind fun _ piece _ _ _ => ?_
  exact (orderly_each (orderly_placePiece config now.reader) (divide piece)).bind fun _ _ _ _ _ => orderly_pure _

theorem unrefused_verify {s : Store} (h : s.IsOrderly) {n : Snapshot} (hn : s.snapshot = .ok n) (config : IndexConfig)
    (divide : Division) : Unrefused (Verify.snapshot config divide n) := by
  obtain ⟨p, hp⟩ := h.whole? hn
  rw [Verify.snapshot, hp]
  refine (unrefused_index _).bind fun _ _ => ?_
  refine (unrefused_ok p).bind fun piece _ => ?_
  exact (unrefused_mapM (fun _ => unrefused_index _) (divide piece)).bind fun _ _ => unrefused_ok _

theorem unrefused_stats {s : Store} (h : s.IsOrderly) {n : Snapshot} (hn : s.snapshot = .ok n) :
    Unrefused (IndexStats.ofSnapshot n) := by
  obtain ⟨p, hp⟩ := h.whole? hn
  rw [IndexStats.ofSnapshot, hp]
  refine (unrefused_ok p).bind fun _ _ => ?_
  refine (unrefused_index _).bind fun _ _ => (unrefused_index _).bind fun _ _ => ?_
  exact (unrefused_index _).bind fun _ _ => (unrefused_index _).bind fun _ _ => unrefused_ok _

end Pass

/-! ## Runs -/

/-- What may be done with an index and with the store under it. -/
inductive Errand where
  | perform (action : Action)
  | flush
  | compact (c : Column) (per : Nat)

namespace Atlas

def tend (a : Atlas) : Errand → Atlas
  | .perform action => a.perform action
  | .flush => { a with store := a.store.flush }
  | .compact c per => { a with store := a.store.compact c per }

/-- The index that some errands lead to from an empty store of segments. -/
def tended (config : IndexConfig) (errands : List Errand) : Atlas := errands.foldl tend ⟨.segmented .empty, config⟩

/-- No walk over all elements is refused, in whatever way these are divided among workers. -/
structure Walks (a : Atlas) : Prop where
  recomputeReferences : ∀ divide,
    Pass.Unrefused ((Pass.recomputeReferences a.config.referenceLayout divide).runOn a).1
  rebuildTiles : ∀ divide, Pass.Unrefused ((Pass.rebuildTiles a.config divide).runOn a).1
  verify : ∀ divide n, a.store.snapshot = .ok n → Pass.Unrefused (Verify.snapshot a.config divide n)
  stats : Pass.Unrefused a.stats

/-- Every pass over all elements comes to its end if these are divided so that none is left out. -/
structure Completes (a : Atlas) : Prop where
  recomputeReferences : ∀ divide : FairDivision,
    ∃ n a', (Pass.recomputeReferences a.config.referenceLayout divide).runOn a = (.ok n, a')
  rebuildTiles : ∀ divide : FairDivision, ∃ r a', (Pass.rebuildTiles a.config divide).runOn a = (.ok r, a')
  verify : ∀ divide : FairDivision, ∃ n report, a.store.snapshot = .ok n ∧
    Verify.snapshot a.config divide n = .ok report
  stats : ∃ s, a.stats = .ok s

variable {a a' : Atlas} {config : IndexConfig} {l : Ledger}

theorem walks_of_isOrderly (h : a.store.IsOrderly) : a.Walks where
  recomputeReferences divide := (Pass.orderly_recomputeReferences _ divide).result _ h
  rebuildTiles divide := (Pass.orderly_rebuildTiles _ divide).result _ h
  verify divide n hn := Pass.unrefused_verify h hn a.config divide
  stats := by
    rw [stats]
    cases hn : a.store.snapshot with
    | error e => exact Pass.unrefused_index (.error (.store e))
    | ok n => exact Pass.unrefused_stats h hn

/-- **Passes over an index that tells a ledger come to their end** where they can walk its elements. -/
theorem Tells.completes (h : a.Tells config l) (hs : a.store.IsWalkable) : a.Completes := by
  obtain ⟨rfl, h⟩ := h
  obtain ⟨n, -, hn, -⟩ := Store.isWalkable_iff.1 hs
  refine ⟨fun divide => ?_, fun divide => ?_, fun divide => ?_, ?_⟩
  · obtain ⟨s', hdo, -⟩ := Pass.does_recomputeReferences hs h.indexed.readIn divide.2.complete
    exact ⟨_, _, hdo.runOn⟩
  · obtain ⟨old, hold⟩ := Pass.recordedTiles_ok h.placed (Store.snapshot_reads hn).2
    obtain ⟨s', hdo, -⟩ := Pass.does_rebuildTiles hs h.indexed.readIn hn hold divide.2.complete
    exact ⟨_, _, hdo.runOn⟩
  · obtain ⟨report, hreport⟩ := Verify.exists_report h hs hn divide.2.complete
    exact ⟨n, report, hn, hreport⟩
  · obtain ⟨counted, hcounted⟩ := IndexStats.exists_ofSnapshot h hs hn
    exact ⟨counted, by rw [stats, hn]; exact hcounted⟩

theorem isOrderly_commit (h : a.store.IsOrderly) {r : Reader} {t : Transaction}
    (ht : (Transaction.begin r).Adds (Op.Spares .elements) t) (ha : a.commit t = .ok a') : a'.store.IsOrderly := by
  rw [commit] at ha
  split at ha
  · rename_i store hstore
    cases ha
    exact h.commit ht hstore
  · cases ha

/-- **Whatever is done with an index takes nothing out of the column of elements.** -/
theorem isOrderly_perform (h : a.store.IsOrderly) (action : Action) : (a.perform action).store.IsOrderly := by
  cases action with
  | apply c =>
    rw [perform]
    cases ha : a.apply c with
    | error e => exact h
    | ok out =>
      obtain ⟨⟨report, t⟩, ht, ha⟩ := exists_of_bind ha
      obtain ⟨a', hcommit, ha⟩ := exists_of_bind ha
      cases ha
      exact isOrderly_commit h (Update.applyIn_spares ht) hcommit
  | reindexDirty =>
    rw [perform]
    cases ha : a.reindexDirty with
    | error e => exact h
    | ok out =>
      obtain ⟨pending, -, ha⟩ := exists_of_bind ha
      obtain ⟨⟨touched, t⟩, ht, ha⟩ := exists_of_bind ha
      obtain ⟨a', hcommit, ha⟩ := exists_of_bind ha
      cases ha
      exact isOrderly_commit h ((Update.reindexAll_adds ht).imp fun op hop => Op.spares_of_ne hop.1) hcommit
  | recomputeReferences divide => exact (Pass.orderly_recomputeReferences _ divide.1).store _ h
  | rebuildTiles divide => exact (Pass.orderly_rebuildTiles _ divide.1).store _ h

theorem isOrderly_tend (h : a.store.IsOrderly) (errand : Errand) : (a.tend errand).store.IsOrderly := by
  cases errand with
  | perform action => exact isOrderly_perform h action
  | flush => exact h.flush
  | compact c per => exact h.compact c per

/-- Upkeep does not change what an index tells. -/
theorem Tells.tend (h : a.Tells config l) (hs : a.store.IsWalkable) (errand : Errand) :
    ∃ l', (a.tend errand).Tells config l' := by
  cases errand with
  | perform action => exact ⟨_, (h.perform hs action).1⟩
  | flush =>
    refine ⟨l, h.config_eq, ?_⟩
    change l.StoredIn config a.store.flush.contents
    rw [Store.contents_flush]
    exact h.stored
  | compact c per =>
    refine ⟨l, h.config_eq, ?_⟩
    change l.StoredIn config (a.store.compact c per).contents
    rw [Store.contents_compact]
    exact h.stored

theorem Tells.foldl_tend : ∀ (errands : List Errand) {a : Atlas} {l : Ledger}, a.Tells config l → a.store.IsOrderly →
    (∃ l', (errands.foldl Atlas.tend a).Tells config l') ∧ (errands.foldl Atlas.tend a).store.IsOrderly
  | [], _, l, h, hs => ⟨⟨l, h⟩, hs⟩
  | errand :: errands, _, _, h, hs => by
    obtain ⟨l', h'⟩ := h.tend hs.isWalkable errand
    exact foldl_tend errands h' (isOrderly_tend hs errand)

/-- **Wherever upkeep falls in a run, every walk over all elements finds segments that make runs**, and every pass
comes to its end.  The segments of any column that only ever took values and merges make runs, too. -/
theorem tended_walks (config : IndexConfig) :
    (∀ errands, (tended config errands).Walks ∧ (tended config errands).Completes) ∧
    ∀ (c : Column) (events : List StoreEvent),
      (∀ b ∈ SegmentedStore.keeping.taken .empty events, ∀ op ∈ b, op.Spares c) →
      ∃ runs, SortedRun.classify c
        (((SegmentedStore.keeping.run .empty events).state.column c).segments.map (·.info)) = .ok runs := by
  refine ⟨fun errands => ?_, fun c events h => (SegmentedStore.run_onlyFilled h).classify_ok⟩
  obtain ⟨⟨l, htells⟩, hs⟩ :=
    (tells_start config .segmented).foldl_tend errands (SegmentedStore.onlyFilled_empty .elements)
  exact ⟨walks_of_isOrderly hs, htells.completes hs.isWalkable⟩

/-- A key is written again after a flush; a batch that would delete it is refused, and other columns come and go. -/
theorem tended_walks_rewritten :
    let events : List StoreEvent := [
      .write [.put .elements [1] [1], .put .elements [9] [1], .put .tiles [2] []], .flush,
      .write [.delete .elements [1], .merge .elements [1] []],
      .write [.deleteRange .tiles .all, .put .elements [1] [2]], .flush, .compact .elements 1,
      .write [.put .elements [5] [3]], .flush]
    let store := (SegmentedStore.keeping.run .empty events).state
    (SegmentedStore.keeping.taken .empty events).length = 3 ∧ (store.column .elements).segments.length = 3 ∧
      ∃ runs, SortedRun.classify .elements ((store.column .elements).segments.map (·.info)) = .ok runs := by
  intro events store
  have hspares : ∀ b ∈ SegmentedStore.keeping.taken .empty events, ∀ op ∈ b, op.Spares .elements := by decide +kernel
  exact ⟨by decide +kernel, by decide +kernel, (tended_walks {}).2 .elements events hspares⟩

end Atlas
end TileAtlas
