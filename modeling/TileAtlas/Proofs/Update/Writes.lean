import TileAtlas.Proofs.Update.Apply
/-!
# What an update writes

An update adds to the writes of its transaction and takes none back (`Transaction.Adds`).  The writes of an entry
follow from the entry and the record that it finds (`Update.entryOps`), so that the writes of all entries are known
from the records alone (`Records.ops`, `Update.foldlM_step_batch`).  Whatever is written after them is neither a
record nor a reference (`Update.applyIn_adds`), so that the columns of both are what the entries make of them
(`Atlas.apply_writes`).
-/
namespace TileAtlas

/-- A write beside the records and the references. -/
def Op.IsBeside (op : Op) : Prop := op.column ≠ .elements ∧ op.column ≠ .references

theorem Op.isBeside_of_column {op : Op} (c : Column) (h : op.column = c) (helements : c ≠ .elements)
    (hreferences : c ≠ .references) : op.IsBeside := by
  subst h
  exact ⟨helements, hreferences⟩

namespace Transaction

variable {P Q : Op → Prop} {t t₁ t' : Transaction}

/-- A transaction has gone on, by writes of some kind. -/
def Adds (P : Op → Prop) (t t' : Transaction) : Prop := ∃ ops, t'.batch = t.batch ++ ops ∧ ∀ op ∈ ops, P op

theorem Adds.refl (t : Transaction) : Adds P t t := ⟨[], (List.append_nil _).symm, nofun⟩

theorem Adds.trans (h : Adds P t t₁) (h' : Adds P t₁ t') : Adds P t t' := by
  obtain ⟨ops, hbatch, hops⟩ := h
  obtain ⟨ops', hbatch', hops'⟩ := h'
  refine ⟨ops ++ ops', by rw [hbatch', hbatch, List.append_assoc], fun op hop => ?_⟩
  exact (List.mem_append.1 hop).elim (hops op) (hops' op)

theorem Adds.imp (h : Adds P t t') (hPQ : ∀ op, P op → Q op) : Adds Q t t' := by
  obtain ⟨ops, hbatch, hops⟩ := h
  exact ⟨ops, hbatch, fun op hop => hPQ op (hops op hop)⟩

theorem batch_recordAll : ∀ {ops : List Op} {t t' : Transaction}, t.recordAll ops = .ok t' → t'.batch = t.batch ++ ops
  | [], t, t', h => by cases h; exact (List.append_nil _).symm
  | op :: ops, t, t', h => by
    rw [recordAll, List.foldlM_cons] at h
    obtain ⟨t₁, h₁, h⟩ := exists_of_bind h
    rw [batch_recordAll h, batch_record h₁, List.append_assoc, List.singleton_append]

end Transaction

/-! ## The same writes on other contents -/

namespace Contents

theorem get_applyOp_congr {s s' u u' : Contents} {op : Op} (hs : s.applyOp op = .ok s') (hu : u.applyOp op = .ok u')
    {c : Column} (h : ∀ k, u.get c k = s.get c k) (k : Bytes) : u'.get c k = s'.get c k := by
  by_cases hc : c = op.column
  · subst hc
    cases op with
    | put d l v =>
      cases hs; cases hu
      exact (get_put ..).trans (((by rw [h]) : _ = _).trans (get_put ..).symm)
    | delete d l =>
      cases hs; cases hu
      exact (get_erase ..).trans (((by rw [h]) : _ = _).trans (get_erase ..).symm)
    | deleteRange d r =>
      cases hs; cases hu
      exact (get_deleteRange ..).trans (((by rw [h]) : _ = _).trans (get_deleteRange ..).symm)
    | merge d l x =>
      have hl : u.get d l = s.get d l := h l
      cases hm : d.merge (s.get d l) x with
      | error e => rw [applyOp_merge_error hm] at hs; cases hs
      | ok v =>
        rw [applyOp_merge hm] at hs
        rw [applyOp_merge (hl ▸ hm)] at hu
        cases hs; cases hu
        exact (get_put ..).trans (((by rw [h]) : _ = _).trans (get_put ..).symm)
  · rw [get_applyOp_of_ne hs hc, get_applyOp_of_ne hu hc, h]

/-- **What writes make of a column depends on this column only.** -/
theorem get_apply_congr : ∀ {b : Batch} {s s' u u' : Contents}, s.apply b = .ok s' → u.apply b = .ok u' →
    ∀ {c : Column}, (∀ k, u.get c k = s.get c k) → ∀ k, u'.get c k = s'.get c k
  | [], s, s', u, u', hs, hu, c, h, k => by cases hs; cases hu; exact h k
  | op :: b, s, s', u, u', hs, hu, c, h, k => by
    rw [apply, List.foldlM_cons] at hs hu
    obtain ⟨s₁, hs₁, hs⟩ := exists_of_bind hs
    obtain ⟨u₁, hu₁, hu⟩ := exists_of_bind hu
    exact get_apply_congr hs hu (get_applyOp_congr hs₁ hu₁ h) k

end Contents

/-! ## Entries -/

namespace Update

/-- The writes of an entry that is accepted, where it finds a record or none. -/
def entryOps (l : ReferenceLayout) (id : ElementId) (delta : ElementDelta) (stored : Option Element) :
    Operation → List Op
  | .create => delta.toElement.toOption.elim [] (createOps l)
  | .modify => stored.elim [] fun old => delta.toElement.toOption.elim [] (modifyOps l old)
  | .delete => stored.elim [] fun old => deleteOps l old id delta.version

variable {config : IndexConfig} {t t' : Transaction} {id : ElementId} {delta : ElementDelta} {stored : Option Element}

theorem writing_batch {ops : List Op} (h : writing t ops = .ok t') : t'.batch = t.batch ++ ops :=
  Transaction.batch_recordAll (eq_ok_of_mapError h)

theorem writing_adds {P : Op → Prop} {ops : List Op} (h : writing t ops = .ok t') (hops : ∀ op ∈ ops, P op) :
    t.Adds P t' := ⟨ops, writing_batch h, hops⟩

theorem applyCreate_batch (h : applyCreate config t id delta stored = .ok t') :
    t'.batch = t.batch ++ entryOps config.referenceLayout id delta stored .create := by
  rw [applyCreate] at h
  by_cases hver : delta.version ≠ 1
  · rw [if_pos hver] at h; cases h
  · rw [if_neg hver] at h
    cases stored with
    | some _ => cases h
    | none =>
      obtain ⟨ids, -, h⟩ := exists_of_bind h
      cases ids with
      | cons referrer _ => cases h
      | nil =>
        obtain ⟨e, he, h⟩ := exists_of_bind h
        rw [writing_batch h, entryOps, eq_ok_of_mapError he]; rfl

theorem applyModify_batch (h : applyModify config t id delta stored = .ok t') :
    t'.batch = t.batch ++ entryOps config.referenceLayout id delta stored .modify := by
  unfold applyModify at h
  cases stored with
  | none => cases h
  | some old =>
    dsimp only at h
    split at h
    · cases h
    · obtain ⟨_, -, h⟩ := exists_of_bind h
      obtain ⟨_, -, h⟩ := exists_of_bind h
      obtain ⟨e, he, h⟩ := exists_of_bind h
      rw [writing_batch h, entryOps, eq_ok_of_mapError he]; rfl

theorem applyDelete_batch (h : applyDelete config t id delta stored = .ok t') :
    t'.batch = t.batch ++ entryOps config.referenceLayout id delta stored .delete := by
  unfold applyDelete at h
  cases stored with
  | none => cases h
  | some old =>
    dsimp only at h
    split at h
    · cases h
    · obtain ⟨_, -, h⟩ := exists_of_bind h
      split at h
      · cases h
      · obtain ⟨_, -, h⟩ := exists_of_bind h
        exact writing_batch h

/-- **An entry that is accepted makes the writes of its operation.** -/
theorem applyEntry_batch {entry : ChangesetEntry} (h : applyEntry config t entry = .ok (id, t')) :
    ∃ stored, Elements.get t.reader id = .ok stored ∧ entry.element.elementId = .ok id ∧
      t'.batch = t.batch ++ entryOps config.referenceLayout id entry.element stored entry.op := by
  rw [applyEntry] at h
  obtain ⟨x, hid, h⟩ := exists_of_bind h
  obtain ⟨stored, hstored, h⟩ := exists_of_bind h
  have key : ∀ {r : Except UpdateError Transaction}, (r >>= fun t => pure (x, t)) = .ok (id, t') → r = .ok t' ∧ x = id :=
    fun {r} hr => by
      obtain ⟨t₁, ht₁, hr⟩ := exists_of_bind hr
      cases hr
      exact ⟨ht₁, rfl⟩
  have hstored := eq_ok_of_mapError hstored
  have hid := eq_ok_of_mapError hid
  cases hop : entry.op with
  | create =>
    rw [hop] at h
    obtain ⟨ht, rfl⟩ := key h
    exact ⟨stored, hstored, hid, applyCreate_batch ht⟩
  | modify =>
    rw [hop] at h
    obtain ⟨ht, rfl⟩ := key h
    exact ⟨stored, hstored, hid, applyModify_batch ht⟩
  | delete =>
    rw [hop] at h
    obtain ⟨ht, rfl⟩ := key h
    exact ⟨stored, hstored, hid, applyDelete_batch ht⟩

end Update

namespace Records

/-- The writes of an entry, by the records. -/
def entryOps (l : ReferenceLayout) (records : Records) (entry : ChangesetEntry) : List Op :=
  entry.element.elementId.toOption.elim [] fun id =>
    Update.entryOps l id entry.element records[id]? entry.op

/-- The writes of some entries, one after another, up to the first that is refused. -/
def ops (l : ReferenceLayout) (strict : Bool) : Records → List ChangesetEntry → List Op
  | _, [] => []
  | records, entry :: entries =>
    match records.applyEntry strict entry with
    | .ok records' => records.entryOps l entry ++ ops l strict records' entries
    | .error _ => []

theorem ops_append {l : ReferenceLayout} {strict : Bool} {later : List ChangesetEntry} :
    ∀ {entries : List ChangesetEntry} {records records' : Records},
      entries.foldlM (Records.applyEntry strict) records = .ok records' →
      records.ops l strict (entries ++ later) = records.ops l strict entries ++ records'.ops l strict later
  | [], _, _, h => by cases h; rfl
  | entry :: entries, records, records', h => by
    rw [List.foldlM_cons] at h
    obtain ⟨records₁, h₁, h⟩ := exists_of_bind h
    rw [List.cons_append, ops, ops, h₁]
    dsimp only
    rw [ops_append h, List.append_assoc]

end Records

namespace Update

variable {base s : Contents} {records : Records} {config : IndexConfig}

/-- **The writes of all entries follow from the records.** -/
theorem foldlM_step_batch (reached : Option Int64) : ∀ {entries : List ChangesetEntry} {p p' : Progress}
    {records : Records} {s : Contents}, p.At config base records s → (∀ entry ∈ entries, entry.IsStorable) →
    entries.foldlM (Progress.step config reached) p = .ok p' →
    p'.transaction.batch = p.transaction.batch ++ records.ops config.referenceLayout config.strictModify
      (entries.filter fun e => !ChangesetEntry.isStale reached e)
  | [], p, p', records, s, _, _, h => by cases h; exact (List.append_nil _).symm
  | entry :: entries, p, p', records, s, hat, hs, h => by
    have hs' : ∀ x ∈ entries, x.IsStorable := fun x hx => hs x (List.mem_cons_of_mem _ hx)
    rw [List.foldlM_cons] at h
    obtain ⟨p₁, h₁, h⟩ := exists_of_bind h
    rw [Progress.step] at h₁
    cases hstale : ChangesetEntry.isStale reached entry with
    | true =>
      rw [hstale, if_pos rfl] at h₁
      cases h₁
      rw [List.filter_cons_of_neg (by simp [hstale])]
      exact (foldlM_step_batch reached (Progress.Leads.stale hat hstale).at' hs' h :)
    | false =>
      rw [hstale, if_neg Bool.false_ne_true] at h₁
      split at h₁
      · cases h₁
      · rename_i id t₁ ht₁
        cases h₁
        have hspec := applyEntry_spec hat.isOver hat.indexed (hs entry List.mem_cons_self)
        obtain ⟨stored, hstored, hid, hbatch⟩ := applyEntry_batch ht₁
        rw [hat.isOver.reader, hat.indexed.readIn.elements_get] at hstored
        cases hstored
        rw [List.filter_cons_of_pos (by simp [hstale]), Records.ops]
        cases hrec : records.applyEntry config.strictModify entry with
        | error e =>
          rw [hrec] at hspec
          cases ht₁.symm.trans hspec
        | ok records₁ =>
          rw [hrec] at hspec
          obtain ⟨id', t', s₁, -, ht', hent⟩ := hspec
          cases ht₁.symm.trans ht'
          have hlead := Progress.Leads.entry (p := p) hstale hrec hid hent
          rw [foldlM_step_batch reached hlead.at' hs' h, hbatch, List.append_assoc, Records.entryOps, hid]
          rfl

/-! ## What follows the entries -/

theorem isBeside_of_isPlacing {op : Op} (h : op.column.isPlacing = true) : op.IsBeside :=
  ⟨fun hc => (by rw [hc] at h; cases h), fun hc => by rw [hc] at h; cases h⟩

variable {t t' : Transaction}

theorem reindex_adds {id : ElementId} {tiles : TileSet} (h : reindex config t id = .ok (tiles, t')) :
    t.Adds Op.IsBeside t' := by
  rw [reindex] at h
  obtain ⟨before, -, h⟩ := exists_of_bind h
  obtain ⟨record, -, h⟩ := exists_of_bind h
  have hplaces : ∀ placement, ∀ op ∈ Placement.clear id before ++ Placement.write id placement, op.IsBeside :=
    fun placement op hop => isBeside_of_isPlacing <| (List.mem_append.1 hop).elim
      (fun h => (Placement.places_clear _ _ op h).column) fun h => (Placement.places_write _ _ op h).column
  cases record with
  | none =>
    obtain ⟨placement, -, h⟩ := exists_of_bind h
    obtain ⟨t₁, ht₁, h⟩ := exists_of_bind h
    cases h
    exact writing_adds ht₁ (hplaces placement)
  | some e =>
    obtain ⟨placement, -, h⟩ := exists_of_bind h
    obtain ⟨t₁, ht₁, h⟩ := exists_of_bind h
    cases h
    exact writing_adds ht₁ (hplaces placement)

theorem reindexAll_adds : ∀ {ids : List ElementId} {t t' : Transaction} {touched touched' : TileSet},
    reindexAll config ids (touched, t) = .ok (touched', t') → t.Adds Op.IsBeside t'
  | [], t, t', _, _, h => by cases h; exact .refl t
  | id :: ids, t, t', _, _, h => by
    rw [reindexAll] at h
    obtain ⟨⟨tiles, t₁⟩, ht₁, h⟩ := exists_of_bind h
    obtain ⟨t₂, ht₂, h⟩ := exists_of_bind h
    have hunmark : t₁.Adds Op.IsBeside t₂ := writing_adds ht₂ fun op hop => by
      obtain rfl := List.mem_singleton.1 hop
      exact Op.isBeside_of_column .dirtyElements rfl (by decide) (by decide)
    exact ((reindex_adds ht₁).trans hunmark).trans (reindexAll_adds h)

theorem isBeside_replicationOps (state : ReplicationState) (c : Changeset) :
    ∀ op ∈ replicationOps state c, op.IsBeside := fun op hop => by
  rcases List.mem_append.1 hop with hop | hop
  · obtain ⟨n, -, rfl⟩ := Option.map_eq_some_iff.1 (Option.mem_toList.1 hop)
    exact Op.isBeside_of_column .properties rfl (by decide) (by decide)
  · split at hop
    · cases hop
    · split at hop
      · obtain rfl := List.mem_singleton.1 hop
        exact Op.isBeside_of_column .properties rfl (by decide) (by decide)
      · cases hop

/-- **After its entries an update writes neither records nor references.** -/
theorem applyIn_adds {c : Changeset} {report : UpdateReport} (h : applyIn config t c = .ok (report, t')) :
    ∃ state p, ReplicationState.read t.reader = .ok state ∧
      c.entries.foldlM (Progress.step config state.timestamp)
        { transaction := t, report := { sequence := c.sequence } } = .ok p ∧
      p.transaction.Adds Op.IsBeside t' := by
  rw [applyIn] at h
  obtain ⟨state, hstate, h⟩ := exists_of_bind h
  obtain ⟨_, -, h⟩ := exists_of_bind h
  obtain ⟨p, hp, h⟩ := exists_of_bind h
  obtain ⟨dirty, -, h⟩ := exists_of_bind h
  obtain ⟨t₁, ht₁, h⟩ := exists_of_bind h
  obtain ⟨⟨touched, t₂⟩, ht₂, h⟩ := exists_of_bind h
  obtain ⟨t₃, ht₃, h⟩ := exists_of_bind h
  cases h
  have hmarks : p.transaction.Adds Op.IsBeside t₁ := writing_adds ht₁ fun op hop => by
    obtain ⟨id, -, rfl⟩ := List.mem_map.1 hop
    exact Op.isBeside_of_column .dirtyElements rfl (by decide) (by decide)
  exact ⟨state, p, eq_ok_of_mapError hstate, hp,
    (hmarks.trans (reindexAll_adds ht₂)).trans (writing_adds ht₃ (isBeside_replicationOps state c))⟩

end Update

/-- **Records and references are what the entries that were due make of them.** -/
theorem Atlas.apply_writes {a a' : Atlas} {l : Ledger} (h : l.StoredIn a.config a.store.contents) {c : Changeset}
    (hs : c.IsStorable) {report : UpdateReport} (ha : a.apply c = .ok (report, a')) :
    ∃ s, a.store.contents.apply (l.records.ops a.config.referenceLayout a.config.strictModify (l.due c)) = .ok s ∧
      ∀ {d : Column}, d = .elements ∨ d = .references → ∀ k, a'.store.contents.get d k = s.get d k := by
  rw [apply, a.store.reader_eq] at ha
  obtain ⟨⟨_, t⟩, ht, ha⟩ := exists_of_bind ha
  obtain ⟨_, hcommit, ha⟩ := exists_of_bind ha
  cases ha
  have hover := Transaction.Over.begin a.store.contents
  obtain ⟨state, p, hstate, hp, ops, hbatch, hops⟩ := Update.applyIn_adds ht
  rw [hover.reader, h.replication.read] at hstate
  cases hstate
  have hstart : Update.Progress.At a.config a.store.contents
      { transaction := .begin a.store.contents.reader, report := { sequence := c.sequence } } l.records
      a.store.contents := ⟨hover, h.indexed⟩
  have hwrites := Update.foldlM_step_batch l.replication.timestamp hstart hs hp
  have hfold := Update.foldlM_step l.replication.timestamp hstart hs
  split at hfold
  · obtain ⟨p', s, hp', hlead⟩ := hfold
    cases hp.symm.trans hp'
    have hreplay := hlead.at'.isOver.replay
    have hcontents := a.store.contents_commit t
    rw [hbatch, Contents.apply_append hreplay] at hcontents
    rw [commit] at hcommit
    split at hcommit
    · rename_i store hstore
      cases hcommit
      rw [hstore] at hcontents
      rw [hwrites] at hreplay
      refine ⟨s, hreplay, fun hd k => Contents.get_apply_of_ne hcontents.symm (fun op hop heq => ?_) k⟩
      exact hd.elim (fun hd => (hops op hop).1 (heq.symm.trans hd)) fun hd => (hops op hop).2 (heq.symm.trans hd)
    · cases hcommit
  · rw [hfold] at hp
    cases hp

end TileAtlas
