import TileAtlas.Proofs.Update.Closure
import TileAtlas.Proofs.Update.Placing
/-!
# A changeset does to an index what it does to the plain model

An index that tells a ledger (`Ledger.StoredIn`) holds its records, the links between them, the
placement of each of them, and how far it has come.  A changeset folds its entries over the records;
then everything that depends on a changed element is placed anew, and what does not depend on one has
the placement that it had.  So the index tells the new ledger, or the changeset is refused with the error
of the plain model (`Update.applyIn_spec`, `Atlas.apply_spec`).
-/
namespace TileAtlas

/-- The contents of an index tell a ledger, and nothing else. -/
structure Ledger.StoredIn (config : IndexConfig) (l : Ledger) (s : Contents) : Prop where
  indexed : Indexed config.referenceLayout l.records s
  placed : Placements.StoredIn (config.placeAt l.records) s
  clean : ∀ k, s.get .dirtyElements k = none
  replication : l.replication.StoredIn s

/-- How many entries of a kind were applied. -/
def UpdateReport.number (r : UpdateReport) : Operation → Nat
  | .create => r.created
  | .modify => r.modified
  | .delete => r.deleted

theorem UpdateReport.number_count (r : UpdateReport) (op op' : Operation) :
    (r.count op).number op' = r.number op' + if op = op' then 1 else 0 := by
  cases op <;> cases op' <;> rfl

namespace Update

variable {base s : Contents} {t : Transaction} {records : Records} {config : IndexConfig}

/-! ## All entries -/

/-- An update under way has applied some entries to the records. -/
structure Progress.At (config : IndexConfig) (base : Contents) (p : Progress) (records : Records) (s : Contents) :
    Prop where
  isOver : p.transaction.Over base s
  indexed : Indexed config.referenceLayout records s

/-- What a part of an update came to. -/
structure Progress.Leads (config : IndexConfig) (base s : Contents) (p : Progress) (records : Records)
    (reached : Option Int64) (entries : List ChangesetEntry) (p' : Progress) (records' : Records) (s' : Contents) :
    Prop where
  at' : p'.At config base records' s'
  frame : ∀ {c : Column}, c ≠ .elements → c ≠ .references → ∀ k, s'.get c k = s.get c k
  /-- Every element whose record changed is known to be changed. -/
  changed : ∀ {x}, x ∉ p'.changed → x ∉ p.changed ∧ records'[x]? = records[x]?
  named : ∀ x, x ∈ p'.changed ↔ x ∈ p.changed ∨
    ∃ entry ∈ entries, ChangesetEntry.isStale reached entry = false ∧ entry.element.elementId = .ok x
  sequence : p'.report.sequence = p.report.sequence
  number : ∀ op, p'.report.number op = p.report.number op +
    entries.countP fun e => !ChangesetEntry.isStale reached e && e.op == op
  skipped : p'.report.skipped = p.report.skipped + entries.countP (ChangesetEntry.isStale reached)

theorem Progress.Leads.nil {p : Progress} (h : p.At config base records s) (reached : Option Int64) :
    p.Leads config base s records reached [] p records s where
  at' := h
  frame := fun _ _ _ => rfl
  changed := fun hx => ⟨hx, rfl⟩
  named := fun x => by simp
  sequence := rfl
  number := fun _ => rfl
  skipped := rfl

theorem Progress.Leads.cons {p p₁ p' : Progress} {records₁ records' : Records} {s₁ s' : Contents}
    {reached : Option Int64} {entry : ChangesetEntry} {entries : List ChangesetEntry}
    (h₁ : p.Leads config base s records reached [entry] p₁ records₁ s₁)
    (h' : p₁.Leads config base s₁ records₁ reached entries p' records' s') :
    p.Leads config base s records reached (entry :: entries) p' records' s' where
  at' := h'.at'
  frame := fun he hr k => (h'.frame he hr k).trans (h₁.frame he hr k)
  changed := fun hx => by
    obtain ⟨hx₁, hget'⟩ := h'.changed hx
    obtain ⟨hx₀, hget₁⟩ := h₁.changed hx₁
    exact ⟨hx₀, hget'.trans hget₁⟩
  named := fun x => by
    rw [h'.named, h₁.named, or_assoc]
    simp only [List.mem_cons, List.not_mem_nil, or_false, exists_eq_or_imp, exists_eq_left]
  sequence := h'.sequence.trans h₁.sequence
  number := fun op => by rw [h'.number, h₁.number, List.countP_cons, List.countP_cons, List.countP_nil]; omega
  skipped := by rw [h'.skipped, h₁.skipped, List.countP_cons, List.countP_cons, List.countP_nil]; omega

theorem Progress.Leads.entry {p : Progress} {records' : Records} {s' : Contents} {reached : Option Int64}
    {entry : ChangesetEntry} (hdue : ChangesetEntry.isStale reached entry = false)
    (hrec : records.applyEntry config.strictModify entry = .ok records') {id : ElementId} {t' : Transaction}
    (hid : entry.element.elementId = .ok id) (h : Entered config base s records' t' s') :
    p.Leads config base s records reached [entry] ⟨t', p.changed.insert id, p.report.count entry.op⟩ records' s' where
  at' := ⟨h.isOver, h.indexed⟩
  frame := h.frame
  changed := fun {x} hx => by
    rw [Std.ExtTreeSet.mem_insert, not_or, Std.LawfulEqOrd.compare_eq_iff_eq] at hx
    refine ⟨hx.2, ?_⟩
    obtain ⟨y, e, hy, rfl, -⟩ := Records.applyEntry_ok hrec
    rw [hid] at hy
    cases hy
    rw [Std.ExtTreeMap.getElem?_insert, if_neg fun hc => hx.1 (Std.LawfulEqOrd.eq_of_compare hc)]
  named := fun x => by
    rw [Std.ExtTreeSet.mem_insert, Std.LawfulEqOrd.compare_eq_iff_eq, or_comm]
    simp [hdue, hid]
  sequence := by cases entry.op <;> rfl
  number := fun op => by simp [UpdateReport.number_count, hdue]
  skipped := by cases hop : entry.op <;> simp [UpdateReport.count, hdue]

theorem Progress.Leads.stale {p : Progress} (h : p.At config base records s) {reached : Option Int64}
    {entry : ChangesetEntry} (hstale : ChangesetEntry.isStale reached entry = true) :
    p.Leads config base s records reached [entry]
      { p with report := { p.report with skipped := p.report.skipped + 1 } } records s where
  at' := ⟨h.isOver, h.indexed⟩
  frame := fun _ _ _ => rfl
  changed := fun hx => ⟨hx, rfl⟩
  named := fun x => by simp [hstale]
  sequence := rfl
  number := fun op => by
    rw [List.countP_singleton, hstale]
    cases op <;> rfl
  skipped := by simp [hstale]

/-- **Entries fold over an index as they fold over its records.** -/
theorem foldlM_step (reached : Option Int64) : ∀ {entries : List ChangesetEntry} {p : Progress} {records : Records}
    {s : Contents}, p.At config base records s → (∀ entry ∈ entries, entry.IsStorable) →
    match (entries.filter fun e => !ChangesetEntry.isStale reached e).foldlM
        (Records.applyEntry config.strictModify) records with
    | .ok records' => ∃ p' s', entries.foldlM (Progress.step config reached) p = .ok p' ∧
        p.Leads config base s records reached entries p' records' s'
    | .error e => entries.foldlM (Progress.step config reached) p = .error e
  | [], p, records, s, h, _ => ⟨p, s, rfl, .nil h reached⟩
  | entry :: entries, p, records, s, h, hs => by
    rw [List.foldlM_cons]
    have hs' : ∀ x ∈ entries, x.IsStorable := fun x hx => hs x (List.mem_cons_of_mem _ hx)
    cases hstale : ChangesetEntry.isStale reached entry with
    | true =>
      have hlead := Progress.Leads.stale h hstale
      have ih := foldlM_step reached hlead.at' hs'
      rw [List.filter_cons_of_neg (by simp [hstale]), Progress.step, if_pos hstale]
      cases hf : (entries.filter fun e => !ChangesetEntry.isStale reached e).foldlM
          (Records.applyEntry config.strictModify) records with
      | error e => rw [hf] at ih; exact ih
      | ok records' =>
        rw [hf] at ih
        obtain ⟨p', s', hp', hlead'⟩ := ih
        exact ⟨p', s', hp', hlead.cons hlead'⟩
    | false =>
      rw [List.filter_cons_of_pos (by simp [hstale]), List.foldlM_cons, Progress.step,
        if_neg (by rw [hstale]; exact Bool.false_ne_true)]
      have hone := applyEntry_spec h.isOver h.indexed (hs entry List.mem_cons_self)
      cases hrec : records.applyEntry config.strictModify entry with
      | error e => rw [hrec] at hone; rw [show applyEntry config p.transaction entry = .error e from hone]; rfl
      | ok records₁ =>
        rw [hrec] at hone
        obtain ⟨id, t₁, s₁, hid, ht₁, hent⟩ := hone
        have hlead := Progress.Leads.entry (p := p) hstale hrec hid hent
        have ih := foldlM_step reached hlead.at' hs'
        rw [ht₁]
        change match (entries.filter fun e => !ChangesetEntry.isStale reached e).foldlM
          (Records.applyEntry config.strictModify) records₁ with | .ok records' => _ | .error e => _
        cases hf : (entries.filter fun e => !ChangesetEntry.isStale reached e).foldlM
            (Records.applyEntry config.strictModify) records₁ with
        | error e => rw [hf] at ih; exact ih
        | ok records' =>
          rw [hf] at ih
          obtain ⟨p', s', hp', hlead'⟩ := ih
          exact ⟨p', s', hp', hlead.cons hlead'⟩

/-! ## Flags, number and time -/

theorem apply_marks : ∀ (ids : List ElementId) (s : Contents), ∃ s', s.apply (ids.map DirtyElements.mark) = .ok s' ∧
    (∀ k, s'.get .dirtyElements k = if k ∈ ids.map (·.key) then some [] else s.get .dirtyElements k) ∧
    ∀ {c : Column}, c ≠ .dirtyElements → ∀ k, s'.get c k = s.get c k
  | [], s => ⟨s, rfl, fun k => by simp, fun _ _ => rfl⟩
  | id :: ids, s => by
    obtain ⟨s', hs', hd', hf'⟩ := apply_marks ids (s.put .dirtyElements id.key [])
    refine ⟨s', hs', fun k => ?_, fun hc k => ?_⟩
    · rw [hd', Contents.get_put, List.map_cons]
      by_cases hk : k = id.key
      · simp [hk]
      · simp [hk]
    · rw [hf' hc, Contents.get_put, if_neg fun hk => hc hk.1]

theorem apply_replicationOps {state : ReplicationState} (h : state.StoredIn s) (c : Changeset) :
    ∃ s', s.apply (replicationOps state c) = .ok s' ∧ (state.advance c).StoredIn s' ∧
      ∀ {d : Column}, d ≠ .properties → ∀ k, s'.get d k = s.get d k := by
  have hseq : ∃ s₁, s.apply (c.sequence.map ReplicationState.setSequence).toList = .ok s₁ ∧
      ReplicationState.StoredIn ⟨(state.advance c).sequence, state.timestamp⟩ s₁ := by
    rw [ReplicationState.advance]
    cases c.sequence with
    | none => exact ⟨s, rfl, h⟩
    | some n => exact ⟨_, rfl, h.setSequence n⟩
  obtain ⟨s₁, hs₁, h₁⟩ := hseq
  have htime : ∃ s', s.apply (replicationOps state c) = .ok s' ∧ (state.advance c).StoredIn s' := by
    rw [replicationOps, Contents.apply_append hs₁]
    rw [ReplicationState.advance] at h₁ ⊢
    cases c.effectiveTimestamp with
    | none => exact ⟨s₁, rfl, h₁⟩
    | some time =>
      dsimp only
      split
      · exact ⟨_, rfl, h₁.setTimestamp time⟩
      · exact ⟨s₁, rfl, h₁⟩
  obtain ⟨s', happly, h'⟩ := htime
  refine ⟨s', happly, h', fun hd k => Contents.get_apply_of_ne happly (fun op hop heq => hd ?_) k⟩
  rw [replicationOps] at hop
  rcases List.mem_append.1 hop with hop | hop
  · obtain ⟨n, -, rfl⟩ := Option.map_eq_some_iff.1 (Option.mem_toList.1 hop)
    exact heq
  · split at hop
    · cases hop
    · split at hop
      · obtain rfl := List.mem_singleton.1 hop
        exact heq
      · cases hop

/-! ## Changesets -/

/-- What is told of an applied changeset: how many entries of each kind were due, and how many were not. -/
structure Reports (l : Ledger) (c : Changeset) (r : UpdateReport) : Prop where
  number : ∀ op, r.number op = (l.due c).countP (·.op == op)
  skipped : r.skipped = c.entries.countP (ChangesetEntry.isStale l.replication.timestamp)
  sequence : r.sequence = c.sequence

/-- What does not depend on a changed element stays where it was. -/
theorem placeAt_of_dependent {records' : Records} {changed : ElementId → Prop} {dirty : ElementSet}
    (hdirty : ∀ x, x ∈ dirty ↔ Dependent records'.links changed x)
    (hsame : ∀ {x}, ¬ changed x → records'[x]? = records[x]?) {x : ElementId} (hx : x ∉ dirty) :
    config.placeAt records' x = config.placeAt records x := by
  rw [hdirty] at hx
  exact config.placeAt_of_closed (fun _ _ hl hr => hr.link hl) (fun y hy => hsame fun hc => hy (.self hc)) hx

/-- What an update did beside its entries: from the elements that it changed it reached all that depend on them, and
it flagged and told the tiles that held or hold one of these. -/
structure Touches (config : IndexConfig) (records records' : Records) (changed : ElementId → Prop) (dirty : ElementSet)
    (touched : TileSet) (s s' : Contents) : Prop where
  unchanged : ∀ {x}, ¬ changed x → records'[x]? = records[x]?
  dependent : ∀ x, x ∈ dirty ↔ Dependent records'.links changed x
  tiles : ∀ u, u ∈ touched ↔ ∃ x ∈ dirty, Placement.Touches (config.placeAt records x) (config.placeAt records' x) u
  flags : DirtyTiles.Flagged (· ∈ touched) s s'

/-- **Everything that depends on a changed element is flagged, placed anew and taken off the flags.** -/
theorem placeDirty_ok {records' : Records} (h : t.Over base s) (hi : Indexed config.referenceLayout records' s)
    (hp : Placements.StoredIn (config.placeAt records) s) (hclean : ∀ k, s.get .dirtyElements k = none)
    {changed : ElementSet} (hsame : ∀ {x}, x ∉ changed → records'[x]? = records[x]?) :
    ∃ dirty t₁ touched t' s', Closure.of (config.referenceLayout.referrers t.reader) changed = .ok dirty ∧
      writing t (dirty.toList.map DirtyElements.mark) = .ok t₁ ∧
      reindexAll config dirty.toList (∅, t₁) = .ok (touched, t') ∧ t'.Over base s' ∧
      Indexed config.referenceLayout records' s' ∧ Placements.StoredIn (config.placeAt records') s' ∧
      (∀ k, s'.get .dirtyElements k = none) ∧ (∀ k, s'.get .properties k = s.get .properties k) ∧
      Touches config records records' (· ∈ changed) dirty touched s s' := by
  have hask : ∀ r, ∃ ids, config.referenceLayout.referrers t.reader r = .ok ids ∧
      ∀ e, e ∈ ids ↔ records'.links r e := fun r =>
    ⟨_, by rw [h.reader, hi.referrers], fun e => Records.mem_dependents⟩
  obtain ⟨dirty, hdirty, hmem⟩ := Closure.mem_of hask changed
  obtain ⟨s₁, hs₁, hmark, hf₁⟩ := apply_marks dirty.toList s
  obtain ⟨t₁, ht₁, h₁⟩ := writing_ok h hs₁
  have hi₁ : Indexed config.referenceLayout records' s₁ := hi.of_columns fun c hc k => by
    rcases hc with rfl | rfl
    · exact hf₁ (by decide) k
    · exact hf₁ (by decide) k
  have hp₁ : Placements.StoredIn (config.placeAt records) s₁ := hp.of_columns fun c hc => hf₁ (by
    rintro rfl
    rcases hc with hc | hc <;> cases hc)
  have hagree : ∀ id ∈ dirty.toList, (s₁.standing id).Agrees (Placement.tilesOf (config.placeAt records id)) :=
    fun id _ => (hp₁.readsAs fun _ => IndexConfig.placeAt_valid).agrees fun _ => IndexConfig.placeAt_valid
  obtain ⟨touched, t', s', ht', h', hdone, htouched⟩ := reindexAll_ok config dirty.toList ∅
    (nodup_of_ascending Std.ExtTreeSet.ordered_toList) h₁ hi₁.readIn.toReadAt hagree
  have htiles : ∀ u, u ∈ touched ↔ ∃ x ∈ dirty,
      Placement.Touches (config.placeAt records x) (config.placeAt records' x) u := fun u => by
    rw [htouched]
    simp only [Std.ExtTreeSet.not_mem_empty, false_or, Std.ExtTreeSet.mem_toList, Placement.Touches]
  have hflags : DirtyTiles.Flagged (· ∈ touched) s s' :=
    ((DirtyTiles.Flagged.of_column (hf₁ (by decide))).trans hdone.flags).congr fun u => by
      simp only [htiles, false_or, Std.ExtTreeSet.mem_toList, Placement.Touches]
  -- what was left alone is right too: the closure holds whatever could have moved
  have hp' : Placements.StoredIn (config.placeAt records') s' :=
    hdone.storedIn hp₁ (fun _ _ hq => IndexConfig.placeAt_valid hq) fun x hx =>
      placeAt_of_dependent hmem hsame fun hin => hx (Std.ExtTreeSet.mem_toList.2 hin)
  refine ⟨dirty, t₁, touched, t', s', hdirty, ht₁, ht', h', hi₁.of_columns fun c hc => ?_, hp', fun k => ?_, fun k => ?_,
    ⟨hsame, hmem, htiles, hflags⟩⟩
  · rcases hc with rfl | rfl
    · exact hdone.frame rfl (by decide)
    · exact hdone.frame rfl (by decide)
  · rw [hdone.unmarked, hmark, hclean]
    by_cases hk : k ∈ dirty.toList.map (·.key)
    · rw [if_pos hk]
    · rw [if_neg hk, if_neg hk]
  · rw [hdone.frame rfl (by decide), hf₁ (by decide)]

theorem Progress.Leads.reports {l : Ledger} {c : Changeset} {p : Progress} {s' : Contents} {records' : Records}
    (h : Progress.Leads config base s { transaction := t, report := { sequence := c.sequence } } l.records
      l.replication.timestamp c.entries p records' s') (dirty : ElementSet) (touched : TileSet) :
    Reports l c { p.report with dirtyElements := dirty, dirtyTiles := touched } where
  number op := by
    have hfirst : ({ sequence := c.sequence } : UpdateReport).number op = 0 := by cases op <;> rfl
    have hnumber := h.number op
    rw [hfirst, Nat.zero_add] at hnumber
    rw [Ledger.due, List.countP_filter]
    refine Eq.trans ?_ (hnumber.trans (List.countP_congr fun e _ => by rw [Bool.and_comm]))
    cases op <;> rfl
  skipped := h.skipped.trans (Nat.zero_add _)
  sequence := h.sequence

/-- **Within a transaction a changeset comes to what the plain model says.** -/
theorem applyIn_spec {l : Ledger} (h : l.StoredIn config s) {c : Changeset} (hs : c.IsStorable) :
    match l.apply config.strictModify c with
    | .ok l' => ∃ report t' s', applyIn config (.begin s.reader) c = .ok (report, t') ∧ t'.Over s s' ∧
        l'.StoredIn config s' ∧ Reports l c report ∧
        Touches config l.records l'.records (l.Names c) report.dirtyElements report.dirtyTiles s s'
    | .error e => applyIn config (.begin s.reader) c = .error e := by
  have hover := Transaction.Over.begin s
  have hread : reading (ReplicationState.read (Transaction.begin s.reader).reader) = .ok l.replication := by
    rw [hover.reader, h.replication.read]; rfl
  have hstart : Progress.At config s { transaction := .begin s.reader, report := { sequence := c.sequence } }
      l.records s := ⟨hover, h.indexed⟩
  have hfold := foldlM_step l.replication.timestamp hstart hs
  rw [Ledger.apply, applyIn, hread]
  simp only [bind, Except.bind]
  cases hseq : checkSequence l.replication c with
  | error e => rfl
  | ok u =>
    dsimp only
    rw [Ledger.due]
    cases hrec : (c.entries.filter fun e => !ChangesetEntry.isStale l.replication.timestamp e).foldlM
        (Records.applyEntry config.strictModify) l.records with
    | error e =>
      rw [hrec] at hfold
      simp only [show c.entries.foldlM (Progress.step config l.replication.timestamp) _ = .error e from hfold]
    | ok records' =>
      rw [hrec] at hfold
      obtain ⟨p, s₁, hp, hlead⟩ := hfold
      have hplaced : Placements.StoredIn (config.placeAt l.records) s₁ := h.placed.of_columns fun c hc => by
        refine hlead.frame ?_ ?_ <;> rintro rfl <;> rcases hc with hc | hc <;> cases hc
      obtain ⟨dirty, t₂, touched, t₃, s₃, hdirty, ht₂, ht₃, h₃, hi₃, hp₃, hclean, hprop, htouches⟩ :=
        placeDirty_ok hlead.at'.isOver hlead.at'.indexed hplaced
          (fun k => (hlead.frame (by decide) (by decide) k).trans (h.clean k)) fun hx => (hlead.changed hx).2
      have hrep : l.replication.StoredIn s₃ := h.replication.of_column fun k =>
        (hprop k).trans (hlead.frame (by decide) (by decide) k)
      obtain ⟨s₄, hs₄, hrep₄, hf₄⟩ := apply_replicationOps hrep c
      obtain ⟨t₄, ht₄, h₄⟩ := writing_ok h₃ hs₄
      have hnames : (fun x => x ∈ p.changed) = l.Names c := funext fun x => propext <| by
        simp [hlead.named, Ledger.Names, Ledger.due, and_assoc]
      have hflags : DirtyTiles.Flagged (· ∈ touched) s s₄ :=
        ((DirtyTiles.Flagged.of_column (hlead.frame (by decide) (by decide))).trans
          (htouches.flags.trans (.of_column (hf₄ (by decide))))).congr fun u => by simp
      rw [hnames] at htouches
      refine ⟨{ p.report with dirtyElements := dirty, dirtyTiles := touched }, t₄, s₄, ?_, h₄, ?_, hlead.reports ..,
        { htouches with flags := hflags }⟩
      · rw [hp]
        simp only [hdirty, reading, mapError_ok, ht₂, ht₃, ht₄]
        rfl
      · refine ⟨hi₃.of_columns fun c hc => hf₄ ?_, hp₃.of_columns fun c hc => hf₄ ?_, fun k => ?_, hrep₄⟩
        · rcases hc with rfl | rfl <;> decide
        · rintro rfl
          rcases hc with hc | hc <;> cases hc
        · rw [hf₄ (by decide), hclean]

end Update

namespace Atlas

theorem exists_commit {a : Atlas} {t : Transaction} {s : Contents} (h : t.Over a.store.contents s) :
    ∃ a', a.commit t = .ok a' ∧ a'.config = a.config ∧ a'.store.contents = s := by
  obtain ⟨store, hstore, hcontents⟩ := Store.commit_over h
  exact ⟨{ a with store := store }, by rw [commit, hstore], rfl, hcontents⟩

/-- **A changeset does to an atlas what it does to the plain model.** -/
theorem apply_spec {a : Atlas} {l : Ledger} (h : l.StoredIn a.config a.store.contents) {c : Changeset}
    (hs : c.IsStorable) :
    match l.apply a.config.strictModify c with
    | .ok l' => ∃ report a', a.apply c = .ok (report, a') ∧ (∃ t, a.commit t = .ok a') ∧
        l'.StoredIn a.config a'.store.contents ∧ Update.Reports l c report ∧
        Update.Touches a.config l.records l'.records (l.Names c) report.dirtyElements report.dirtyTiles
          a.store.contents a'.store.contents
    | .error e => a.apply c = .error e := by
  have hspec := Update.applyIn_spec h hs
  rw [← a.store.reader_eq] at hspec
  cases hl : l.apply a.config.strictModify c with
  | error e =>
    rw [hl] at hspec
    rw [apply, show Update.applyIn a.config (.begin a.store.reader) c = .error e from hspec]; rfl
  | ok l' =>
    rw [hl] at hspec
    obtain ⟨report, t, s', ht, hover, hl', hreports, htouches⟩ := hspec
    obtain ⟨a', hdone, -, rfl⟩ := exists_commit hover
    refine ⟨report, a', ?_, ⟨t, hdone⟩, hl', hreports, htouches⟩
    rw [apply, ht]
    simp only [bind, Except.bind, hdone]
    rfl

/-- Nothing is flagged between changesets, so that there is nothing to place anew. -/
theorem reindexDirty_eq {a : Atlas} {l : Ledger} (h : l.StoredIn a.config a.store.contents) :
    a.reindexDirty = .ok (∅, a) := by
  have hlist : Update.reading (DirtyElements.list (Transaction.begin a.store.reader).reader) = .ok [] := by
    rw [a.store.reader_eq, (Transaction.Over.begin a.store.contents).reader, DirtyElements.list_eq_nil h.clean]
    rfl
  rw [reindexDirty]
  simp only [hlist, bind, Except.bind, Update.reindexAll]
  rfl

end Atlas
end TileAtlas
