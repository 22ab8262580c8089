import TileAtlas.Proofs.Runs.Basic
/-!
# References after a run

Whatever was done with an index, and also between two entries of a changeset, the referrers of an element are
the visible elements that list it, and a stored set counts each of its members once
(`Atlas.run_references`).  So no element ever fails for a referent that does not know of it.
-/
namespace TileAtlas

/-- The references that a reader finds are those that the records which it finds call for. -/
structure ReferenceLayout.Reads (l : ReferenceLayout) (r : Reader) : Prop where
  /-- Also where there is no record of the element itself. -/
  referrers : ∀ id, ∃ ids, l.referrers r id = .ok ids ∧ (ids.Pairwise fun x y => compare x y = .lt) ∧
    ∀ e, e ∈ ids ↔ ∃ x, Elements.get r e = .ok (some x) ∧ x.visible = true ∧ id ∈ x.referents
  /-- No count is two, zero or negative. -/
  counts : l = .merged → ∀ {k v}, r.get .references k = .ok (some v) →
    ∃ (id : ElementId) (counts : ReferenceCounts), k = id.key ∧ ReferenceCounts.decode .referenceSet v = .ok counts ∧
      ∀ (e : ElementId) n, counts[e]? = some n → n = 1

/-- Elements that read as some records, and the links of these. -/
theorem ReferenceLayout.Holds.reads {l : ReferenceLayout} {records : Records} {s : Contents}
    (h : l.Holds s records.links) (hr : records.ReadIn s) : l.Reads s.reader where
  referrers id := by
    obtain ⟨ids, hids, hasc, hmem⟩ := h.referrers id
    refine ⟨ids, hids, hasc, fun e => (hmem e).trans ?_⟩
    rw [hr.elements_get]
    exact exists_congr fun x => and_congr_left fun _ => ⟨congrArg Except.ok, Except.ok.inj⟩
  counts := by
    rintro rfl k v hk
    rw [Contents.reader_get] at hk
    exact h.counts_eq_one (Except.ok.inj hk)

theorem Indexed.reads {l : ReferenceLayout} {records : Records} {s : Contents} (h : Indexed l records s) :
    l.Reads s.reader := h.links.reads h.readIn

/-! ## The plain model knows no broken references -/

/-- Nothing is said of a referent that does not know of an element. -/
def UpdateError.NotBroken (e : UpdateError) : Prop := ∀ id op r, e ≠ .impossible id op (.brokenBackReference r)

namespace Records

variable {records : Records} {e : UpdateError}

theorem notBroken_of_applyEntry {strict : Bool} {entry : ChangesetEntry}
    (h : records.applyEntry strict entry = .error e) : e.NotBroken := by
  rintro x op r rfl
  -- each way to be refused, whatever the entry is to do, has an error of its own
  simp only [applyEntry, create, modify, delete] at h
  repeat' split at h
  all_goals cases h

theorem notBroken_of_foldlM {strict : Bool} : ∀ {entries : List ChangesetEntry} {records : Records},
    entries.foldlM (Records.applyEntry strict) records = .error e → e.NotBroken
  | [], _, h => by cases h
  | entry :: entries, records, h => by
    rw [List.foldlM_cons] at h
    cases h₁ : records.applyEntry strict entry with
    | error x => rw [h₁] at h; cases h; exact notBroken_of_applyEntry h₁
    | ok records₁ => rw [h₁] at h; exact notBroken_of_foldlM h

end Records

theorem Ledger.notBroken_of_apply {strict : Bool} {l : Ledger} {c : Changeset} {e : UpdateError}
    (h : l.apply strict c = .error e) : e.NotBroken := by
  rw [apply] at h
  split at h
  · rename_i hseq
    cases h
    rintro x op r rfl
    rw [Update.checkSequence] at hseq
    split at hseq
    · split at hseq <;> cases hseq
    · cases hseq
  · split at h
    · rename_i hfold
      cases h
      exact Records.notBroken_of_foldlM hfold
    · cases h

/-! ## Runs -/

namespace Atlas

/-- An update of an index by a changeset after so many of its entries, of which those up to a time are passed
over. -/
def midway (a : Atlas) (reached : Option Int64) (c : Changeset) (n : Nat) : Except UpdateError Update.Progress :=
  (c.entries.take n).foldlM (Update.Progress.step a.config reached)
    { transaction := .begin a.store.reader, report := { sequence := c.sequence } }

variable {a : Atlas} {config : IndexConfig} {l : Ledger}

/-- **Between two entries the references are those of the records.** -/
theorem Tells.reads_midway (h : a.Tells config l) {reached : Option Int64} {c : Changeset} (hs : c.IsStorable) {n : Nat}
    {p : Update.Progress} (hp : a.midway reached c n = .ok p) : config.referenceLayout.Reads p.transaction.reader := by
  obtain ⟨rfl, h⟩ := h
  rw [midway, a.store.reader_eq] at hp
  have hstart : Update.Progress.At a.config a.store.contents
      { transaction := .begin a.store.contents.reader, report := { sequence := c.sequence } } l.records
      a.store.contents := ⟨.begin _, h.indexed⟩
  have hs' : ∀ entry ∈ c.entries.take n, entry.IsStorable := fun entry he => hs entry (List.mem_of_mem_take he)
  have hfold := Update.foldlM_step reached hstart hs'
  split at hfold
  · obtain ⟨p', s', hp', hlead⟩ := hfold
    rw [hp'] at hp
    cases hp
    rw [hlead.at'.isOver.reader]
    exact hlead.at'.indexed.reads
  · rw [hfold] at hp
    cases hp

theorem Tells.notBroken_of_apply (h : a.Tells config l) {c : Changeset} (hs : c.IsStorable) {e : UpdateError}
    (he : a.apply c = .error e) : e.NotBroken := by
  obtain ⟨rfl, h⟩ := h
  have hspec := apply_spec h hs
  split at hspec
  · obtain ⟨report, a', ha', -⟩ := hspec
    rw [ha'] at he
    cases he
  · rename_i e' hl
    rw [hspec] at he
    cases he
    exact Ledger.notBroken_of_apply hl

/-- **After every run, and at every point of a changeset, the references are those of the records**, so that no entry
is refused for a referent that does not know of its element. -/
theorem run_references (config : IndexConfig) (start : OpenStore) (actions : List Action) :
    config.referenceLayout.Reads (run config start.toEmptyStore actions).store.reader ∧
      (∀ (c : StorableChangeset) reached n p, (run config start.toEmptyStore actions).midway reached c n = .ok p →
        config.referenceLayout.Reads p.transaction.reader) ∧
      ∀ (c : StorableChangeset) id op r,
        (run config start.toEmptyStore actions).apply c ≠ .error (.impossible id op (.brokenBackReference r)) := by
  obtain ⟨h, -⟩ := run_tells config start actions
  refine ⟨?_, fun c reached n p hp => h.reads_midway c.2 hp, fun c id op r he => ?_⟩
  · rw [Store.reader_eq]
    exact h.stored.indexed.reads
  · exact h.notBroken_of_apply c.2 he id op r rfl

end Atlas
end TileAtlas
