import TileAtlas.Proofs.Index.References
import TileAtlas.Proofs.Store.Transaction
import TileAtlas.Proofs.Update.Ledger
/-!
# Entries do to an index what they do to its records

The columns of elements and of references tell the same records (`Indexed`).  The writes of an entry
keep it so, whichever way they change references (`Indexed.create`, `Indexed.replace`), and an entry is
held against the same rules as in the plain model: referrers are dependents, and every referent knows of
the element.  So applying an entry in a transaction and applying it to the records succeed together or
fail alike (`Update.applyEntry_spec`).
-/
namespace TileAtlas

/-- Elements and references tell the same records. -/
structure Indexed (l : ReferenceLayout) (records : Records) (s : Contents) : Prop where
  stored : records.StoredIn s
  valid : records.Valid
  links : l.Holds s records.links

namespace Indexed

variable {l : ReferenceLayout} {records : Records} {s : Contents}

/-- Only the columns of elements and references matter. -/
theorem of_columns (h : Indexed l records s) {s' : Contents}
    (hs : ∀ c, c = .elements ∨ c = .references → ∀ k, s'.get c k = s.get c k) : Indexed l records s' where
  stored := h.stored.of_column (hs _ (.inl rfl))
  valid := h.valid
  links := h.links.of_column (hs _ (.inr rfl))

theorem readIn (h : Indexed l records s) : records.ReadIn s := h.stored.readIn h.valid

/-! ## Asking -/

/-- **The referrers of an element are its visible dependents.** -/
theorem referrers (h : Indexed l records s) (id : ElementId) :
    l.referrers s.reader id = .ok (records.dependents id) := by
  obtain ⟨ids, hids, hasc, hmem⟩ := h.links.referrers id
  rw [hids, eq_of_ascending hasc (records.ascending_dependents id) fun e => by
    rw [hmem, Records.mem_dependents]]

/-- The links of a record are its referents: a deleted one has neither. -/
theorem links_iff (h : Indexed l records s) {id : ElementId} {old : Element} (hold : records[id]? = some old)
    (r : ElementId) : records.links r id ↔ r ∈ old.referents := by
  constructor
  · rintro ⟨x, hx, -, hr⟩
    rw [hold] at hx
    cases hx
    exact hr
  · intro hr
    refine ⟨old, hold, Bool.not_eq_false _ ▸ fun hv => ?_, hr⟩
    rw [Element.referents_eq_nil (h.valid.deleted hold hv)] at hr
    cases hr

/-- **Every referent of a stored element knows of it.** -/
theorem brokenBackReference? {config : IndexConfig} (h : Indexed config.referenceLayout records s) {id : ElementId}
    {old : Element} (hold : records[id]? = some old) : ∀ {rs : List ElementId}, (∀ r ∈ rs, r ∈ old.referents) →
      Update.brokenBackReference? config s.reader old rs = .ok none
  | [], _ => rfl
  | r :: rs, hrs => by
    have hcontains : (records.dependents r).contains old.id = true := by
      rw [List.contains_iff_mem, Records.mem_dependents, h.valid.id_eq hold]
      exact (h.links_iff hold r).2 (hrs r List.mem_cons_self)
    rw [Update.brokenBackReference?, h.referrers]
    simp only [bind, Except.bind, hcontains, if_true]
    exact h.brokenBackReference? hold fun x hx => hrs x (List.mem_cons_of_mem _ hx)

/-! ## Writing -/

theorem put (h : Indexed l records s) {e : Element} (hs : e.IsStorable)
    (hd : e.visible = false → e.body.memberIds = []) {s₁ : Contents} {links : Links} (hl : l.Holds s₁ links)
    (helements : ∀ k, s₁.get .elements k = s.get .elements k)
    (hlinks : ∀ r x, links r x ↔ if x = e.id then e.visible = true ∧ r ∈ e.referents else records.links r x) :
    Indexed l (records.insert e.id e) (s₁.put .elements e.id.key e.encode) where
  stored := (h.stored.of_column helements).put e
  valid := h.valid.insert hs hd
  links := by
    refine (hl.congr fun r x => ?_).of_column fun k => (Contents.get_put ..).trans (if_neg fun hk => nomatch hk.1)
    rw [Records.links_insert, hlinks]

theorem column_of_create {e : Element} : ∀ op ∈ Update.createOps l e, op.column = .elements ∨ op.column = .references := by
  intro op hop
  rcases List.mem_cons.1 hop with rfl | hop
  · exact .inl rfl
  · obtain ⟨r, -, rfl⟩ := List.mem_map.1 hop
    exact .inr (l.column_add _ _)

theorem column_of_modify {old e : Element} :
    ∀ op ∈ Update.modifyOps l old e, op.column = .elements ∨ op.column = .references := by
  intro op hop
  rcases List.mem_append.1 hop with hop | hop
  · rcases List.mem_append.1 hop with hop | hop
    · obtain ⟨r, -, rfl⟩ := List.mem_map.1 hop
      exact .inr (l.column_add _ _)
    · obtain ⟨r, -, rfl⟩ := List.mem_map.1 hop
      exact .inr (l.column_remove _ _)
  · obtain rfl := List.mem_singleton.1 hop
    exact .inl rfl

theorem frame {ops : List Op} (hops : ∀ op ∈ ops, op.column = .elements ∨ op.column = .references) {s' : Contents}
    (h : s.apply ops = .ok s') {c : Column} (he : c ≠ .elements) (hr : c ≠ .references) (k : Bytes) :
    s'.get c k = s.get c k :=
  Contents.get_apply_of_ne h (fun op hop heq => by
    rcases hops op hop with h | h
    · exact he (heq.trans h)
    · exact hr (heq.trans h)) k

theorem elements_of_references {ops : List Op} (hops : ∀ op ∈ ops, op.column = .references) {s' : Contents}
    (h : s.apply ops = .ok s') (k : Bytes) : s'.get .elements k = s.get .elements k :=
  Contents.get_apply_of_ne h (fun op hop heq => by rw [hops op hop] at heq; cases heq) k

/-- **Creating an element adds its record and a link to each referent.** -/
theorem create (h : Indexed l records s) {e : Element} (hs : e.IsStorable) (hv : e.visible = true)
    (hnone : records[e.id]? = none) : ∃ s', s.apply (Update.createOps l e) = .ok s' ∧
      Indexed l (records.insert e.id e) s' := by
  have hlinks : l.Holds (s.put .elements e.id.key e.encode) records.links :=
    h.links.of_column fun k => (Contents.get_put ..).trans (if_neg fun hk => nomatch hk.1)
  obtain ⟨s', hs', hl'⟩ := hlinks.addAll e.nodup_referents fun r _ => by
    rintro ⟨x, hx, -⟩
    rw [hnone] at hx
    cases hx
  refine ⟨s', hs', ?_, h.valid.insert hs (fun hd => ?_), hl'.congr fun r x => ?_⟩
  · refine (h.stored.put e).of_column (elements_of_references (fun op hop => ?_) hs')
    obtain ⟨r, -, rfl⟩ := List.mem_map.1 hop
    exact l.column_add _ _
  · rw [hv] at hd; cases hd
  · rw [Records.links_insert]
    by_cases hx : x = e.id
    · subst hx
      have hno : ¬ records.links r e.id := fun ⟨y, hy, _⟩ => by rw [hnone] at hy; cases hy
      simp [hno, hv]
    · simp [hx]

/-- **Replacing a record changes the links by the difference.** -/
theorem replace (h : Indexed l records s) {old e : Element} (hold : records[e.id]? = some old) (hs : e.IsStorable)
    (hd : e.visible = false → e.body.memberIds = []) : ∃ s', s.apply (Update.modifyOps l old e) = .ok s' ∧
      Indexed l (records.insert e.id e) s' := by
  have hiff := h.links_iff hold
  have hmem : ∀ (rs rs' : List ElementId) (r : ElementId), r ∈ (rs.filter fun r => !rs'.contains r) ↔ r ∈ rs ∧ r ∉ rs' :=
    fun rs rs' r => by rw [List.mem_filter, Bool.not_eq_true', Bool.eq_false_iff, Ne, List.contains_iff_mem]
  obtain ⟨s₁, hs₁, hl₁⟩ := h.links.addAll (e := e.id)
    (e.nodup_referents.filter fun r => !old.referents.contains r) fun r hr hl =>
      ((hmem ..).1 hr).2 ((hiff r).1 hl)
  obtain ⟨s₂, hs₂, hl₂⟩ := hl₁.removeAll (e := e.id)
    (old.nodup_referents.filter fun r => !e.referents.contains r) fun r hr =>
      .inl ((hiff r).2 ((hmem ..).1 hr).1)
  have helements : ∀ k, s₂.get .elements k = s.get .elements k := fun k => by
    rw [elements_of_references (fun op hop => ?_) hs₂, elements_of_references (fun op hop => ?_) hs₁]
    · obtain ⟨r, -, rfl⟩ := List.mem_map.1 hop
      exact l.column_add _ _
    · obtain ⟨r, -, rfl⟩ := List.mem_map.1 hop
      exact l.column_remove _ _
  refine ⟨s₂.put .elements e.id.key e.encode, ?_, h.put hs hd hl₂ helements fun r x => ?_⟩
  · rw [Update.modifyOps, List.append_assoc, Contents.apply_append hs₁, Contents.apply_append hs₂]; rfl
  · by_cases hx : x = e.id
    · subst hx
      have hvis : (e.visible = true ∧ r ∈ e.referents) ↔ r ∈ e.referents := by
        refine and_iff_right_of_imp fun hr => ?_
        cases hv : e.visible with
        | true => rfl
        | false => rw [Element.referents_eq_nil (hd hv)] at hr; cases hr
      rw [if_pos rfl, hvis, hiff, hmem, hmem]
      by_cases ho : r ∈ old.referents <;> by_cases hn : r ∈ e.referents <;> simp [ho, hn]
    · simp [hx]

/-- Leaving a tombstone is replacing a record by one that names no others. -/
theorem deleteOps_eq (l : ReferenceLayout) (old : Element) (id : ElementId) (v : UInt32) :
    Update.deleteOps l old id v = Update.modifyOps l old (.tombstone id v) := by
  have hnil : (Element.tombstone id v).referents = [] := Element.referents_eq_nil (by
    rw [Element.tombstone]; cases id.kind <;> rfl)
  have hall : (old.referents.filter fun r => !([] : List ElementId).contains r) = old.referents :=
    List.filter_eq_self.2 fun _ _ => rfl
  rw [Update.deleteOps, Update.modifyOps, hnil, hall]; rfl

end Indexed

/-! ## Entries within a transaction -/

namespace Update

variable {base s : Contents} {t : Transaction} {records : Records} {config : IndexConfig}

/-- **Writes that the contents take are made, and the transaction answers as they then do.** -/
theorem writing_ok (h : t.Over base s) {ops : List Op} {s' : Contents} (hops : s.apply ops = .ok s') :
    ∃ t', writing t ops = .ok t' ∧ t'.Over base s' := by
  obtain ⟨t', ht', h'⟩ := h.recordAll hops
  exact ⟨t', by rw [writing, ht']; rfl, h'⟩

/-- What an entry came to: the transaction answers as some contents that tell the new records, and no
other column changed. -/
structure Entered (config : IndexConfig) (base s : Contents) (records : Records) (t : Transaction) (s' : Contents) :
    Prop where
  isOver : t.Over base s'
  indexed : Indexed config.referenceLayout records s'
  frame : ∀ {c : Column}, c ≠ .elements → c ≠ .references → ∀ k, s'.get c k = s.get c k

/-- The entry and the plain model succeed together or fail alike. -/
def Agrees (config : IndexConfig) (base s : Contents) (expected : Except UpdateError Records)
    (found : Except UpdateError Transaction) : Prop :=
  match expected with
  | .ok records' => ∃ t' s', found = .ok t' ∧ Entered config base s records' t' s'
  | .error e => found = .error e

theorem checkBackReferences_ok (h : t.Over base s) (hi : Indexed config.referenceLayout records s) {id : ElementId}
    {old : Element} (hold : records[id]? = some old) (op : Operation) :
    checkBackReferences config t id op old = .ok () := by
  rw [checkBackReferences, h.reader, hi.brokenBackReference? hold fun _ hr => hr]; rfl

theorem checkSuccessor_eq (stored found : UInt32) : checkSuccessor stored found =
    if stored.toNat + 1 ≠ found.toNat then .error (.versionNotSuccessor stored found) else .ok () := by
  rw [checkSuccessor, ite_not]

theorem applyCreate_spec (h : t.Over base s) (hi : Indexed config.referenceLayout records s) {id : ElementId}
    {delta : ElementDelta} (hid : delta.elementId = .ok id)
    (hs : ∀ e, delta.toElement = .ok e → e.IsStorable) :
    Agrees config base s (records.create id delta) (applyCreate config t id delta records[id]?) := by
  rw [Records.create, applyCreate, h.reader, hi.referrers, ← Std.ExtTreeMap.contains_eq_isSome_getElem?]
  by_cases hver : delta.version ≠ 1
  · rw [if_pos hver, if_pos hver]; rfl
  · rw [if_neg hver, if_neg hver]
    cases hc : records.contains id with
    | true => rfl
    | false =>
      simp only [reading, mapError_ok, bind, Except.bind, Bool.false_eq_true, if_false]
      cases records.dependents id with
      | cons referrer _ => rfl
      | nil =>
        dsimp only
        cases he : delta.toElement with
        | error x => rfl
        | ok e =>
          obtain ⟨rfl, -, hv⟩ := ElementDelta.toElement_id hid he
          have hnone : records[e.id]? = none := Std.ExtTreeMap.getElem?_eq_none_of_contains_eq_false hc
          obtain ⟨s', hs', hi'⟩ := hi.create (hs e he) hv hnone
          obtain ⟨t', ht', h'⟩ := writing_ok h hs'
          exact ⟨t', s', ht', h', hi', Indexed.frame Indexed.column_of_create hs'⟩

theorem applyModify_spec (h : t.Over base s) (hi : Indexed config.referenceLayout records s) {id : ElementId}
    {delta : ElementDelta} (hid : delta.elementId = .ok id)
    (hs : ∀ e, delta.toElement = .ok e → e.IsStorable) :
    Agrees config base s (records.modify config.strictModify id delta)
      (applyModify config t id delta records[id]?) := by
  rw [Records.modify, applyModify.eq_def]
  cases hold : records[id]? with
  | none => rfl
  | some old =>
    dsimp only
    by_cases hstrict : (!old.visible && config.strictModify) = true
    · rw [if_pos hstrict, if_pos hstrict]; rfl
    · rw [if_neg hstrict, if_neg hstrict, checkSuccessor_eq, checkBackReferences_ok h hi hold]
      by_cases hver : old.version.toNat + 1 ≠ delta.version.toNat
      · rw [if_pos hver, if_pos hver]; rfl
      · rw [if_neg hver, if_neg hver]
        cases he : delta.toElement with
        | error x => rfl
        | ok e =>
          obtain ⟨rfl, -, hv⟩ := ElementDelta.toElement_id hid he
          obtain ⟨s', hs', hi'⟩ := hi.replace hold (hs e he) fun hd => by rw [hv] at hd; cases hd
          obtain ⟨t', ht', h'⟩ := writing_ok h hs'
          exact ⟨t', s', ht', h', hi', Indexed.frame Indexed.column_of_modify hs'⟩

theorem applyDelete_spec (h : t.Over base s) (hi : Indexed config.referenceLayout records s) (id : ElementId)
    (delta : ElementDelta) :
    Agrees config base s (records.delete id delta) (applyDelete config t id delta records[id]?) := by
  rw [Records.delete, applyDelete.eq_def]
  cases hold : records[id]? with
  | none => rfl
  | some old =>
    dsimp only
    cases hvis : old.visible with
    | false => rfl
    | true =>
      rw [checkSuccessor_eq, checkBackReferences_ok h hi hold]
      by_cases hver : old.version.toNat + 1 ≠ delta.version.toNat
      · rw [if_pos hver, if_pos hver]; rfl
      · rw [if_neg hver, if_neg hver]
        cases hm : delta.hasMembers with
        | true => rfl
        | false =>
          have hnil : (Element.tombstone id delta.version).body.memberIds = [] := by
            rw [Element.tombstone]; cases id.kind <;> rfl
          obtain ⟨s', hs', hi'⟩ := hi.replace (e := .tombstone id delta.version) hold
            (Element.tombstone_isStorable id delta.version) fun _ => hnil
          rw [← Indexed.deleteOps_eq] at hs'
          obtain ⟨t', ht', h'⟩ := writing_ok h hs'
          rw [Indexed.deleteOps_eq] at hs'
          exact ⟨t', s', ht', h', hi', Indexed.frame Indexed.column_of_modify hs'⟩

/-- **An entry is accepted when the plain model accepts it, and refused for the same reason.** -/
theorem applyEntry_spec (h : t.Over base s) (hi : Indexed config.referenceLayout records s) {entry : ChangesetEntry}
    (hs : entry.IsStorable) :
    match records.applyEntry config.strictModify entry with
    | .ok records' => ∃ id t' s', entry.element.elementId = .ok id ∧ applyEntry config t entry = .ok (id, t') ∧
        Entered config base s records' t' s'
    | .error e => applyEntry config t entry = .error e := by
  rw [Records.applyEntry, applyEntry]
  cases hid : entry.element.elementId with
  | error e => rfl
  | ok id =>
    have hget : reading (Elements.get t.reader id) = .ok records[id]? := by
      rw [h.reader, hi.readIn.elements_get]; rfl
    simp only [mapError_ok, bind, Except.bind, hget]
    have key : ∀ {expected : Except UpdateError Records} {found : Except UpdateError Transaction},
        Agrees config base s expected found →
        match expected with
        | .ok records' => ∃ id' t' s', Except.ok (ε := ChangesetError) id = .ok id' ∧
            (found.bind fun t => pure (id, t)) = .ok (id', t') ∧ Entered config base s records' t' s'
        | .error e => (found.bind fun t => pure (id, t)) = .error e := by
      intro expected found hag
      cases expected with
      | error e => rw [show found = .error e from hag]; rfl
      | ok records' =>
        obtain ⟨t', s', rfl, hent⟩ := hag
        exact ⟨id, t', s', rfl, rfl, hent⟩
    cases entry.op with
    | create => exact key (applyCreate_spec h hi hid hs)
    | modify => exact key (applyModify_spec h hi hid hs)
    | delete => exact key (applyDelete_spec h hi id entry.element)

end Update
end TileAtlas
