import TileAtlas.Proofs.Index.Dependence
import TileAtlas.Proofs.Runs.DirtyElements
import TileAtlas.Proofs.Runs.References
/-!
# What tells in a placement leads to it

Each record that an element sees leads to it by references of visible records (`Element.Sees.dependent`), so that
nothing can tell in a placement that the walk over the references does not come from, and no changeset names it without
reaching the element (`Atlas.run_influences`).
-/
namespace TileAtlas

variable {config : IndexConfig} {r : Reader} {e : Element} {x : ElementId}

/-- Who refers to whom among visible records. -/
def Reader.Refers (r : Reader) : Links := fun referent referrer =>
  ∃ record, Elements.get r referrer = .ok (some record) ∧ record.visible = true ∧ referent ∈ record.referents

theorem Element.mem_referents_of_member {members : List Member} {m : Member} (hbody : e.body = .relation members)
    (hm : m ∈ members) : m.id ∈ e.referents := by
  rw [mem_referents, hbody]
  exact List.mem_map_of_mem hm

/-- **What an element sees leads to it by references.** -/
theorem Element.Sees.dependent (h : e.Sees r x) (he : Elements.get r e.id = .ok (some e)) (hv : e.visible = true) :
    Dependent r.Refers (· = x) e.id := by
  cases h with
  | @node nodes _ hbody hx => exact .link (.self rfl) ⟨e, he, hv, mem_referents.2 (by rwa [hbody])⟩
  | member hbody hm hkind => exact .link (.self rfl) ⟨e, he, hv, mem_referents_of_member hbody hm⟩
  | @memberNode members m w nodes _ hbody hm hkind hw hnodes hx =>
    obtain ⟨hwv, hwm⟩ := Element.visible_of_wayNodes hnodes
    exact .link (.link (.self rfl) ⟨w, hw, hwv, Element.mem_referents.2 (by rwa [hwm])⟩)
      ⟨e, he, hv, mem_referents_of_member hbody hm⟩

/-- **What can tell in a placement is followed by the walk over the references.** -/
theorem IndexConfig.Influences.mem_closure {layout : ReferenceLayout} (h : config.Influences r e x)
    (he : Elements.get r e.id = .ok (some e)) (hr : layout.Reads r) {changed : ElementSet} (hx : x ∈ changed) :
    ∃ all, Closure.of (layout.referrers r) changed = .ok all ∧ e.id ∈ all := by
  have hlinks : ∀ id, ∃ ids, layout.referrers r id = .ok ids ∧ ∀ y, y ∈ ids ↔ r.Refers id y := fun id => by
    obtain ⟨ids, hids, -, hmem⟩ := hr.referrers id
    exact ⟨ids, hids, hmem⟩
  obtain ⟨all, hall, hmem⟩ := Closure.mem_of hlinks changed
  have hsub : ∀ y, Dependent r.Refers (· = x) y → Dependent r.Refers (· ∈ changed) y := fun y hy => by
    induction hy with
    | self h => exact .self (h ▸ hx)
    | link _ h ih => exact .link ih h
  obtain ⟨hshown, hsees⟩ := h.sees
  exact ⟨all, hall, (hmem _).2 (hsub _ (hsees.dependent he (Element.visible_of_isShown hshown)))⟩

namespace Atlas

variable {a a' : Atlas} {c : Changeset} {report : UpdateReport}

theorem Reached.mem_of_dependent (h : a.Reached c report a') (hx : a.Names c x) {y : ElementId}
    (hy : Dependent a'.store.reader.Refers (· = x) y) : y ∈ report.dirtyElements := by
  induction hy with
  | self hyx => exact hyx ▸ h.named x hx
  | link _ hl ih => exact h.closed _ _ ih hl

/-- **A changeset reaches whatever sees an element that it names,** before or after. -/
theorem Reached.mem_of_sees (h : a.Reached c report a') (he : Elements.get a'.store.reader e.id = .ok (some e))
    (hv : e.visible = true) (hx : a.Names c x) (hs : e.Sees a.store.reader x ∨ e.Sees a'.store.reader x) :
    e.id ∈ report.dirtyElements := by
  have hafter : ∀ {y}, a.Names c y → e.Sees a'.store.reader y → e.id ∈ report.dirtyElements :=
    fun hy hs => h.mem_of_dependent hy (hs.dependent he hv)
  rcases hs with hs | hs
  · cases hs with
    | node hbody hin => exact hafter hx (.node hbody hin)
    | member hbody hm hkind => exact hafter hx (.member hbody hm hkind)
    | @memberNode members m w nodes _ hbody hm hkind hw hnodes hin =>
      -- a member way that is named too may have lost the node, any other has it still
      by_cases hnamed : a.Names c m.id
      · exact hafter hnamed (.member hbody hm hkind)
      · have hsame : Elements.get a'.store.reader m.id = .ok (some w) := by
          rw [← hw, Elements.get, Elements.get, h.records m.id hnamed]
        exact hafter hx (.memberNode hbody hm hkind hsame hnodes hin)
  · exact hafter hx hs

/-- **A placement depends on what the references cover and on nothing else.**  Readers that tell the same of what an
element sees place it alike, or fail alike; of an element that is placed, and shown at all, just what it sees can tell
in its placement.  Such a record leads to the element by references of visible records, so that the walk from a set
with it comes to the element, and after every run a changeset that names it reaches the element. -/
theorem run_influences (config : IndexConfig) (start : OpenStore) (actions : List Action) (e : Element) :
    (∀ r r' : Reader, (∀ x, e.Sees r x → Elements.get r x = Elements.get r' x) →
      config.place r e = config.place r' e) ∧
    (∀ (r : Reader) (p : Option Placement), config.place r e = .ok p →
      ∀ x, config.Influences r e x ↔ e.isShown = true ∧ e.Sees r x) ∧
    (∀ (r : Reader) (x : ElementId), config.Influences r e x → Elements.get r e.id = .ok (some e) →
      Dependent r.Refers (· = x) e.id ∧
        ∀ changed : ElementSet, x ∈ changed → config.referenceLayout.Reads r →
          ∃ all, Closure.of (config.referenceLayout.referrers r) changed = .ok all ∧ e.id ∈ all) ∧
    ∀ (c : StorableChangeset) (report : UpdateReport) (a' : Atlas),
      (run config start.toEmptyStore actions).apply c = .ok (report, a') →
      Elements.get a'.store.reader e.id = .ok (some e) →
      ∀ x, (run config start.toEmptyStore actions).Names c x →
        config.Influences (run config start.toEmptyStore actions).store.reader e x ∨
          config.Influences a'.store.reader e x → e.id ∈ report.dirtyElements := by
  refine ⟨fun r r' h => config.place_eq_of_sees h, fun r p hp x => ⟨fun h => h.sees, fun h => h.2.influences h.1 hp⟩,
    fun r x h he => ?_, fun c report a' ha he x hx hin => ?_⟩
  · obtain ⟨hshown, hsees⟩ := h.sees
    exact ⟨hsees.dependent he (Element.visible_of_isShown hshown), fun changed hchanged hr => h.mem_closure he hr hchanged⟩
  · obtain ⟨h, -⟩ := run_tells config start actions
    obtain ⟨l', -, h', htouches⟩ := h.accepted ha
    have hreached := h.reached h' htouches
    rcases hin with hin | hin
    · exact hreached.mem_of_sees he (Element.visible_of_isShown hin.sees.1) hx (.inl hin.sees.2)
    · exact hreached.mem_of_sees he (Element.visible_of_isShown hin.sees.1) hx (.inr hin.sees.2)

/-- A node is moved that a relation depends on by a way. -/
theorem run_influences_moved :
    let first : StorableChangeset := ⟨{ entries := [
      { op := .create, element := { kind := .node, number := 3, version := 1, lon := some 1, lat := some 1 } },
      { op := .create, element := { kind := .way, number := 7, version := 1, nodes := [3, 4] } },
      { op := .create, element :=
        { kind := .relation, number := 1, version := 1, tags := .ofList [("type", "multipolygon")],
          members := [⟨.way, 7, "outer"⟩] } }] }, by decide +kernel⟩
    let next : StorableChangeset := ⟨{ entries := [
      { op := .modify, element := { kind := .node, number := 3, version := 2, lon := some 2, lat := some 1 } }] },
      by decide +kernel⟩
    let e : Element := ⟨⟨9223372036854775809⟩, 1, true, .ofList [("type", "multipolygon")],
      .relation [⟨⟨4611686018427387911⟩, "outer"⟩]⟩
    let a := run {} OpenStore.segmented.toEmptyStore [.apply first]
    ∃ report a', a.apply next = .ok (report, a') ∧ Elements.get a'.store.reader e.id = .ok (some e) ∧
      a.Names next ⟨3⟩ ∧ IndexConfig.Influences {} a'.store.reader e ⟨3⟩ ∧ e.id ∈ report.dirtyElements := by
  intro first next e a
  let w : Element := ⟨⟨4611686018427387911⟩, 1, true, ∅, .way [⟨3⟩, ⟨4⟩]⟩
  have hok : ((Ledger.perform false .empty first).apply false next).isOk = true := by decide +kernel
  have hrecords : ((Ledger.perform false .empty first).apply false next).toOption.map
      (fun l => (l.records[e.id]?, l.records[w.id]?)) = some (some e, some w) := by decide +kernel
  obtain ⟨h, -⟩ := run_tells {} .segmented [.apply first]
  obtain ⟨report, a', ha⟩ := h.exists_apply hok
  obtain ⟨l', hl', h', -⟩ := h.accepted ha
  rw [show (Ledger.perform false .empty first).apply false next = .ok l' from hl'] at hrecords
  obtain ⟨he, hw⟩ := Prod.mk.inj (Option.some.inj hrecords)
  have hread := h'.stored.indexed.readIn.toReadAt
  have hget : ∀ id, Elements.get a'.store.reader id = .ok l'.records[id]? := fun id => by
    rw [a'.store.reader_eq, hread.elements_get]
  have hnames : a.Names next ⟨3⟩ :=
    (h.names_iff _ _).2 ⟨_, List.mem_filter.2 ⟨List.mem_singleton_self _, rfl⟩, rfl⟩
  have hplaces : IndexConfig.place {} a'.store.reader e = .ok (IndexConfig.placeIn {} l'.records e) := by
    rw [a'.store.reader_eq, IndexConfig.place_eq _ hread]
  have hsees : e.Sees a'.store.reader ⟨3⟩ :=
    .memberNode rfl (List.mem_singleton_self _) (by decide) ((hget w.id).trans (congrArg _ hw)) rfl List.mem_cons_self
  have hclaim := run_influences {} .segmented [.apply first] e
  have hin : IndexConfig.Influences {} a'.store.reader e ⟨3⟩ := (hclaim.2.1 _ _ hplaces ⟨3⟩).2 ⟨by decide +kernel, hsees⟩
  have hhere : Elements.get a'.store.reader e.id = .ok (some e) := (hget e.id).trans (congrArg _ he)
  exact ⟨report, a', ha, hhere, hnames, hin, hclaim.2.2.2 next report a' ha hhere ⟨3⟩ hnames (.inr hin)⟩

end Atlas
end TileAtlas
