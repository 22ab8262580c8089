import TileAtlas.Proofs.Runs.Basic
/-!
# How far a changeset reaches

The elements that a changeset is told to have reached are the least set that holds those it names and,
with an element, whatever visible record lists it once the changeset is applied (`Atlas.Reached`).  The
tile columns say the same of every other element, byte for byte, and so do the records of all elements
that no applied entry names (`Atlas.run_reached`).
-/
namespace TileAtlas

namespace Atlas

/-- Some entry is about an element and is newer than the index. -/
def Names (a : Atlas) (c : Changeset) (x : ElementId) : Prop :=
  ∃ state, ReplicationState.read a.store.reader = .ok state ∧ ∃ entry ∈ c.entries,
    Update.ChangesetEntry.isStale state.timestamp entry = false ∧ entry.element.elementId = .ok x

def Refers (a : Atlas) (e r : ElementId) : Prop :=
  ∃ record, Elements.get a.store.reader e = .ok (some record) ∧ record.visible = true ∧ r ∈ record.referents

/-- What is told of an applied changeset is how far it reached. -/
structure Reached (a : Atlas) (c : Changeset) (report : UpdateReport) (a' : Atlas) : Prop where
  ascending : report.dirtyElements.toList.Pairwise fun x y => compare x y = .lt
  named : ∀ x, a.Names c x → x ∈ report.dirtyElements
  closed : ∀ e r, r ∈ report.dirtyElements → a'.Refers e r → e ∈ report.dirtyElements
  least : ∀ dirty : ElementId → Prop, (∀ x, a.Names c x → dirty x) → (∀ e r, dirty r → a'.Refers e r → dirty e) →
    ∀ x ∈ report.dirtyElements, dirty x
  entries : ∀ x, x ∉ report.dirtyElements → ∀ t,
    a'.store.reader.get .tiles (Membership.key ⟨t, x⟩) = a.store.reader.get .tiles (Membership.key ⟨t, x⟩)
  standing : ∀ x, x ∉ report.dirtyElements → ∀ c : Column, c.isStanding = true →
    a'.store.reader.get c x.key = a.store.reader.get c x.key
  records : ∀ x, ¬ a.Names c x → a'.store.reader.get .elements x.key = a.store.reader.get .elements x.key

variable {a a' : Atlas} {config : IndexConfig} {l l' : Ledger} {c : Changeset} {report : UpdateReport}

theorem Tells.names_iff (h : a.Tells config l) (c : Changeset) (x : ElementId) : a.Names c x ↔ l.Names c x := by
  have hread : ReplicationState.read a.store.reader = .ok l.replication := by
    rw [a.store.reader_eq]; exact h.stored.replication.read
  unfold Names Ledger.Names Ledger.due
  simp only [hread, Except.ok.injEq, exists_eq_left', List.mem_filter, Bool.not_eq_true', and_assoc]

theorem Tells.refers_iff (h : a.Tells config l) (e r : ElementId) : a.Refers e r ↔ l.records.links r e := by
  have hget := h.stored.indexed.readIn.elements_get e
  unfold Refers Records.links
  simp only [a.store.reader_eq, hget, Except.ok.injEq]

/-- **What an accepted changeset reached, by the ledgers before and after.** -/
theorem Tells.reached (h : a.Tells config l) (h' : a'.Tells config l')
    (ht : Update.Touches config l.records l'.records (l.Names c) report.dirtyElements report.dirtyTiles
      a.store.contents a'.store.contents) : a.Reached c report a' := by
  have hdep := ht.dependent
  have hclosed : ∀ r e, l'.records.links r e → r ∈ report.dirtyElements → e ∈ report.dirtyElements :=
    fun r e hl hr => (hdep e).2 (((hdep r).1 hr).link hl)
  have hstanding : ∀ x, x ∉ report.dirtyElements → a'.store.contents.standing x = a.store.contents.standing x :=
    fun x hx => by rw [h'.stored.placed.standing, h.stored.placed.standing,
      Update.placeAt_of_dependent hdep ht.unchanged hx]
  refine
    { ascending := Std.ExtTreeSet.ordered_toList
      named := fun x hx => (hdep x).2 (.self ((h.names_iff c x).1 hx))
      closed := fun e r hr he => hclosed r e ((h'.refers_iff e r).1 he) hr
      least := fun dirty hstart hclosed x hx => ?_
      entries := fun x hx t => ?_
      standing := fun x hx c hc => ?_
      records := fun x hx => ?_ }
  · -- along the way by which a named element led here
    have hx' := (hdep x).1 hx
    clear hx
    induction hx' with
    | self hn => exact hstart _ ((h.names_iff c _).2 hn)
    | link _ hl ih => exact hclosed _ _ ih ((h'.refers_iff _ _).2 hl)
  · rw [a'.store.reader_eq, a.store.reader_eq]
    exact congrArg (fun st => Except.ok (st.entries t)) (hstanding x hx)
  · rw [a'.store.reader_eq, a.store.reader_eq]
    cases c with
    | tileCounts => exact congrArg (fun st => Except.ok st.count) (hstanding x hx)
    | elementTiles => exact congrArg (fun st => Except.ok st.list) (hstanding x hx)
    | external => exact congrArg (fun st => Except.ok st.outside) (hstanding x hx)
    | _ => cases hc
  · rw [a'.store.reader_eq, a.store.reader_eq, Contents.reader_get, Contents.reader_get,
      h'.stored.indexed.stored.get, h.stored.indexed.stored.get,
      ht.unchanged fun hn => hx ((h.names_iff c x).2 hn)]

/-- **After every run of changesets the next one that is accepted reaches exactly what depends on the elements it
names,** and touches nothing else; and the walk that finds this comes to its end on every graph, with the least set. -/
theorem run_reached (config : IndexConfig) (start : EmptyStore) (cs : List StorableChangeset) :
    (∀ (c : StorableChangeset) (report : UpdateReport) (a' : Atlas),
      (run config start (cs.map .apply)).apply c = .ok (report, a') →
        (run config start (cs.map .apply)).Reached c report a') ∧
    ∀ (graph : ElementId → List ElementId) (changed : ElementSet), ∃ all,
      Closure.of (fun r => (.ok (graph r) : Except IndexError (List ElementId))) changed = .ok all ∧
        ∀ x, x ∈ all ↔ Dependent (fun r e => e ∈ graph r) (· ∈ changed) x := by
  constructor
  · intro c report a' ha
    have h := (tells_start config start).foldl_apply cs
    obtain ⟨l', -, h', htouches⟩ := h.accepted ha
    exact h.reached h' htouches
  · intro graph changed
    exact Closure.mem_of (fun r => ⟨graph r, rfl, fun e => Iff.rfl⟩) changed

/-- A way is modified that a relation lists, which lists itself too. -/
theorem run_reached_cycle :
    let first : StorableChangeset := ⟨{ entries := [
      { op := .create, element := { kind := .way, number := 7, version := 1, nodes := [3, 4] } },
      { op := .create, element :=
        { kind := .relation, number := 1, version := 1, members := [⟨.way, 7, ""⟩, ⟨.relation, 1, ""⟩] } }] },
      by decide +kernel⟩
    let next : StorableChangeset := ⟨{ entries := [
      { op := .modify, element := { kind := .way, number := 7, version := 2, nodes := [3, 4] } }] }, by decide +kernel⟩
    ∃ report a', (run {} .segmented [.apply first]).apply next = .ok (report, a') ∧
      (run {} .segmented [.apply first]).Reached next report a' := by
  intro first next
  have hok : ((Ledger.perform false .empty first).apply false next).isOk = true := by decide +kernel
  obtain ⟨report, a', ha⟩ := ((tells_start {} .segmented).foldl_apply [first]).exists_apply hok
  exact ⟨report, a', ha, (run_reached {} .segmented [first]).1 next report a' ha⟩

end Atlas
end TileAtlas
