import TileAtlas.Pass.References
import TileAtlas.Proofs.Pass.Basic
import TileAtlas.Proofs.Update.Apply
/-!
# Recomputed references are those of the records

The column of references is emptied, and then every visible element adds its links, piece by piece.  No two
elements share an identifier, so that no link is added twice; once all elements are done, the links are those
of the records, whatever the column held before.  An index tells the same ledger then.
-/
namespace TileAtlas

/-- What the visible ones among some elements are made of. -/
def linksOf (es : List Element) : Links := fun r x => ∃ e ∈ es, e.id = x ∧ e.visible = true ∧ r ∈ e.referents

theorem linksOf_nil (r x : ElementId) : ¬ linksOf [] r x := by
  rintro ⟨e, he, -⟩; cases he

theorem linksOf_append (es fs : List Element) (r x : ElementId) :
    linksOf (es ++ fs) r x ↔ linksOf es r x ∨ linksOf fs r x := by
  simp only [linksOf, List.mem_append, or_and_right, exists_or]

theorem linksOf_singleton (e : Element) (r x : ElementId) :
    linksOf [e] r x ↔ e.id = x ∧ e.visible = true ∧ r ∈ e.referents := by
  simp only [linksOf, List.mem_singleton, exists_eq_left]

theorem Records.ReadBy.linksOf_iff {records : Records} {pieces : List Piece} (h : records.ReadBy pieces) {s : Contents}
    (hr : records.ReadIn s) (r x : ElementId) : linksOf (pieces.flatMap Piece.elements) r x ↔ records.links r x := by
  constructor
  · rintro ⟨e, he, rfl, hvis, hmem⟩
    exact ⟨e, (h.mem_iff hr).1 he, hvis, hmem⟩
  · rintro ⟨e, he, hvis, hmem⟩
    have hid := hr.id_eq he
    exact ⟨e, (h.mem_iff hr).2 (by rw [hid, he]), hid, hvis, hmem⟩

/-- How many links the visible ones among some elements have. -/
def countLinks (es : List Element) : Nat := ((es.filter (·.visible)).map (·.referents.length)).sum

theorem countLinks_append (es fs : List Element) : countLinks (es ++ fs) = countLinks es + countLinks fs := by
  simp only [countLinks, List.filter_append, List.map_append, List.sum_append]

theorem countLinks_flatMap {α : Type} (f : α → List Element) : ∀ l : List α,
    countLinks (l.flatMap f) = (l.map fun x => countLinks (f x)).sum
  | [] => rfl
  | x :: l => by rw [List.flatMap_cons, countLinks_append, countLinks_flatMap f l, List.map_cons, List.sum_cons]

theorem countLinks_perm {es fs : List Element} (h : es.Perm fs) : countLinks es = countLinks fs :=
  ((h.filter _).map _).sum_nat

namespace ReferenceLayout

variable {l : ReferenceLayout}

theorem Holds.addElement {s : Contents} {done : List Element} (h : l.Holds s (linksOf done)) {e : Element}
    (hnew : e.id ∉ done.map (·.id)) :
    ∃ s', s.apply (Pass.referenceOps l e) = .ok s' ∧ l.Holds s' (linksOf (done ++ [e])) := by
  rw [Pass.referenceOps]
  split
  · rename_i hvis
    obtain ⟨s', hs', h'⟩ := h.addAll e.nodup_referents fun r _ => by
      rintro ⟨x, hx, hid, -⟩
      exact hnew (List.mem_map.2 ⟨x, hx, hid⟩)
    refine ⟨s', hs', h'.congr fun r x => ?_⟩
    rw [linksOf_append, linksOf_singleton, and_comm, eq_comm]
    simp only [hvis, true_and]
  · rename_i hvis
    refine ⟨s, rfl, h.congr fun r x => ?_⟩
    rw [linksOf_append, linksOf_singleton]
    exact ⟨.inl, fun hl => hl.resolve_right fun hx => hvis hx.2.1⟩

theorem Holds.addElements : ∀ {es done : List Element} {s : Contents}, l.Holds s (linksOf done) →
    ((done ++ es).map (·.id)).Nodup →
    ∃ s', s.apply (es.map (Pass.referenceOps l)).flatten = .ok s' ∧ l.Holds s' (linksOf (done ++ es))
  | [], done, s, h, _ => ⟨s, rfl, by rwa [List.append_nil]⟩
  | e :: es, done, s, h, hnd => by
    rw [List.append_cons] at hnd ⊢
    have hnew : e.id ∉ done.map (·.id) := by
      rw [List.append_assoc, List.map_append, List.nodup_append] at hnd
      exact fun hmem => hnd.2.2 _ hmem _ (List.mem_map_of_mem List.mem_cons_self) rfl
    obtain ⟨s₁, hs₁, h₁⟩ := h.addElement hnew
    obtain ⟨s', hs', h'⟩ := addElements h₁ hnd
    exact ⟨s', by rw [List.map_cons, List.flatten_cons, Contents.apply_append hs₁, hs'], h'⟩

theorem column_referenceOps (e : Element) : ∀ op ∈ Pass.referenceOps l e, op.column = .references := by
  intro op hop
  rw [Pass.referenceOps] at hop
  split at hop
  · obtain ⟨r, -, rfl⟩ := List.mem_map.1 hop
    exact l.column_add r e.id
  · cases hop

end ReferenceLayout

namespace Pass

theorem length_referenceOps (l : ReferenceLayout) : ∀ es : List Element,
    (es.map (referenceOps l)).flatten.length = countLinks es
  | [] => rfl
  | e :: es => by
    rw [List.map_cons, List.flatten_cons, List.length_append, length_referenceOps l es, referenceOps, countLinks, countLinks]
    by_cases hvis : e.visible = true
    · rw [if_pos hvis, List.length_map, List.filter_cons_of_pos hvis, List.map_cons, List.sum_cons]
    · rw [if_neg hvis, List.filter_cons_of_neg hvis, List.length_nil, Nat.zero_add]

theorem exists_link_of_fills {l : ReferenceLayout} {es : List Element} {op : Op}
    (hop : op ∈ (es.map (referenceOps l)).flatten) {r : ElementId} (hf : op.Fills .references r.key) :
    ∃ x, linksOf es r x := by
  obtain ⟨ops, hops, hop⟩ := List.mem_flatten.1 hop
  obtain ⟨e, he, rfl⟩ := List.mem_map.1 hops
  unfold referenceOps at hop
  split at hop
  · rename_i hvis
    obtain ⟨r', hr', rfl⟩ := List.mem_map.1 hop
    obtain rfl := ReferenceLayout.eq_of_fills_add hf
    exact ⟨e.id, e, he, rfl, hvis, hr'⟩
  · cases hop

/-- The elements done so far have added their links, and the other columns are what they were. -/
structure Relinked (l : ReferenceLayout) (before : Contents) (done : List Element) (s : Store) : Prop where
  isWalkable : s.IsWalkable
  links : l.Holds s.contents (linksOf done)
  tight : ReferenceLayout.Tight s.contents (linksOf done)
  frame : ∀ {c}, c ≠ .references → ∀ k, s.contents.get c k = before.get c k

theorem does_writeReferences {l : ReferenceLayout} {before : Contents} {done : List Element} {s : Store}
    (h : Relinked l before done s) {q : Piece} (hq : q.IsReadable) (hnd : ((done ++ q.elements).map (·.id)).Nodup) :
    ∃ s', (writeReferences l q).Does s (countLinks q.elements) s' ∧ Relinked l before (done ++ q.elements) s' := by
  obtain ⟨t, ht, hlinks⟩ := h.links.addElements hnd
  obtain ⟨s', hw, hs', rfl⟩ := does_write h.isWalkable ht
  have hmap : q.mapElements (fun e => .ok (referenceOps l e)) = .ok (q.elements.map (referenceOps l)) :=
    Piece.mapElements_eq hq fun _ _ => rfl
  rw [← length_referenceOps l]
  refine ⟨s', (does_ofIndex hmap s).bind (hw.bind (does_pure _ s')), hs', hlinks, fun r v hv => ?_, fun hc k => ?_⟩
  · rcases Contents.exists_of_apply ht hv with ⟨op, hop, hf⟩ | ⟨w, hw⟩
    · obtain ⟨x, hx⟩ := exists_link_of_fills hop hf
      exact ⟨x, (linksOf_append ..).2 (.inr hx)⟩
    · obtain ⟨x, hx⟩ := h.tight r w hw
      exact ⟨x, (linksOf_append ..).2 (.inl hx)⟩
  · rw [← h.frame hc k]
    refine Contents.get_apply_of_ne ht (fun op hop heq => hc ?_) k
    obtain ⟨ops, hops, hop⟩ := List.mem_flatten.1 hop
    obtain ⟨e, -, rfl⟩ := List.mem_map.1 hops
    rw [heq, ReferenceLayout.column_referenceOps e op hop]

/-- The column of references says nothing but what the records call for, and the other columns are what they were. -/
structure Recomputed (l : ReferenceLayout) (records : Records) (before after : Contents) : Prop where
  links : l.Holds after records.links
  tight : ReferenceLayout.Tight after records.links
  frame : ∀ {c}, c ≠ .references → ∀ k, after.get c k = before.get c k

/-- There is one way for the contents to be then. -/
theorem Recomputed.unique {l : ReferenceLayout} {records : Records} {before after after' : Contents}
    (h : Recomputed l records before after) (h' : Recomputed l records before after') : after' = after :=
  Contents.ext_get fun c k => by
    by_cases hc : c = .references
    · subst hc
      exact h.links.eq_of_tight h'.links h.tight h'.tight k
    · rw [h.frame hc, h'.frame hc]

/-- **References are recomputed to those of the records,** whatever they were and however the elements are divided. -/
theorem does_recomputeReferences {l : ReferenceLayout} {records : Records} {s : Store} (hs : s.IsWalkable)
    (hr : records.ReadIn s.contents) {divide : Division} (hd : divide.Complete) :
    ∃ s', (recomputeReferences l divide).Does s (countLinks records.elements) s' ∧ s'.IsWalkable ∧
      Recomputed l records s.contents s'.contents := by
  obtain ⟨s₁, hs₁, hw₁, hc₁⟩ := does_write (b := [.deleteRange .references .all]) hs rfl
  have hget₁ : ∀ c k, s₁.contents.get c k = if c = .references then none else s.contents.get c k := fun c k => by
    rw [hc₁, Contents.get_deleteRange]; simp
  have hr₁ : records.ReadIn s₁.contents := hr.of_column (hget₁ .elements)
  -- the snapshot is younger than the emptied column, but shows the elements as they were
  obtain ⟨n, p, hn, hp, hwalks⟩ := does_snapshot hw₁
  have hread := hd.readBy hwalks.piece hwalks.range hr₁
  have hstart : Relinked l s.contents [] s₁ := by
    refine ⟨hw₁, ?_, fun r v hv => ?_, fun hc k => (hget₁ _ k).trans (if_neg hc)⟩
    · exact (ReferenceLayout.holds_empty _ (hget₁ .references)).congr fun r x => ⟨False.elim, linksOf_nil r x⟩
    · rw [hget₁] at hv
      cases hv
  obtain ⟨s', hcounts, hdone⟩ := does_each (fun q hq done t hpre ht =>
    does_writeReferences ht (hread.readable q hq) ((hread.nodup_ids hr₁).sublist (hpre.sublist.map _)))
    (List.nil_append _) hstart
  have hsum : ((divide p).map fun q => countLinks q.elements).foldl (· + ·) 0 = countLinks records.elements := by
    rw [← List.sum_eq_foldl_nat, ← countLinks_flatMap, countLinks_perm hread.elements]
  rw [← hsum]
  refine ⟨s', hs₁.bind (hn.bind (hp.bind (hcounts.bind (does_pure _ s')))), hdone.isWalkable, ?_, fun r v hv => ?_,
    hdone.frame⟩
  · exact hdone.links.congr (hread.linksOf_iff hr₁)
  · obtain ⟨x, hx⟩ := hdone.tight r v hv
    exact ⟨x, (hread.linksOf_iff hr₁ r x).1 hx⟩

/-- An index tells the same ledger then. -/
theorem Recomputed.storedIn {config : IndexConfig} {l : Ledger} {before after : Contents}
    (hr : Recomputed config.referenceLayout l.records before after) (h : l.StoredIn config before) :
    l.StoredIn config after where
  indexed := ⟨h.indexed.stored.of_column (hr.frame (by decide)), h.indexed.valid, hr.links⟩
  placed := h.placed.of_columns fun c hc => hr.frame (by
    rintro rfl
    rcases hc with hc | hc <;> cases hc)
  clean k := (hr.frame (by decide) k).trans (h.clean k)
  replication := h.replication.of_column (hr.frame (by decide))

/-- A store whose references were recomputed could be walked. -/
theorem Does.isWalkable_of_recompute {l : ReferenceLayout} {divide : Division} {s s' : Store} {n : Nat}
    (h : (recomputeReferences l divide).Does s n s') : s.IsWalkable := by
  obtain ⟨_, s₁, hwrite, hrest⟩ := h.exists_of_bind
  exact (Store.isWalkable_write hwrite.write_eq).1 hrest.isWalkable

end Pass
end TileAtlas
