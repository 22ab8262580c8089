import TileAtlas.Proofs.Index.Elements
import TileAtlas.Proofs.Merge
/-!
# The column of references holds a graph

A link says that one element is made of another.  In either layout the column holds a set of links
(`ReferenceLayout.Holds`), a link is put in when it is not there and taken out when it is, and the
referrers of an element are then its links, ascending.  In the merged layout this keeps every count at
one.  A set whose last member was taken out stays behind empty; where there are no such sets, the links alone
tell what the column holds (`ReferenceLayout.Holds.eq_of_tight`).
-/
namespace TileAtlas

namespace ReferenceCounts

/-- A stored value is a set in which exactly these elements are counted, each of them once. -/
def Stored (value : Option Bytes) (members : ElementId → Prop) : Prop :=
  ∃ counts : ReferenceCounts, (∀ e n, counts[e]? = some n ↔ n = 1 ∧ members e) ∧
    (value = none ∧ counts = ∅ ∨ value = some counts.encode)

theorem Stored.merge {value : Option Bytes} {members : ElementId → Prop} (h : Stored value members)
    (r : ElementId × Int64) : ∃ counts : ReferenceCounts, (∀ e n, counts[e]? = some n ↔ n = 1 ∧ members e) ∧
      Column.merge .references value (encodeRecord r) = .ok (counts.change r).encode := by
  obtain ⟨counts, hcounts, ⟨rfl, rfl⟩ | rfl⟩ := h
  · refine ⟨∅, hcounts, ?_⟩
    simp only [Column.merge, Column.mergeOperator?, MergeOperator.merge, merge_record_none]
  · refine ⟨counts, hcounts, ?_⟩
    simp only [Column.merge, Column.mergeOperator?, MergeOperator.merge, merge_record_some]

theorem getElem?_of_not_member {counts : ReferenceCounts} {members : ElementId → Prop}
    (h : ∀ e n, counts[e]? = some n ↔ n = 1 ∧ members e) {e : ElementId} (he : ¬ members e) : counts[e]? = none :=
  Option.eq_none_iff_forall_ne_some.2 fun n hn => he ((h e n).1 hn).2

theorem Stored.adding {value : Option Bytes} {members : ElementId → Prop} (h : Stored value members) {e : ElementId}
    (he : ¬ members e) : ∃ v, Column.merge .references value (adding e) = .ok v ∧
      Stored (some v) fun x => members x ∨ x = e := by
  obtain ⟨counts, hcounts, hmerge⟩ := h.merge (e, 1)
  rw [change_adding (getElem?_of_not_member hcounts he)] at hmerge
  refine ⟨_, hmerge, counts.insert e 1, fun x n => ?_, .inr rfl⟩
  rw [Std.ExtTreeMap.getElem?_insert]
  by_cases hx : x = e
  · subst hx
    rw [if_pos Std.compare_self]
    exact ⟨fun hn => ⟨(Option.some.inj hn).symm, .inr rfl⟩, fun hn => by rw [hn.1]⟩
  · rw [if_neg fun hc => hx (Std.LawfulEqOrd.eq_of_compare hc).symm, hcounts]
    exact and_congr_right fun _ => ⟨.inl, fun hm => hm.resolve_right hx⟩

theorem Stored.removing {value : Option Bytes} {members : ElementId → Prop} (h : Stored value members) {e : ElementId}
    (he : members e) : ∃ v, Column.merge .references value (removing e) = .ok v ∧
      Stored (some v) fun x => members x ∧ x ≠ e := by
  obtain ⟨counts, hcounts, hmerge⟩ := h.merge (e, -1)
  rw [change_removing ((hcounts e 1).2 ⟨rfl, he⟩)] at hmerge
  refine ⟨_, hmerge, counts.erase e, fun x n => ?_, .inr rfl⟩
  rw [Std.ExtTreeMap.getElem?_erase]
  by_cases hx : x = e
  · subst hx
    rw [if_pos Std.compare_self]
    exact ⟨nofun, fun hn => absurd rfl hn.2.2⟩
  · rw [if_neg fun hc => hx (Std.LawfulEqOrd.eq_of_compare hc).symm, hcounts]
    exact and_congr_right fun _ => ⟨fun hm => ⟨hm, hx⟩, And.left⟩

/-- Sets that are not empty are the same if they have the same members. -/
theorem Stored.unique {v w : Option Bytes} {members : ElementId → Prop} (hv : Stored v members) (hw : Stored w members)
    (hne : v ≠ none → ∃ e, members e) (hne' : w ≠ none → ∃ e, members e) : v = w := by
  obtain ⟨counts, hcounts, hv⟩ := hv
  obtain ⟨counts', hcounts', hw⟩ := hw
  have hsame : counts = counts' := Std.ExtTreeMap.ext_getElem? fun {e} => Option.ext fun n => by
    rw [hcounts, hcounts']
  have hempty : counts = ∅ → ¬ ∃ e, members e := fun hc ⟨e, he⟩ => by
    have hone := (hcounts e 1).2 ⟨rfl, he⟩
    rw [hc] at hone
    simp at hone
  subst hsame
  rcases hv with ⟨rfl, hc⟩ | rfl <;> rcases hw with ⟨rfl, hc'⟩ | rfl
  · rfl
  · exact absurd (hne' nofun) (hempty hc)
  · exact absurd (hne nofun) (hempty hc')
  · rfl

end ReferenceCounts

namespace ReferenceLayout

/-- The column of references holds exactly these links. -/
def Holds (l : ReferenceLayout) (s : Contents) (links : Links) : Prop :=
  match l with
  | merged =>
    (∀ k v, s.get .references k = some v → ∃ r : ElementId, k = r.key) ∧
      ∀ r, ReferenceCounts.Stored (s.get .references r.key) (links r)
  | legacy => ∀ k v, s.get .references k = some v ↔ v = [] ∧ ∃ r e, k = referenceKey r e ∧ links r e

variable {l : ReferenceLayout} {s s' : Contents} {links links' : Links}

theorem Holds.congr (h : l.Holds s links) (hl : ∀ r e, links r e ↔ links' r e) : l.Holds s links' := by
  have heq : links = links' := funext fun r => funext fun e => propext (hl r e)
  rwa [← heq]

/-- Only the column of references matters. -/
theorem Holds.of_column (h : l.Holds s links) (hs : ∀ k, s'.get .references k = s.get .references k) :
    l.Holds s' links := by
  cases l <;> simpa only [Holds, hs] using h

theorem holds_empty (l : ReferenceLayout) (h : ∀ k, s.get .references k = none) : l.Holds s fun _ _ => False := by
  cases l with
  | merged =>
    refine ⟨fun k v hk => ?_, fun r => ⟨∅, fun e n => ?_, .inl ⟨h _, rfl⟩⟩⟩
    · rw [h k] at hk; cases hk
    · simp
  | legacy =>
    intro k v
    simp [h k]

@[simp] theorem column_add (l : ReferenceLayout) (r e : ElementId) : (l.add r e).column = .references := by
  cases l <;> rfl

@[simp] theorem column_remove (l : ReferenceLayout) (r e : ElementId) : (l.remove r e).column = .references := by
  cases l <;> rfl

/-! ## One link -/

/-- A merge under the key of one referent leaves the sets of all others alone. -/
theorem Holds.put_set (h : merged.Holds s links) {r : ElementId} {v : Bytes} {members : ElementId → Prop}
    (hv : ReferenceCounts.Stored (some v) members) (hr : ∀ e, links' r e ↔ members e)
    (hne : ∀ r' e, r' ≠ r → (links' r' e ↔ links r' e)) : merged.Holds (s.put .references r.key v) links' := by
  obtain ⟨hkeys, hsets⟩ := h
  refine ⟨fun k w hk => ?_, fun r' => ?_⟩
  · rw [Contents.get_put] at hk
    split at hk
    · rename_i heq; exact ⟨r, heq.2⟩
    · exact hkeys k w hk
  · rw [Contents.get_put]
    by_cases hr' : r' = r
    · subst hr'
      rwa [if_pos ⟨rfl, rfl⟩, show links' r' = members from funext fun e => propext (hr e)]
    · rw [if_neg fun heq => hr' (ElementId.key_inj heq.2),
        show links' r' = links r' from funext fun e => propext (hne r' e hr')]
      exact hsets r'

/-- **A new link is put in.** -/
theorem Holds.add (h : l.Holds s links) {r e : ElementId} (hnew : ¬ links r e) :
    ∃ s', s.applyOp (l.add r e) = .ok s' ∧ l.Holds s' fun r' e' => links r' e' ∨ (r' = r ∧ e' = e) := by
  cases l with
  | merged =>
    obtain ⟨v, hmerge, hv⟩ := (h.2 r).adding hnew
    refine ⟨_, Contents.applyOp_merge hmerge, h.put_set hv (fun x => ?_) fun r' x hr' => ?_⟩
    · simp
    · simp [hr']
  | legacy =>
    refine ⟨_, rfl, fun k v => ?_⟩
    change (s.put .references (referenceKey r e) []).get .references k = some v ↔ _
    rw [Contents.get_put]
    split
    · rename_i heq
      obtain ⟨-, rfl⟩ := heq
      constructor
      · intro hv; exact ⟨(Option.some.inj hv).symm, r, e, rfl, .inr ⟨rfl, rfl⟩⟩
      · rintro ⟨rfl, -⟩; rfl
    · rename_i hne
      rw [h k v]
      refine and_congr_right fun _ => exists_congr fun r' => exists_congr fun e' => and_congr_right fun hk => ?_
      refine ⟨.inl, fun hl => hl.resolve_right ?_⟩
      rintro ⟨rfl, rfl⟩
      exact hne ⟨rfl, hk⟩

/-- **A link that is there is taken out.** -/
theorem Holds.remove (h : l.Holds s links) {r e : ElementId} (hold : links r e) :
    ∃ s', s.applyOp (l.remove r e) = .ok s' ∧ l.Holds s' fun r' e' => links r' e' ∧ ¬ (r' = r ∧ e' = e) := by
  cases l with
  | merged =>
    obtain ⟨v, hmerge, hv⟩ := (h.2 r).removing hold
    refine ⟨_, Contents.applyOp_merge hmerge, h.put_set hv (fun x => ?_) fun r' x hr' => ?_⟩
    · simp
    · simp [hr']
  | legacy =>
    refine ⟨_, rfl, fun k v => ?_⟩
    change (s.erase .references (referenceKey r e)).get .references k = some v ↔ _
    rw [Contents.get_erase]
    split
    · rename_i heq
      obtain ⟨-, rfl⟩ := heq
      constructor
      · exact nofun
      · rintro ⟨-, r', e', hk, -, hne⟩
        obtain ⟨rfl, rfl⟩ := referenceKey_inj hk
        exact absurd ⟨rfl, rfl⟩ hne
    · rename_i hne
      rw [h k v]
      refine and_congr_right fun _ => exists_congr fun r' => exists_congr fun e' => and_congr_right fun hk => ?_
      refine ⟨fun hl => ⟨hl, ?_⟩, And.left⟩
      rintro ⟨rfl, rfl⟩
      exact hne ⟨rfl, hk⟩

/-! ## The links of one referrer -/

theorem Holds.addAll : ∀ {rs : List ElementId} {s : Contents} {links : Links} {e : ElementId}, l.Holds s links →
    rs.Nodup → (∀ r ∈ rs, ¬ links r e) → ∃ s', s.apply (rs.map fun r => l.add r e) = .ok s' ∧
      l.Holds s' fun r' e' => links r' e' ∨ (r' ∈ rs ∧ e' = e)
  | [], s, links, e, h, _, _ => ⟨s, rfl, h.congr fun _ _ => by simp⟩
  | r :: rs, s, links, e, h, hnd, hnew => by
    obtain ⟨hr, hnd⟩ := List.nodup_cons.1 hnd
    obtain ⟨s₁, h₁, hs₁⟩ := h.add (hnew r List.mem_cons_self)
    obtain ⟨s', h', hs'⟩ := addAll hs₁ hnd fun x hx hl => by
      rcases hl with hl | ⟨rfl, -⟩
      · exact hnew x (List.mem_cons_of_mem _ hx) hl
      · exact hr hx
    refine ⟨s', by rw [List.map_cons, Contents.apply_cons h₁]; exact h', hs'.congr fun r' e' => ?_⟩
    rw [List.mem_cons, or_assoc, or_and_right]

theorem Holds.removeAll : ∀ {rs : List ElementId} {s : Contents} {links : Links} {e : ElementId}, l.Holds s links →
    rs.Nodup → (∀ r ∈ rs, links r e) → ∃ s', s.apply (rs.map fun r => l.remove r e) = .ok s' ∧
      l.Holds s' fun r' e' => links r' e' ∧ ¬ (r' ∈ rs ∧ e' = e)
  | [], s, links, e, h, _, _ => ⟨s, rfl, h.congr fun _ _ => by simp⟩
  | r :: rs, s, links, e, h, hnd, hold => by
    obtain ⟨hr, hnd⟩ := List.nodup_cons.1 hnd
    obtain ⟨s₁, h₁, hs₁⟩ := h.remove (hold r List.mem_cons_self)
    obtain ⟨s', h', hs'⟩ := removeAll hs₁ hnd fun x hx => by
      refine ⟨hold x (List.mem_cons_of_mem _ hx), ?_⟩
      rintro ⟨rfl, -⟩
      exact hr hx
    refine ⟨s', by rw [List.map_cons, Contents.apply_cons h₁]; exact h', hs'.congr fun r' e' => ?_⟩
    rw [List.mem_cons, and_assoc, ← not_or, or_and_right]

/-! ## Nothing but links -/

/-- Whatever is stored under the key of an element tells of a link to it. -/
def Tight (s : Contents) (links : Links) : Prop := ∀ r v, s.get .references (ElementId.key r) = some v → ∃ e, links r e

/-- **Without empty sets the links tell what the column holds.** -/
theorem Holds.eq_of_tight (h : l.Holds s links) (h' : l.Holds s' links) (ht : Tight s links) (ht' : Tight s' links)
    (k : Bytes) : s'.get .references k = s.get .references k := by
  cases l with
  | merged =>
    by_cases hk : ∃ r : ElementId, k = r.key
    · obtain ⟨r, rfl⟩ := hk
      refine (h'.2 r).unique (h.2 r) (fun hne => ?_) fun hne => ?_
      · obtain ⟨v, hv⟩ := Option.ne_none_iff_exists'.1 hne
        exact ht' r v hv
      · obtain ⟨v, hv⟩ := Option.ne_none_iff_exists'.1 hne
        exact ht r v hv
    · have hnone : ∀ {t : Contents}, merged.Holds t links → t.get .references k = none := fun hl =>
        Option.eq_none_iff_forall_ne_some.2 fun v hv => hk (hl.1 k v hv)
      rw [hnone h, hnone h']
  | legacy => exact Option.ext fun v => (h' k v).trans (h k v).symm

theorem eq_of_fills_add {r e r' : ElementId} (h : (l.add r e).Fills .references r'.key) : r' = r := by
  cases l with
  | merged => exact (ElementId.key_inj h.2).symm
  | legacy =>
    have hlen := congrArg List.length (show referenceKey r e = r'.key from h.2)
    simp [referenceKey] at hlen

/-! ## Asking for referrers -/

/-- **The referrers of an element are its links, ascending.** -/
theorem Holds.referrers (h : l.Holds s links) (r : ElementId) : ∃ ids, l.referrers s.reader r = .ok ids ∧
    (ids.Pairwise fun a b => compare a b = .lt) ∧ ∀ e, e ∈ ids ↔ links r e := by
  cases l with
  | merged =>
    obtain ⟨counts, hcounts, ⟨hv, rfl⟩ | hv⟩ := h.2 r
    · refine ⟨[], ?_, .nil, fun e => ?_⟩
      · rw [ReferenceLayout.referrers, Contents.reader_get, hv]; rfl
      · refine ⟨nofun, fun he => ?_⟩
        have := (hcounts e 1).2 ⟨rfl, he⟩
        simp at this
    · refine ⟨counts.members, ?_, counts.ascending_members, fun e => ?_⟩
      · have hread : readSet r counts.encode = .ok counts.members := by
          rw [readSet, ReferenceCounts.decode_encode]
        rw [ReferenceLayout.referrers, Contents.reader_get, hv]
        exact hread
      · rw [ReferenceCounts.mem_members]
        constructor
        · rintro ⟨n, -, hn⟩; exact ((hcounts e n).1 hn).2
        · intro he; exact ⟨1, by decide, (hcounts e 1).2 ⟨rfl, he⟩⟩
  | legacy =>
    obtain ⟨rows, hrows, hasc, hmem⟩ := (Columns.get s .references).scan_word (w := r.key) fun {k v} hk hr => by
      obtain ⟨-, r', e, rfl, -⟩ := (h k v).1 hk
      obtain rfl := ElementId.prefix_key_append_iff.1 hr
      exact ⟨e, rfl⟩
    refine ⟨rows.map (·.1), ?_, hasc, fun e => ?_⟩
    · change ((Columns.get s .references).scan (.beginningWith r.key)).mapM _ = _
      rw [hrows]
      exact mapM_map_ok fun e _ => by rw [drop_word (by simp), Column.elementOf_key]
    · rw [List.mem_map]
      constructor
      · rintro ⟨⟨e, v⟩, he, rfl⟩
        obtain ⟨-, r', e', hk, hl⟩ := (h (referenceKey r e) v).1 ((hmem e v).1 he)
        obtain ⟨rfl, rfl⟩ := referenceKey_inj hk
        exact hl
      · intro hl
        exact ⟨(e, []), (hmem e []).2 ((h (referenceKey r e) []).2 ⟨rfl, r, e, rfl, hl⟩), rfl⟩

/-- **Every stored count is one.** -/
theorem Holds.counts_eq_one (h : merged.Holds s links) {k v : Bytes} (hk : s.get .references k = some v) :
    ∃ (r : ElementId) (counts : ReferenceCounts), k = r.key ∧ ReferenceCounts.decode .referenceSet v = .ok counts ∧
      ∀ (e : ElementId) n, counts[e]? = some n → n = 1 := by
  obtain ⟨r, rfl⟩ := h.1 k v hk
  obtain ⟨counts, hcounts, ⟨hv, -⟩ | hv⟩ := h.2 r
  · rw [hk] at hv; cases hv
  · rw [hk] at hv
    obtain rfl := Option.some.inj hv
    exact ⟨r, counts, rfl, ReferenceCounts.decode_encode _ _, fun e n hn => ((hcounts e n).1 hn).1⟩

end ReferenceLayout
end TileAtlas
