import TileAtlas.Proofs.Index.References
import TileAtlas.Proofs.Store.Meaning
import TileAtlas.Proofs.Store.Transaction
/-!
# References follow a set of edges

References change one by one, all those to one element at once, or all those from one.  Changes that fit, so that
nothing is added twice and nothing is taken out that is not there, do to the column of references what they do to a
set of edges, in either layout (`ReferenceLayout.Holds.change`).  So both layouts give the same answers after every
change, whether the changes come in batches or in a transaction (`ReferenceChange.answers_agree`).
-/
namespace TileAtlas

/-- A change of who refers to whom. -/
inductive ReferenceChange where
  | add (referent referrer : ElementId)
  | remove (referent referrer : ElementId)
  /-- One element refers to several others. -/
  | addAll (referents : List ElementId) (referrer : ElementId)
  /-- Nobody refers to an element any more, if anybody did. -/
  | removeAll (referent : ElementId)

namespace ReferenceChange

/-- The writes that make a change. -/
def ops (l : ReferenceLayout) : ReferenceChange → List Op
  | add r e => [l.add r e]
  | remove r e => [l.remove r e]
  | addAll rs e => rs.map fun r => l.add r e
  | removeAll r => [l.removeAll r]

/-- The writes that make some changes, one after another. -/
def allOps (l : ReferenceLayout) (changes : List ReferenceChange) : List Op := changes.flatMap (ops l)

/-! ## The set of edges -/

/-- What a change makes of a set of edges. -/
def after (links : Links) : ReferenceChange → Links
  | add r e => fun r' e' => links r' e' ∨ (r' = r ∧ e' = e)
  | remove r e => fun r' e' => links r' e' ∧ ¬ (r' = r ∧ e' = e)
  | addAll rs e => fun r' e' => links r' e' ∨ (r' ∈ rs ∧ e' = e)
  | removeAll r => fun r' e' => links r' e' ∧ r' ≠ r

/-- What is added was not there before, each edge once, and what is taken out was there. -/
def Fits (links : Links) : ReferenceChange → Prop
  | add r e => ¬ links r e
  | remove r e => links r e
  | addAll rs e => rs.Nodup ∧ ∀ r ∈ rs, ¬ links r e
  | removeAll _ => True

/-- Every change fits the edges that the changes before it left. -/
def AllFit : Links → List ReferenceChange → Prop
  | _, [] => True
  | links, c :: cs => c.Fits links ∧ AllFit (c.after links) cs

/-- The edges after some changes, when there were none before. -/
def edges (changes : List ReferenceChange) : Links := changes.foldl after fun _ _ => False

theorem AllFit.of_append : ∀ {cs ds : List ReferenceChange} {links : Links}, AllFit links (cs ++ ds) →
    AllFit links cs ∧ AllFit (cs.foldl after links) ds
  | [], _, _, h => ⟨trivial, h⟩
  | _ :: _, _, _, h => ⟨⟨h.1, (of_append h.2).1⟩, (of_append h.2).2⟩

end ReferenceChange

/-! ## The column follows -/

namespace ReferenceLayout

variable {l : ReferenceLayout} {s : Contents} {links : Links}

/-- **All links to an element are taken out,** and no others: also where keys that begin like those of the element are
the last ones. -/
theorem Holds.forget (h : l.Holds s links) (r : ElementId) :
    ∃ s', s.applyOp (l.removeAll r) = .ok s' ∧ l.Holds s' fun r' e' => links r' e' ∧ r' ≠ r := by
  cases l with
  | merged =>
    obtain ⟨hkeys, hsets⟩ := h
    refine ⟨_, rfl, fun k v hk => ?_, fun r' => ?_⟩
    · change (s.erase .references r.key).get .references k = some v at hk
      rw [Contents.get_erase] at hk
      split at hk
      · cases hk
      · exact hkeys k v hk
    · change ReferenceCounts.Stored ((s.erase .references r.key).get .references r'.key) _
      rw [Contents.get_erase]
      by_cases hr : r' = r
      · rw [if_pos ⟨rfl, by rw [hr]⟩]
        exact ⟨∅, fun e n => by simp [hr], .inl ⟨rfl, rfl⟩⟩
      · have hsame : (fun e' => links r' e' ∧ r' ≠ r) = links r' := funext fun e' => propext (and_iff_left hr)
        rw [if_neg fun heq => hr (ElementId.key_inj heq.2)]
        exact hsame.symm.subst (motive := ReferenceCounts.Stored _) (hsets r')
  | legacy =>
    refine ⟨_, rfl, fun k v => ?_⟩
    change Contents.get (s.modify .references (·.deleteRange (.beginningWith r.key))) .references k = some v ↔ _
    rw [Contents.get_deleteRange]
    split
    · rename_i hin
      refine ⟨nofun, ?_⟩
      rintro ⟨-, r', e, rfl, -, hne⟩
      exact absurd (ElementId.prefix_key_append_iff.1 (KeyRange.contains_beginningWith.1 hin.2)).symm hne
    · rename_i hout
      rw [h k v]
      refine and_congr_right fun _ => exists_congr fun r' => exists_congr fun e' => and_congr_right fun hk => ?_
      refine (and_iff_left fun hr => hout ⟨rfl, KeyRange.contains_beginningWith.2 ?_⟩).symm
      rw [hk, hr]
      exact ElementId.prefix_key_append_iff.2 rfl

/-- **A change that fits does to the column what it does to the edges.** -/
theorem Holds.change (h : l.Holds s links) {c : ReferenceChange} (hc : c.Fits links) :
    ∃ s', s.apply (c.ops l) = .ok s' ∧ l.Holds s' (c.after links) := by
  cases c with
  | add r e =>
    obtain ⟨s', hs', h'⟩ := h.add hc
    exact ⟨s', by rw [ReferenceChange.ops, Contents.apply_cons hs']; rfl, h'⟩
  | remove r e =>
    obtain ⟨s', hs', h'⟩ := h.remove hc
    exact ⟨s', by rw [ReferenceChange.ops, Contents.apply_cons hs']; rfl, h'⟩
  | addAll rs e => exact h.addAll hc.1 hc.2
  | removeAll r =>
    obtain ⟨s', hs', h'⟩ := h.forget r
    exact ⟨s', by rw [ReferenceChange.ops, Contents.apply_cons hs']; rfl, h'⟩

theorem Holds.changes : ∀ {cs : List ReferenceChange} {s : Contents} {links : Links}, l.Holds s links →
    ReferenceChange.AllFit links cs →
    ∃ s', s.apply (ReferenceChange.allOps l cs) = .ok s' ∧ l.Holds s' (cs.foldl ReferenceChange.after links)
  | [], s, _, h, _ => ⟨s, rfl, h⟩
  | c :: cs, s, links, h, hfit => by
    obtain ⟨s₁, hs₁, h₁⟩ := h.change hfit.1
    obtain ⟨s', hs', h'⟩ := changes h₁ hfit.2
    exact ⟨s', by rw [ReferenceChange.allOps, List.flatMap_cons, Contents.apply_append hs₁]; exact hs', h'⟩

end ReferenceLayout

/-! ## Batches and transactions -/

namespace ReferenceChange

/-- Make changes batch by batch. -/
def writeAll (l : ReferenceLayout) (s : Store) (batches : List (List ReferenceChange)) : Except StoreError Store :=
  (batches.map (allOps l)).foldlM Store.write s

theorem writeAll_ok {l : ReferenceLayout} : ∀ {batches : List (List ReferenceChange)} {s : Store} {links : Links},
    l.Holds s.contents links → AllFit links batches.flatten →
    ∃ s', writeAll l s batches = .ok s' ∧ l.Holds s'.contents (batches.flatten.foldl after links)
  | [], s, _, h, _ => ⟨s, rfl, h⟩
  | batch :: batches, s, links, h, hfit => by
    rw [List.flatten_cons] at hfit ⊢
    obtain ⟨hbatch, hrest⟩ := hfit.of_append
    obtain ⟨t, ht, hlinks⟩ := h.changes hbatch
    obtain ⟨s₁, hs₁, rfl⟩ := Store.write_of_contents ht
    obtain ⟨s', hs', h'⟩ := writeAll_ok hlinks hrest
    refine ⟨s', ?_, by rwa [List.foldl_append]⟩
    rw [writeAll, List.map_cons, List.foldlM_cons, hs₁]
    exact hs'

/-- What is told of the referrers of each element after some changes, from no references on: it is told in every
layout and by every store, however the changes came, in batches and then in one transaction, both before it is
committed and then. -/
structure Answers (changes : List ReferenceChange) (answer : ElementId → List ElementId) : Prop where
  ascending : ∀ r, (answer r).Pairwise fun a b => compare a b = .lt
  mem : ∀ r e, e ∈ answer r ↔ edges changes r e
  told : ∀ (l : ReferenceLayout) (start : Store), (∀ k, start.reader.get .references k = .ok none) →
    ∀ batches rest, batches.flatten ++ rest = changes → ∃ s t s', writeAll l start batches = .ok s ∧
      (Transaction.begin s.reader).recordAll (allOps l rest) = .ok t ∧ s.commit t = .ok s' ∧
      ∀ r, l.referrers t.reader r = .ok (answer r) ∧ l.referrers s'.reader r = .ok (answer r)

/-- Changes that fit lead any store from no references to their edges. -/
theorem exists_store {l : ReferenceLayout} {start : Store} (hstart : ∀ k, start.reader.get .references k = .ok none)
    {batches : List (List ReferenceChange)} {rest : List ReferenceChange}
    (h : AllFit (fun _ _ => False) (batches.flatten ++ rest)) :
    ∃ s t s', writeAll l start batches = .ok s ∧ (Transaction.begin s.reader).recordAll (allOps l rest) = .ok t ∧
      s.commit t = .ok s' ∧ t.reader = s'.contents.reader ∧ l.Holds s'.contents (edges (batches.flatten ++ rest)) := by
  have hnone : ∀ k, start.contents.get .references k = none := fun k => by
    have hk := hstart k
    rw [start.reader_eq, Contents.reader_get] at hk
    exact Except.ok.inj hk
  obtain ⟨hbatches, hrest⟩ := h.of_append
  obtain ⟨s, hs, hlinks⟩ := writeAll_ok (l.holds_empty hnone) hbatches
  obtain ⟨u, hu, hlinks'⟩ := hlinks.changes hrest
  obtain ⟨t, ht, hover⟩ := (Transaction.Over.begin s.contents).recordAll hu
  obtain ⟨s', hc, hcontents⟩ := Store.commit_over hover
  refine ⟨s, t, s', hs, by rw [s.reader_eq, ht], hc, by rw [hover.reader, hcontents], ?_⟩
  rw [hcontents, edges, List.foldl_append]
  exact hlinks'

/-- **Both layouts give the same answers as the set of edges,** after every change of a sequence that fits. -/
theorem answers_agree {changes : List ReferenceChange} (h : AllFit (fun _ _ => False) changes)
    {done : List ReferenceChange} (hdone : done <+: changes) : ∃ answer, Answers done answer := by
  obtain ⟨later, rfl⟩ := hdone
  have hfit := h.of_append.1
  -- the answers of one store are those of all, since lists that ascend are known by their members
  have hone : ∀ r, ∃ ids : List ElementId, (ids.Pairwise fun a b => compare a b = .lt) ∧ ∀ e, e ∈ ids ↔ edges done r e := by
    intro r
    obtain ⟨s', -, hlinks⟩ := (ReferenceLayout.merged.holds_empty (fun k => Contents.get_empty _ k)).changes hfit
    obtain ⟨ids, -, hasc, hmem⟩ := hlinks.referrers r
    exact ⟨ids, hasc, hmem⟩
  choose answer hasc hmem using hone
  refine ⟨answer, hasc, hmem, fun l start hstart batches rest heq => ?_⟩
  subst heq
  obtain ⟨s, t, s', hs, ht, hc, hreader, hlinks⟩ := exists_store hstart hfit
  have hanswer : ∀ r, l.referrers s'.contents.reader r = .ok (answer r) := fun r => by
    obtain ⟨ids, hids, hasc', hmem'⟩ := hlinks.referrers r
    rw [hids, eq_of_ascending hasc' (hasc r) fun e => (hmem' e).trans (hmem r e).symm]
  exact ⟨s, t, s', hs, ht, hc, fun r => ⟨hreader ▸ hanswer r, s'.reader_eq ▸ hanswer r⟩⟩

/-- The last element there can be refers to itself, whose key has none above it, and is forgotten in between. -/
theorem answers_agree_last :
    let last : ElementId := ⟨0xFFFFFFFFFFFFFFFF⟩
    let changes : List ReferenceChange := [.addAll [⟨3⟩, last] last, .add last ⟨4⟩, .remove ⟨3⟩ last, .removeAll last,
      .add last last]
    last.key.above? = none ∧ AllFit (fun _ _ => False) changes ∧
      ∃ answer, Answers changes answer ∧ answer last = [last] ∧ answer ⟨3⟩ = [] := by
  intro last changes
  have hfit : AllFit (fun _ _ => False) changes := by
    simp [changes, AllFit, Fits, after, last]
  obtain ⟨answer, h⟩ := answers_agree hfit (List.prefix_refl changes)
  refine ⟨by decide, hfit, answer, h, ?_, ?_⟩
  · refine eq_of_ascending (h.ascending last) (List.pairwise_singleton _ _) fun e => ?_
    rw [h.mem]
    simp [changes, edges, after]
  · refine List.eq_nil_iff_forall_not_mem.2 fun e he => ?_
    rw [h.mem] at he
    simp [changes, edges, after, last] at he

end ReferenceChange
end TileAtlas
