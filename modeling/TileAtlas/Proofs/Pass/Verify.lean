import Mathlib.Data.List.Nodup
import Mathlib.Data.List.Perm.Subperm
import TileAtlas.Pass.Verify
import TileAtlas.Proofs.Index.Tiles
import TileAtlas.Proofs.Pass.Basic
/-!
# Verifying decides consistency

Tiles are not compared as sets: three numbers from three columns are, and every tile that is recorded for an
element is looked up.  This is enough.  The entries of an element are in different tiles, so that as many
entries as recorded tiles, each of these with an entry, leave no other tile (`TileSet.eq_of_subset`).  The
issues come from whatever worker, but sorting them is stable and no two elements share an identifier, so that
they come out in one order (`Verify.inOrder_flatMap`).
-/
namespace TileAtlas

/-! ## The entries of an element -/

/-- The tiles that hold an entry of an element. -/
def Contents.entryTiles (s : Contents) (id : ElementId) : TileSet :=
  .ofList ((((Columns.get s .tiles).toList.filterMap fun p => (Membership.ofKey p.1).toOption).filter
    (·.id = id)).map (·.tile))

theorem Contents.mem_entryTiles {s : Contents} {id : ElementId} {t : TilePosition} :
    t ∈ s.entryTiles id ↔ ∃ v, s.get .tiles (Membership.key ⟨t, id⟩) = some v := by
  rw [entryTiles, Std.ExtTreeSet.mem_ofList, List.contains_iff_mem, List.mem_map]
  constructor
  · rintro ⟨m, hm, rfl⟩
    obtain ⟨hlisted, hid⟩ := List.mem_filter.1 hm
    obtain rfl := of_decide_eq_true hid
    obtain ⟨⟨k, v⟩, hrow, hk⟩ := List.mem_filterMap.1 hlisted
    cases hof : Membership.ofKey k with
    | error e => rw [hof] at hk; cases hk
    | ok m' =>
      rw [hof] at hk
      cases hk
      obtain rfl := Membership.ofKey_eq_ok.1 hof
      exact ⟨v, Std.ExtTreeMap.mem_toList_iff_getElem?_eq_some.1 hrow⟩
  · rintro ⟨v, hv⟩
    refine ⟨⟨t, id⟩, List.mem_filter.2 ⟨List.mem_filterMap.2 ⟨(Membership.key ⟨t, id⟩, v), ?_, ?_⟩, by simp⟩, rfl⟩
    · exact Std.ExtTreeMap.mem_toList_iff_getElem?_eq_some.2 hv
    · rw [Membership.ofKey_eq_ok.2 rfl]; rfl

/-- A set with no fewer members than one that holds it is this one. -/
theorem TileSet.eq_of_subset {a b : TileSet} (h : ∀ t ∈ a, t ∈ b) (hsize : b.size ≤ a.size) : a = b := by
  have hsub : a.toList.Subperm b.toList := by
    refine List.subperm_of_subset (nodup_of_ascending Std.ExtTreeSet.ordered_toList) fun t ht => ?_
    exact Std.ExtTreeSet.mem_toList.2 (h t (Std.ExtTreeSet.mem_toList.1 ht))
  have hperm := hsub.perm_of_length_le (by rwa [Std.ExtTreeSet.length_toList, Std.ExtTreeSet.length_toList])
  refine Std.ExtTreeSet.ext_mem fun {t} => ?_
  rw [← Std.ExtTreeSet.mem_toList, hperm.mem_iff, Std.ExtTreeSet.mem_toList]

namespace Verify

theorem getD_foldl_count (id : ElementId) : ∀ (ms : List Membership) (counts : MembershipCounts),
    (ms.foldl (fun n m => n.insert m.id (n.getD m.id 0 + 1)) counts).getD id 0 =
      counts.getD id 0 + (ms.filter (·.id = id)).length
  | [], _ => rfl
  | m :: ms, counts => by
    rw [List.foldl_cons, getD_foldl_count id ms, Std.ExtTreeMap.getD_insert]
    by_cases hid : m.id = id
    · rw [if_pos (by rw [hid]; exact Std.compare_self), List.filter_cons_of_pos (by simpa using hid), List.length_cons,
        hid]
      omega
    · rw [if_neg fun hc => hid (Std.LawfulEqOrd.eq_of_compare hc), List.filter_cons_of_neg (by simpa using hid)]

/-- **Entries are counted as the tiles that hold them.** -/
theorem getD_countMemberships {s : Contents} {n : Snapshot}
    (hn : ∀ c start, n.pairsFrom c start = (Columns.get s c).scan (.startingAt start)) {counts : MembershipCounts}
    (h : countMemberships n = .ok counts) (id : ElementId) : counts.getD id 0 = (s.entryTiles id).size := by
  have hrows : n.pairsFrom .tiles [] = (Columns.get s .tiles).toList := (hn .tiles []).trans (Table.scan_all _)
  unfold countMemberships at h
  rw [hrows] at h
  obtain ⟨ms, hms, h⟩ := exists_of_bind h
  cases h
  have hkeys : (Columns.get s .tiles).toList.map (·.1) = ms.map (·.key) :=
    map_eq_of_mapM (fun p m hm => Membership.ofKey_eq_ok.1 hm) hms
  have hnd : ms.Nodup := by
    refine List.Nodup.of_map Membership.key ?_
    rw [← hkeys]
    exact nodup_of_ascending (List.pairwise_map.2 (Ascending.toList (Columns.get s .tiles)))
  -- keys differ, so that memberships of one element differ in their tiles
  have htiles : ((ms.filter (·.id = id)).map (·.tile)).Nodup := by
    refine (hnd.filter _).map_on fun m hm m' hm' heq => ?_
    have hid := of_decide_eq_true (List.mem_filter.1 hm).2
    have hid' := of_decide_eq_true (List.mem_filter.1 hm').2
    cases m; cases m'
    simp only at heq hid hid'
    rw [heq, hid, hid']
  rw [getD_foldl_count, Contents.entryTiles, filterMap_toOption_of_mapM hms, Std.ExtTreeSet.size_ofList,
    List.length_map]
  · simp
  · exact htiles.imp fun hne hc => hne (Std.LawfulEqOrd.eq_of_compare hc)

/-! ## The order of issues -/

/-- Issues in the order of elements are the same if those of each element are, in the same order. -/
theorem eq_of_filter : ∀ {xs ys : List Issue}, (xs.Pairwise fun x y => x.id.raw ≤ y.id.raw) →
    (ys.Pairwise fun x y => x.id.raw ≤ y.id.raw) →
    (∀ id : ElementId, xs.filter (·.id = id) = ys.filter (·.id = id)) → xs = ys
  | [], [], _, _, _ => rfl
  | [], y :: ys, _, _, h => by
    have hy := h y.id
    rw [List.filter_cons_of_pos (by simp)] at hy
    cases hy
  | x :: xs, [], _, _, h => by
    have hx := h x.id
    rw [List.filter_cons_of_pos (by simp)] at hx
    cases hx
  | x :: xs, y :: ys, hxs, hys, h => by
    have hmem : ∀ z, z ∈ x :: xs ↔ z ∈ y :: ys := fun z => by
      have hz := congrArg (z ∈ ·) (h z.id)
      simpa using hz
    have hxy : x.id.raw ≤ y.id.raw := by
      rcases List.mem_cons.1 ((hmem y).2 List.mem_cons_self) with rfl | hy
      · exact UInt64.le_refl _
      · exact List.rel_of_pairwise_cons hxs hy
    have hyx : y.id.raw ≤ x.id.raw := by
      rcases List.mem_cons.1 ((hmem x).1 List.mem_cons_self) with rfl | hx
      · exact UInt64.le_refl _
      · exact List.rel_of_pairwise_cons hys hx
    -- both lists start with the least element of all, and with the same issue of it
    have hid : y.id = x.id := congrArg ElementId.mk (UInt64.le_antisymm hyx hxy)
    have hhead := h x.id
    rw [List.filter_cons_of_pos (by simp), List.filter_cons_of_pos (by simpa using hid)] at hhead
    obtain ⟨rfl, htail⟩ := List.cons.inj hhead
    refine congrArg (x :: ·) (eq_of_filter hxs.of_cons hys.of_cons fun id => ?_)
    by_cases hx : x.id = id
    · rw [← hx]; exact htail
    · have hrest := h id
      rwa [List.filter_cons_of_neg (by simpa using hx), List.filter_cons_of_neg (by simpa using hx)] at hrest

theorem issue_le_trans (a b c : Issue) (hab : decide (a.id.raw ≤ b.id.raw) = true)
    (hbc : decide (b.id.raw ≤ c.id.raw) = true) : decide (a.id.raw ≤ c.id.raw) = true :=
  decide_eq_true (UInt64.le_trans (of_decide_eq_true hab) (of_decide_eq_true hbc))

theorem issue_le_total (a b : Issue) : (decide (a.id.raw ≤ b.id.raw) || decide (b.id.raw ≤ a.id.raw)) = true := by
  rw [Bool.or_eq_true, decide_eq_true_eq, decide_eq_true_eq]
  exact UInt64.le_total _ _

theorem sorted_inOrder (issues : List Issue) : (inOrder issues).Pairwise fun x y => x.id.raw ≤ y.id.raw :=
  (List.pairwise_mergeSort issue_le_trans issue_le_total issues).imp of_decide_eq_true

/-- Sorting is stable. -/
theorem filter_inOrder (issues : List Issue) (id : ElementId) :
    (inOrder issues).filter (·.id = id) = issues.filter (·.id = id) := by
  have hown : ∀ x ∈ issues.filter (·.id = id), x.id = id := fun x hx => of_decide_eq_true (List.mem_filter.1 hx).2
  have hsorted : (issues.filter (·.id = id)).Pairwise fun x y => decide (x.id.raw ≤ y.id.raw) = true :=
    List.pairwise_of_forall_mem_list fun x hx y hy => by
      rw [hown x hx, hown y hy]
      exact decide_eq_true (UInt64.le_refl _)
  have hsub : (issues.filter (·.id = id)).Sublist (inOrder issues) :=
    List.sublist_mergeSort issue_le_trans issue_le_total hsorted List.filter_sublist
  -- a sublist as long as the whole
  have hsub' := hsub.filter (·.id = id)
  rw [List.filter_eq_self.2 fun x hx => decide_eq_true (hown x hx)] at hsub'
  exact (hsub'.eq_of_length ((List.mergeSort_perm issues _).filter _).length_eq.symm).symm

theorem filter_flatMap_id {f : Element → List Issue} (hf : ∀ e, ∀ i ∈ f e, i.id = e.id) (id : ElementId)
    (es : List Element) : (es.flatMap f).filter (·.id = id) = (es.filter (·.id = id)).flatMap f := by
  rw [List.filter_flatMap]
  induction es with
  | nil => rfl
  | cons e es ih =>
    rw [List.flatMap_cons, ih]
    by_cases he : e.id = id
    · rw [List.filter_cons_of_pos (by simpa using he), List.flatMap_cons,
        List.filter_eq_self.2 fun i hi => by simpa using (hf e i hi).trans he]
    · rw [List.filter_cons_of_neg (by simpa using he),
        List.filter_eq_nil_iff.2 fun i hi => by simpa [hf e i hi] using he, List.nil_append]

theorem filter_id_eq {es all : List Element} (hperm : es.Perm all)
    (hasc : (all.map (·.id)).Pairwise fun a b => compare a b = .lt) (id : ElementId) :
    es.filter (·.id = id) = all.filter (·.id = id) := by
  have hsame : ∀ e ∈ all.filter (·.id = id), e.id = id := fun e he => of_decide_eq_true (List.mem_filter.1 he).2
  have hsorted := (List.pairwise_map.1 hasc).filter fun e => decide (e.id = id)
  have hboth := hperm.filter fun e => decide (e.id = id)
  -- at most one element has this identifier, and then order does not matter
  generalize all.filter (·.id = id) = own at hsame hsorted hboth ⊢
  cases own with
  | nil => exact List.perm_nil.1 hboth
  | cons e own =>
    cases own with
    | nil => exact List.perm_singleton.1 hboth
    | cons d own =>
      have hlt := List.rel_of_pairwise_cons hsorted List.mem_cons_self
      rw [hsame e (by simp), hsame d (by simp)] at hlt
      exact absurd hlt (compare_irrefl id)

/-- **The issues of elements come out in the order of elements,** however they went in. -/
theorem inOrder_flatMap {es all : List Element} (hperm : es.Perm all)
    (hasc : (all.map (·.id)).Pairwise fun a b => compare a b = .lt) {f : Element → List Issue}
    (hf : ∀ e, ∀ i ∈ f e, i.id = e.id) : inOrder (es.flatMap f) = all.flatMap f := by
  refine eq_of_filter (sorted_inOrder _) ?_ fun id => ?_
  · rw [List.pairwise_flatMap]
    constructor
    · intro e _
      exact List.pairwise_of_forall_mem_list fun x hx y hy => by rw [hf e x hx, hf e y hy]; exact UInt64.le_refl _
    · rw [List.pairwise_map] at hasc
      refine hasc.imp fun {d e} hlt x hx y hy => ?_
      rw [hf d x hx, hf e y hy]
      exact UInt64.le_of_lt (Std.compare_eq_lt.1 (show compare d.id.raw e.id.raw = .lt from hlt))
  · rw [filter_inOrder, filter_flatMap_id hf, filter_flatMap_id hf, filter_id_eq hperm hasc]

/-! ## One element -/

/-- The condition that a problem names fails for an element. -/
def IsFaulty (config : IndexConfig) (s : Contents) (e : Element) : Problem → Prop
  | .countMismatch count recorded memberships =>
    TileCounts.get s.reader e.id = .ok count ∧
      (∃ tiles, ElementTiles.get s.reader e.id = .ok tiles ∧ recorded = tiles.size) ∧
      memberships = (s.entryTiles e.id).size ∧ ¬ (count.toNat = recorded ∧ count.toNat = memberships)
  | .missingMembership t => ∃ tiles, ElementTiles.get s.reader e.id = .ok tiles ∧ t ∈ tiles ∧ t ∉ s.entryTiles e.id
  | .mixedStorageForm => ∃ tiles, ElementTiles.get s.reader e.id = .ok tiles ∧
      (∃ t ∈ tiles, s.get .tiles (Membership.key ⟨t, e.id⟩) = some []) ∧
      ∃ t ∈ tiles, ∃ payload, s.get .tiles (Membership.key ⟨t, e.id⟩) = some payload ∧ payload ≠ []
  | .missingCanonicalPayload => ∃ tiles, ElementTiles.get s.reader e.id = .ok tiles ∧
      (∃ t ∈ tiles, s.get .tiles (Membership.key ⟨t, e.id⟩) = some []) ∧ ExternalFeature.get s.reader e.id = .ok none
  | .staleTileSet expected => ∃ tiles p, ElementTiles.get s.reader e.id = .ok tiles ∧ config.place s.reader e = .ok p ∧
      expected = Placement.tilesOf p ∧ expected ≠ tiles
  | .missingReference r => e.visible = true ∧ r ∈ e.referents ∧
      ∃ ids, config.referenceLayout.referrers s.reader r = .ok ids ∧ e.id ∉ ids

/-- What the columns say of an element agrees with its record. -/
structure IsConsistent (config : IndexConfig) (s : Contents) (e : Element) : Prop where
  placed : ∃ p, config.place s.reader e = .ok p ∧ Placement.tilesOf p = s.entryTiles e.id
  recorded : ElementTiles.get s.reader e.id = .ok (s.entryTiles e.id)
  count : ∃ n, TileCounts.get s.reader e.id = .ok n ∧ n.toNat = (s.entryTiles e.id).size
  form : (∀ t v, s.get .tiles (Membership.key ⟨t, e.id⟩) = some v → v = []) ∨
    ∀ t v, s.get .tiles (Membership.key ⟨t, e.id⟩) = some v → v ≠ []
  outside : (∃ t, s.get .tiles (Membership.key ⟨t, e.id⟩) = some []) →
    ∃ payload, ExternalFeature.get s.reader e.id = .ok (some payload)
  referrers : e.visible = true → ∀ r ∈ e.referents,
    ∃ ids, config.referenceLayout.referrers s.reader r = .ok ids ∧ e.id ∈ ids

theorem mem_payloadProblems {entries : TilePosition → Option Bytes} {tiles : List TilePosition} {outside : Option Bytes}
    {p : Problem} : p ∈ payloadProblems (tiles.map fun t => (t, entries t)) outside ↔
      (∃ t ∈ tiles, entries t = none ∧ p = .missingMembership t) ∨
      (p = .mixedStorageForm ∧ (∃ t ∈ tiles, entries t = some []) ∧ ∃ t ∈ tiles, ∃ v, entries t = some v ∧ v ≠ []) ∨
      (p = .missingCanonicalPayload ∧ (∃ t ∈ tiles, entries t = some []) ∧ outside = none) := by
  have hany : ∀ test : Bytes → Bool, ((tiles.map fun t => (t, entries t)).filterMap (·.2)).any test = true ↔
      ∃ t ∈ tiles, ∃ v, entries t = some v ∧ test v = true := fun test => by
    simp only [List.any_eq_true, List.mem_filterMap, List.mem_map]
    constructor
    · rintro ⟨v, ⟨_, ⟨t, ht, rfl⟩, hv⟩, htest⟩; exact ⟨t, ht, v, hv, htest⟩
    · rintro ⟨t, ht, v, hv, htest⟩; exact ⟨v, ⟨_, ⟨t, ht, rfl⟩, hv⟩, htest⟩
  have hmarkers := hany (·.isEmpty)
  have hpayloads := hany (!·.isEmpty)
  have hmissing : p ∈ (tiles.map fun t => (t, entries t)).filterMap
      (fun t => if t.2.isNone then some (.missingMembership t.1) else none) ↔
      ∃ t ∈ tiles, entries t = none ∧ p = .missingMembership t := by
    simp only [List.mem_filterMap, List.mem_map]
    constructor
    · rintro ⟨_, ⟨t, ht, rfl⟩, hp⟩
      split at hp
      · rename_i hnone
        cases hp
        exact ⟨t, ht, by simpa using hnone, rfl⟩
      · cases hp
    · rintro ⟨t, ht, hnone, rfl⟩
      exact ⟨_, ⟨t, ht, rfl⟩, by simp [hnone]⟩
  have hsingle : ∀ (test : Bool) (q : Problem), p ∈ (if test then [q] else []) ↔ p = q ∧ test = true := fun test q => by
    cases test <;> simp
  rw [payloadProblems, List.mem_append, List.mem_append, hmissing, or_assoc]
  refine or_congr_right (or_congr ?_ ?_)
  · rw [hsingle, Bool.and_eq_true, hmarkers, hpayloads]
    simp
  · rw [hsingle, Bool.and_eq_true, hmarkers]
    simp

theorem of_tileProblems {s : Contents} {id : ElementId} {memberships : Nat} {ps : List Problem}
    (h : tileProblems s.reader id memberships = .ok ps) : ∃ count tiles, TileCounts.get s.reader id = .ok count ∧
      ElementTiles.get s.reader id = .ok tiles ∧ ∀ p, p ∈ ps ↔
        (p = .countMismatch count tiles.size memberships ∧ ¬ (count.toNat = tiles.size ∧ count.toNat = memberships)) ∨
        p ∈ payloadProblems (tiles.toList.map fun t => (t, s.get .tiles (Membership.key ⟨t, id⟩)))
          (s.get .external id.key) := by
  unfold tileProblems at h
  obtain ⟨count, hcount, h⟩ := exists_of_bind h
  obtain ⟨tiles, htiles, h⟩ := exists_of_bind h
  simp only [bind, Except.bind, Contents.reader_getMany, ExternalFeature.get, Contents.reader_get, asking,
    mapError_ok, pure, Except.pure, Except.ok.injEq, List.map_map, Records.zip_map_self] at h
  refine ⟨count, tiles, hcount, htiles, fun p => ?_⟩
  rw [← h, List.mem_append]
  refine or_congr_left ?_
  split
  · rename_i hagree
    exact iff_of_false List.not_mem_nil fun hp => hp.2 hagree
  · rename_i hagree
    rw [List.mem_singleton]
    exact ⟨fun hp => ⟨hp, hagree⟩, And.left⟩

theorem of_placementProblems {config : IndexConfig} {s : Contents} {e : Element} {ps : List Problem}
    (h : placementProblems config s.reader e = .ok ps) : ∃ tiles placement, ElementTiles.get s.reader e.id = .ok tiles ∧
      config.place s.reader e = .ok placement ∧
      ∀ p, p ∈ ps ↔ p = .staleTileSet (Placement.tilesOf placement) ∧ Placement.tilesOf placement ≠ tiles := by
  unfold placementProblems at h
  obtain ⟨placement, hplace, h⟩ := exists_of_bind h
  obtain ⟨tiles, htiles, h⟩ := exists_of_bind h
  refine ⟨tiles, placement, htiles, hplace, fun p => ?_⟩
  rw [← Except.ok.inj h]
  change p ∈ (if Placement.tilesOf placement = tiles then [] else [.staleTileSet (Placement.tilesOf placement)]) ↔ _
  split
  · rename_i heq
    exact iff_of_false List.not_mem_nil fun hp => hp.2 heq
  · rename_i hne
    rw [List.mem_singleton]
    exact ⟨fun hp => ⟨hp, hne⟩, And.left⟩

theorem of_referenceProblems {l : ReferenceLayout} {s : Contents} {e : Element} {ps : List Problem}
    (h : referenceProblems l s.reader e = .ok ps) :
    (e.visible = true → ∀ r ∈ e.referents, ∃ ids, l.referrers s.reader r = .ok ids) ∧
      ∀ p, p ∈ ps ↔ ∃ r, p = .missingReference r ∧ e.visible = true ∧ r ∈ e.referents ∧
        ∃ ids, l.referrers s.reader r = .ok ids ∧ e.id ∉ ids := by
  unfold referenceProblems at h
  split at h
  · rename_i hvis
    have hone : ∀ r qs, (do return if (← l.referrers s.reader r).contains e.id then [] else [.missingReference r]) =
        (.ok qs : Except IndexError (List Problem)) ↔ ∃ ids, l.referrers s.reader r = .ok ids ∧
          qs = if ids.contains e.id then [] else [.missingReference r] := fun r qs => by
      cases l.referrers s.reader r with
      | error x => simp [bind, Except.bind]
      | ok ids => simp [bind, Except.bind, pure, Except.pure, eq_comm]
    obtain ⟨qss, hqss, h⟩ := exists_of_bind h
    refine ⟨fun _ r hr => ?_, fun p => ?_⟩
    · obtain ⟨qs, hqs⟩ := exists_of_mapM hqss r hr
      obtain ⟨ids, hids, -⟩ := (hone r qs).1 hqs
      exact ⟨ids, hids⟩
    · rw [← Except.ok.inj h, List.mem_flatten]
      constructor
      · rintro ⟨qs, hqs, hp⟩
        obtain ⟨r, hr, hread⟩ := (mem_mapM_iff hqss).1 hqs
        obtain ⟨ids, hids, rfl⟩ := (hone r qs).1 hread
        split at hp
        · cases hp
        · rename_i hout
          rw [List.contains_iff_mem] at hout
          exact ⟨r, List.mem_singleton.1 hp, hvis, hr, ids, hids, hout⟩
      · rintro ⟨r, rfl, -, hr, ids, hids, hout⟩
        refine ⟨[.missingReference r], (mem_mapM_iff hqss).2 ⟨r, hr, (hone r _).2 ⟨ids, hids, ?_⟩⟩, by simp⟩
        rw [if_neg (by rwa [List.contains_iff_mem])]
  · rename_i hvis
    cases h
    refine ⟨fun hv => absurd hv hvis, fun p => iff_of_false List.not_mem_nil ?_⟩
    rintro ⟨r, -, hv, -⟩
    exact hvis hv

/-- What can be read of an element. -/
structure Reads (config : IndexConfig) (s : Contents) (e : Element) (count : UInt64) (tiles : TileSet)
    (placement : Option Placement) : Prop where
  count : TileCounts.get s.reader e.id = .ok count
  tiles : ElementTiles.get s.reader e.id = .ok tiles
  placement : config.place s.reader e = .ok placement
  referrers : e.visible = true → ∀ r ∈ e.referents, ∃ ids, config.referenceLayout.referrers s.reader r = .ok ids

variable {config : IndexConfig} {s : Contents} {e : Element} {count : UInt64} {tiles : TileSet}
  {placement : Option Placement}

theorem Reads.isFaulty_iff (h : Reads config s e count tiles placement) (p : Problem) : IsFaulty config s e p ↔
    (((p = .countMismatch count tiles.size (s.entryTiles e.id).size ∧
        ¬ (count.toNat = tiles.size ∧ count.toNat = (s.entryTiles e.id).size)) ∨
      p ∈ payloadProblems (tiles.toList.map fun t => (t, s.get .tiles (Membership.key ⟨t, e.id⟩)))
        (s.get .external e.id.key)) ∨
      (p = .staleTileSet (Placement.tilesOf placement) ∧ Placement.tilesOf placement ≠ tiles)) ∨
    ∃ r, p = .missingReference r ∧ e.visible = true ∧ r ∈ e.referents ∧
      ∃ ids, config.referenceLayout.referrers s.reader r = .ok ids ∧ e.id ∉ ids := by
  rw [mem_payloadProblems]
  cases p with
  | countMismatch c r m =>
    simp [IsFaulty, h.count, h.tiles]
    constructor
    · rintro ⟨rfl, rfl, rfl, hne⟩
      exact ⟨⟨rfl, rfl, rfl⟩, hne⟩
    · rintro ⟨⟨rfl, rfl, rfl⟩, hne⟩
      exact ⟨rfl, rfl, rfl, hne⟩
  | missingMembership t =>
    simp [IsFaulty, h.tiles, Std.ExtTreeSet.mem_toList, Contents.mem_entryTiles]
    exact fun _ => Option.eq_none_iff_forall_ne_some.symm
  | mixedStorageForm =>
    simp [IsFaulty, h.tiles, Std.ExtTreeSet.mem_toList]
  | missingCanonicalPayload =>
    simp [IsFaulty, h.tiles, Std.ExtTreeSet.mem_toList, ExternalFeature.get, asking]
  | staleTileSet expected =>
    simp [IsFaulty, h.tiles, h.placement]
    rintro rfl
    rfl
  | missingReference r =>
    simp [IsFaulty]

theorem of_problems {counts : MembershipCounts} (hc : ∀ id, counts.getD id 0 = (s.entryTiles id).size)
    {issues : List Issue} (h : problems config s.reader counts e = .ok issues) :
    (∃ count tiles placement, Reads config s e count tiles placement) ∧
      ∀ i, i ∈ issues ↔ i.id = e.id ∧ IsFaulty config s e i.problem := by
  unfold problems at h
  rw [hc] at h
  obtain ⟨ts, ht, h⟩ := exists_of_bind h
  obtain ⟨ps, hp, h⟩ := exists_of_bind h
  obtain ⟨rs, hr, h⟩ := exists_of_bind h
  obtain ⟨count, tiles, hcount, htiles, hts⟩ := of_tileProblems ht
  obtain ⟨tiles', placement, htiles', hplace, hps⟩ := of_placementProblems hp
  obtain ⟨hreferrers, hrs⟩ := of_referenceProblems hr
  obtain rfl : tiles = tiles' := Except.ok.inj (htiles.symm.trans htiles')
  have hreads : Reads config s e count tiles placement := ⟨hcount, htiles, hplace, hreferrers⟩
  refine ⟨⟨count, tiles, placement, hreads⟩, fun i => ?_⟩
  rw [hreads.isFaulty_iff, ← hts, ← hps, ← hrs, ← List.mem_append, ← List.mem_append, ← Except.ok.inj h, List.mem_map]
  constructor
  · rintro ⟨p, hp, rfl⟩; exact ⟨rfl, hp⟩
  · rintro ⟨hid, hp⟩; exact ⟨i.problem, hp, by rw [← hid]⟩

theorem IsConsistent.not_isFaulty (h : IsConsistent config s e) (p : Problem) : ¬ IsFaulty config s e p := by
  have hrecorded : ∀ {tiles}, ElementTiles.get s.reader e.id = .ok tiles → tiles = s.entryTiles e.id := fun ht =>
    Except.ok.inj (ht.symm.trans h.recorded)
  cases p with
  | countMismatch c r m =>
    rintro ⟨hc, ⟨tiles, ht, rfl⟩, rfl, hne⟩
    obtain ⟨n, hn, hsize⟩ := h.count
    obtain rfl := Except.ok.inj (hn.symm.trans hc)
    exact hne ⟨by rw [hrecorded ht, hsize], hsize⟩
  | missingMembership t =>
    rintro ⟨tiles, ht, hin, hout⟩
    rw [hrecorded ht] at hin
    exact hout hin
  | mixedStorageForm =>
    rintro ⟨-, -, ⟨t, -, hmarker⟩, t', -, v, hpayload, hv⟩
    rcases h.form with hform | hform
    · exact hv (hform t' v hpayload)
    · exact hform t [] hmarker rfl
  | missingCanonicalPayload =>
    rintro ⟨-, -, ⟨t, -, hmarker⟩, hnone⟩
    obtain ⟨payload, hsome⟩ := h.outside ⟨t, hmarker⟩
    rw [hsome] at hnone
    cases hnone
  | staleTileSet expected =>
    rintro ⟨tiles, p, ht, hp, rfl, hne⟩
    obtain ⟨p', hp', hplaced⟩ := h.placed
    obtain rfl := Except.ok.inj (hp.symm.trans hp')
    exact hne (hplaced.trans (hrecorded ht).symm)
  | missingReference r =>
    rintro ⟨hvis, hr, ids, hids, hout⟩
    obtain ⟨ids', hids', hin⟩ := h.referrers hvis r hr
    obtain rfl := Except.ok.inj (hids.symm.trans hids')
    exact hout hin

/-- **Nothing else can be wrong.**  The recorded tiles are as many as the entries, and all have one, so that they
are the tiles of the entries, and what is asked of the recorded tiles holds of these. -/
theorem Reads.isConsistent (h : Reads config s e count tiles placement) (hok : ∀ p, ¬ IsFaulty config s e p) :
    IsConsistent config s e := by
  have hagree : count.toNat = tiles.size ∧ count.toNat = (s.entryTiles e.id).size := by
    by_contra hne
    exact hok (.countMismatch count tiles.size _) ⟨h.count, ⟨tiles, h.tiles, rfl⟩, rfl, hne⟩
  have hsub : ∀ t ∈ tiles, t ∈ s.entryTiles e.id := fun t ht => by
    by_contra hout
    exact hok (.missingMembership t) ⟨tiles, h.tiles, ht, hout⟩
  have htiles : tiles = s.entryTiles e.id := TileSet.eq_of_subset hsub (by omega)
  have hplaced : Placement.tilesOf placement = tiles := by
    by_contra hne
    exact hok (.staleTileSet _) ⟨tiles, placement, h.tiles, h.placement, rfl, hne⟩
  -- no entry is left out when only the recorded tiles are looked at
  have hentry : ∀ {t v}, s.get .tiles (Membership.key ⟨t, e.id⟩) = some v → t ∈ tiles := fun {t v} hv => by
    rw [htiles, Contents.mem_entryTiles]
    exact ⟨v, hv⟩
  refine ⟨⟨placement, h.placement, hplaced.trans htiles⟩, by rw [h.tiles, htiles], ⟨count, h.count, hagree.2⟩,
    ?_, ?_, ?_⟩
  · by_contra hmixed
    simp only [not_or, not_forall] at hmixed
    obtain ⟨⟨t, v, hpayload, hv⟩, t', v', hmarker, hv'⟩ := hmixed
    obtain rfl := Decidable.not_not.1 hv'
    exact hok .mixedStorageForm ⟨tiles, h.tiles, ⟨t', hentry hmarker, hmarker⟩, t, hentry hpayload, v, hpayload, hv⟩
  · rintro ⟨t, hmarker⟩
    have hout : ExternalFeature.get s.reader e.id ≠ .ok none := fun hnone =>
      hok .missingCanonicalPayload ⟨tiles, h.tiles, ⟨t, hentry hmarker, hmarker⟩, hnone⟩
    rw [ExternalFeature.get, Contents.reader_get] at hout ⊢
    cases hget : s.get .external e.id.key with
    | none => rw [hget] at hout; exact absurd rfl hout
    | some payload => exact ⟨payload, rfl⟩
  · intro hvis r hr
    obtain ⟨ids, hids⟩ := h.referrers hvis r hr
    refine ⟨ids, hids, ?_⟩
    by_contra hout
    exact hok (.missingReference r) ⟨hvis, hr, ids, hids, hout⟩

/-! ## A whole index -/

theorem of_snapshot {divide : Division} {n : Snapshot} {report : VerifyReport}
    (h : snapshot config divide n = .ok report) : ∃ counts piece, countMemberships n = .ok counts ∧
      Piece.whole? n .elements = .ok piece ∧
      ∀ q ∈ divide piece, ∀ e ∈ q.elements, ∃ issues, problems config n.reader counts e = .ok issues := by
  unfold snapshot at h
  obtain ⟨counts, hc, h⟩ := exists_of_bind h
  obtain ⟨piece, hp, h⟩ := exists_of_bind h
  obtain ⟨parts, hparts, -⟩ := exists_of_bind h
  refine ⟨counts, piece, eq_ok_of_mapError hc, eq_ok_of_mapError hp, fun q hq e he => ?_⟩
  obtain ⟨found, hfound⟩ := exists_of_mapM hparts q hq
  exact Piece.exists_of_mapElements (eq_ok_of_mapError hfound) e he

def issuesOf (config : IndexConfig) (s : Contents) (counts : MembershipCounts) (e : Element) : List Issue :=
  (problems config s.reader counts e).toOption.getD []

theorem problems_eq_issuesOf {counts : MembershipCounts} {issues : List Issue}
    (h : problems config s.reader counts e = .ok issues) :
    problems config s.reader counts e = .ok (issuesOf config s counts e) := by
  rw [issuesOf, h]; rfl

theorem id_of_mem_issuesOf {counts : MembershipCounts} (hc : ∀ id, counts.getD id 0 = (s.entryTiles id).size)
    (e : Element) {i : Issue} (hi : i ∈ issuesOf config s counts e) : i.id = e.id := by
  cases h : problems config s.reader counts e with
  | error x => rw [issuesOf, h] at hi; cases hi
  | ok issues =>
    rw [issuesOf, h] at hi
    exact (((of_problems hc h).2 i).1 hi).1

theorem snapshot_eq_ok {divide : Division} {n : Snapshot} {counts : MembershipCounts} {piece : Piece}
    {records : Records} {f : Element → List Issue} (hc : countMemberships n = .ok counts)
    (hp : Piece.whole? n .elements = .ok piece) (hr : records.ReadIn s) (hread : records.ReadBy (divide piece))
    (hf : ∀ e ∈ records.elements, problems config n.reader counts e = .ok (f e)) (hid : ∀ e, ∀ i ∈ f e, i.id = e.id) :
    snapshot config divide n = .ok ⟨records.elements.length, records.elements.flatMap f⟩ := by
  have hparts : (divide piece).mapM (fun p =>
      (p.mapElements (problems config n.reader counts)).mapError PassError.index) =
      .ok ((divide piece).map fun q => q.elements.map f) :=
    mapM_eq_ok fun q hq => by
      rw [Piece.mapElements_eq (hread.readable q hq) fun e he =>
        hf e (hread.elements.mem_iff.1 (List.mem_flatMap.2 ⟨q, hq, he⟩)), mapError_ok]
  have hfound : ((divide piece).map fun q => q.elements.map f).flatten =
      ((divide piece).flatMap Piece.elements).map f := by
    rw [List.map_flatMap]; rfl
  unfold snapshot
  rw [hc, hp]
  simp only [mapError_ok, bind, Except.bind, hparts, pure, Except.pure, hfound]
  rw [List.length_map, hread.elements.length_eq, ← List.flatMap_def,
    inOrder_flatMap hread.elements hr.ascending_ids hid]

/-- **A report is one for every division:** the issues of the elements in their order. -/
theorem exists_of_snapshot {divide : Division} {st : Store} {n : Snapshot} {report : VerifyReport} {records : Records}
    (hd : divide.Complete) (hr : records.ReadIn st.contents) (hn : st.snapshot = .ok n)
    (h : snapshot config divide n = .ok report) : ∃ counts : MembershipCounts,
      (∀ id, counts.getD id 0 = (st.contents.entryTiles id).size) ∧
      (∀ e ∈ records.elements, problems config st.contents.reader counts e =
        .ok (issuesOf config st.contents counts e)) ∧
      ∀ divide' : Division, divide'.Complete → snapshot config divide' n =
        .ok ⟨records.elements.length, records.elements.flatMap (issuesOf config st.contents counts)⟩ := by
  obtain ⟨counts, piece, hc, hp, hdone⟩ := of_snapshot h
  obtain ⟨hreader, hpairs, hpiece, hrange⟩ := Pass.walks_of_whole? hn hp
  have hcounts := getD_countMemberships hpairs hc
  have hread : ∀ {divide : Division}, divide.Complete → records.ReadBy (divide piece) := fun hd =>
    hd.readBy hpiece hrange hr
  rw [hreader] at hdone
  have hf : ∀ e ∈ records.elements, problems config st.contents.reader counts e =
      .ok (issuesOf config st.contents counts e) := fun e he => by
    obtain ⟨q, hq, heq⟩ := List.mem_flatMap.1 ((hread hd).elements.mem_iff.2 he)
    obtain ⟨issues, hissues⟩ := hdone q hq e heq
    exact problems_eq_issuesOf hissues
  refine ⟨counts, hcounts, hf, fun divide' hd' => snapshot_eq_ok hc hp hr (hread hd') ?_ ?_⟩
  · rwa [hreader]
  · exact fun e i => id_of_mem_issuesOf hcounts e

end Verify

/-- A report lists exactly what is wrong in an index, in the order of elements. -/
structure VerifyReport.Decides (config : IndexConfig) (s : Contents) (report : VerifyReport) : Prop where
  checked : report.checked = s.elements.length
  consistent : report.issues = [] ↔ ∀ e ∈ s.elements, Verify.IsConsistent config s e
  issues : ∀ i, i ∈ report.issues ↔ ∃ e ∈ s.elements, i.id = e.id ∧ Verify.IsFaulty config s e i.problem
  ascending : report.issues.Pairwise fun i j => i.id.raw ≤ j.id.raw

namespace Verify

variable {divide : Division} {st : Store} {n : Snapshot} {report : VerifyReport}

/-- **Verifying decides consistency,** and reports the same however the elements are divided. -/
theorem snapshot_decides (hd : divide.Complete) (hk : st.contents.IsKeyed) (hn : st.snapshot = .ok n)
    (h : snapshot config divide n = .ok report) : report.Decides config st.contents ∧
      ∀ divide' : Division, divide'.Complete → snapshot config divide' n = .ok report := by
  obtain ⟨records, hr⟩ := hk.exists_readIn
  obtain ⟨counts, hcounts, hf, hreport⟩ := exists_of_snapshot hd hr hn h
  obtain rfl := Except.ok.inj (h.symm.trans (hreport divide hd))
  have hmem : ∀ i, i ∈ records.elements.flatMap (issuesOf config st.contents counts) ↔
      ∃ e ∈ st.contents.elements, i.id = e.id ∧ IsFaulty config st.contents e i.problem := fun i => by
    rw [List.mem_flatMap, hr.elements_eq]
    exact exists_congr fun e => and_congr_right fun he => (of_problems hcounts (hf e he)).2 i
  refine ⟨⟨by rw [hr.elements_eq], ?_, hmem, ?_⟩, hreport⟩
  · rw [List.eq_nil_iff_forall_not_mem]
    constructor
    · intro hnone e he
      obtain ⟨⟨count, tiles, placement, hreads⟩, -⟩ := of_problems hcounts (hf e (hr.elements_eq ▸ he))
      exact hreads.isConsistent fun p hp => hnone ⟨e.id, p⟩ ((hmem _).2 ⟨e, he, rfl, hp⟩)
    · intro hall i hi
      obtain ⟨e, he, -, hfaulty⟩ := (hmem i).1 hi
      exact (hall e he).not_isFaulty _ hfaulty
  · rw [← inOrder_flatMap (.refl _) hr.ascending_ids fun e i => id_of_mem_issuesOf hcounts e]
    exact sorted_inOrder _

/-- A way with as many entries as recorded tiles, but its entry is in another tile. -/
theorem snapshot_decides_displaced :
    let way : Element := ⟨⟨4611686018427387911⟩, 1, true, ∅, .way [⟨3⟩, ⟨4⟩]⟩
    let damaged : Contents := (((Contents.empty.put .elements way.id.key way.encode).put .tileCounts
      way.id.key [1, 0, 0, 0, 0, 0, 0, 0]).put .elementTiles way.id.key (TilePosition.key ⟨5⟩)).put .tiles
      (Membership.key ⟨⟨6⟩, way.id⟩) [1]
    let a : Atlas := ⟨.flat ⟨damaged, true⟩, {}⟩
    ∃ report, a.verify = .ok report ∧ report.Decides a.config damaged ∧
      ⟨way.id, .missingMembership ⟨5⟩⟩ ∈ report.issues := by
  intro way damaged a
  have hd : Division.whole.Complete := Division.fair_whole.complete
  have hway : way.IsStorable := by decide +kernel
  have hk : damaged.IsKeyed := Contents.isKeyed_of_one hway fun k => by simp [damaged, Contents.get_put]
  obtain ⟨report, hreport⟩ : ∃ report, a.verify = .ok report := by
    have hok : a.verify.isOk = true := by decide +kernel
    cases h : a.verify with
    | error x => rw [h] at hok; cases hok
    | ok report => exact ⟨report, rfl⟩
  obtain ⟨n, p, hn, -⟩ := Store.isWalkable_iff.1 (show a.store.IsWalkable from rfl)
  have hrun : snapshot a.config .whole n = .ok report := by rw [← hreport, Atlas.verify, hn]
  have hkeyed : a.store.contents.IsKeyed := hk
  obtain ⟨hdecides, -⟩ := snapshot_decides hd hkeyed hn hrun
  have hlisted : way ∈ damaged.elements :=
    hk.mem_elements.2 ⟨way.encode, by simp [damaged, Contents.get_put], Element.decode_encode hway⟩
  have hfaulty : IsFaulty a.config damaged way (.missingMembership ⟨5⟩) :=
    ⟨.ofList [(⟨5⟩ : TilePosition)], by decide +kernel, by decide +kernel, by decide +kernel⟩
  exact ⟨report, hreport, hdecides, (hdecides.issues _).2 ⟨way, hlisted, rfl, hfaulty⟩⟩

end Verify
end TileAtlas
