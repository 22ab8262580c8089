import TileAtlas.Pass.Stats
import TileAtlas.Proofs.Pass.Verify
import TileAtlas.Proofs.Scan.Runs
import TileAtlas.Proofs.Update.Apply
/-!
# Passes that only read

What an index derived from its records can all be read: the tiles of every element and their number, its placement
and whatever refers to what it is made of (`Ledger.StoredIn.exists_reads`).  So verifying and counting come to an end
on a store that can be walked, however its elements are divided among workers (`Verify.exists_report`,
`IndexStats.exists_ofSnapshot`).
-/
namespace TileAtlas

variable {config : IndexConfig} {l : Ledger} {s : Contents} {n : Snapshot}

/-- Every key of the column of tiles is one of a membership. -/
theorem Placements.StoredIn.exists_memberships {places : Placements} (h : places.StoredIn s)
    (hn : ∀ c start, n.pairsFrom c start = (Columns.get s c).scan (.startingAt start)) :
    ∃ ms, (n.pairsFrom .tiles []).mapM (fun p => Membership.ofKey p.1) = .ok ms := by
  refine exists_mapM fun p hp => ?_
  rw [hn] at hp
  obtain ⟨m, hm⟩ := h.entryKeys (Table.mem_scan_startingAt.1 (show (p.1, p.2) ∈ _ from hp)).1
  exact ⟨m, Membership.ofKey_eq_ok.2 hm⟩

/-- **What there is of an element can be read.** -/
theorem Ledger.StoredIn.exists_reads (h : l.StoredIn config s) (e : Element) :
    ∃ count tiles placement, Verify.Reads config s e count tiles placement := by
  have hstands : (s.standing e.id).ReadsAs (config.placeAt l.records e.id) :=
    h.placed.readsAs fun _ => IndexConfig.placeAt_valid
  obtain ⟨count, hcount, -⟩ := hstands.count
  refine ⟨count, _, _, hcount, hstands.list, config.place_eq h.indexed.readIn.toReadAt e, fun _ r _ => ?_⟩
  obtain ⟨ids, hids, -⟩ := h.indexed.links.referrers r
  exact ⟨ids, hids⟩

namespace Verify

variable {e : Element} {count : UInt64} {tiles : TileSet} {placement : Option Placement}

/-- An element that can be read can be checked. -/
theorem Reads.exists_problems (h : Reads config s e count tiles placement) (counts : MembershipCounts) :
    ∃ issues, problems config s.reader counts e = .ok issues := by
  have htiles : ∃ ps, tileProblems s.reader e.id (counts.getD e.id 0) = .ok ps := by
    rw [tileProblems, h.count, h.tiles]
    simp only [Contents.reader_getMany, ExternalFeature.get, Contents.reader_get, asking, mapError_ok]
    exact ⟨_, rfl⟩
  have hplacement : ∃ ps, placementProblems config s.reader e = .ok ps := by
    rw [placementProblems, h.placement, h.tiles]
    exact ⟨_, rfl⟩
  have hreferences : ∃ ps, referenceProblems config.referenceLayout s.reader e = .ok ps := by
    rw [referenceProblems]
    split
    · rename_i hvisible
      obtain ⟨found, hfound⟩ := exists_mapM (l := e.referents)
        (f := fun r => do
          return if (← config.referenceLayout.referrers s.reader r).contains e.id then []
            else [Problem.missingReference r]) fun r hr => by
        obtain ⟨ids, hids⟩ := h.referrers hvisible r hr
        rw [hids]
        exact ⟨_, rfl⟩
      rw [hfound]
      exact ⟨_, rfl⟩
    · exact ⟨[], rfl⟩
  obtain ⟨ts, hts⟩ := htiles
  obtain ⟨ps, hps⟩ := hplacement
  obtain ⟨rs, hrs⟩ := hreferences
  rw [problems, hts, hps, hrs]
  exact ⟨_, rfl⟩

/-- **Verifying comes to a report.** -/
theorem exists_report {st : Store} (h : l.StoredIn config st.contents) (hs : st.IsWalkable) (hn : st.snapshot = .ok n)
    {divide : Division} (hd : divide.Complete) : ∃ report, snapshot config divide n = .ok report := by
  obtain ⟨n', piece, hn', hpiece⟩ := Store.isWalkable_iff.1 hs
  obtain rfl := Except.ok.inj (hn.symm.trans hn')
  have hwalks := Pass.walks_of_whole? hn hpiece
  obtain ⟨ms, hms⟩ := h.placed.exists_memberships hwalks.pairsFrom
  have hcounts : ∃ counts, countMemberships n = .ok counts := by
    rw [countMemberships, hms]
    exact ⟨_, rfl⟩
  obtain ⟨counts, hcounts⟩ := hcounts
  have hr := h.indexed.readIn
  refine ⟨_, snapshot_eq_ok (f := issuesOf config st.contents counts) hcounts hpiece hr
    (hd.readBy hwalks.piece hwalks.range hr) (fun e _ => ?_)
    fun e _ => id_of_mem_issuesOf (getD_countMemberships hwalks.pairsFrom hcounts) e⟩
  obtain ⟨_, _, _, hreads⟩ := h.exists_reads e
  obtain ⟨issues, hissues⟩ := hreads.exists_problems counts
  rw [hwalks.reader]
  exact problems_eq_issuesOf hissues

end Verify

/-- **Everything in an index can be counted.** -/
theorem IndexStats.exists_ofSnapshot {st : Store} (h : l.StoredIn config st.contents) (hs : st.IsWalkable)
    (hn : st.snapshot = .ok n) : ∃ stats, ofSnapshot n = .ok stats := by
  obtain ⟨n', piece, hn', hpiece⟩ := Store.isWalkable_iff.1 hs
  obtain rfl := Except.ok.inj (hn.symm.trans hn')
  have hwalks := Pass.walks_of_whole? hn hpiece
  obtain ⟨ms, hms⟩ := h.placed.exists_memberships hwalks.pairsFrom
  have hd : Division.whole.Complete := Division.fair_whole.complete
  have hread : l.records.ReadBy [piece] := hd.readBy hwalks.piece hwalks.range h.indexed.readIn
  have helements : piece.mapElements .ok = .ok (piece.elements.map id) :=
    Piece.mapElements_eq (hread.readable piece List.mem_cons_self) fun _ _ => rfl
  have hdirtyTiles : ∃ k, DirtyTiles.count n.reader = .ok k := by
    rw [hwalks.reader, DirtyTiles.count, Contents.reader_scan]
    exact ⟨_, rfl⟩
  have hdirtyElements : ∃ k, DirtyElements.count n.reader = .ok k := by
    rw [hwalks.reader, DirtyElements.count, Contents.reader_scan]
    exact ⟨_, rfl⟩
  obtain ⟨tiles, htiles⟩ := hdirtyTiles
  obtain ⟨elements, hdirty⟩ := hdirtyElements
  rw [ofSnapshot, hpiece, mapError_ok]
  simp only [bind, Except.bind, helements, hms, htiles, hdirty, mapError_ok]
  exact ⟨_, rfl⟩

end TileAtlas
