import TileAtlas.Proofs.Pass.References
import TileAtlas.Proofs.Pass.Tiles
/-!
# Passes that fail

A pass takes nothing back that its steps before the failure had written.  Its own columns are empty when it begins to
walk the elements, and what it writes there is never refused, so that a walk stops for want of a snapshot, or because
the segments of one are rejected, or at the first piece that cannot be read (`Pass.Halts`).  Which piece this is, and so
what was finished before it, follows from the store and the division (`Pass.Halts.unique`).

What a pass leaves is what the finished pieces wrote, each as a whole, into the columns that it had emptied
(`Pass.Unfinished`, `Pass.Fails.recomputeReferences`); a rebuild of tiles that fails before it empties anything leaves
the store alone (`Pass.Fails.rebuildTiles`).
-/
namespace TileAtlas

theorem Piece.mapElements_eq_filterMap {α : Type} {p : Piece} {f : Element → Except IndexError α} {as : List α}
    (h : p.mapElements f = .ok as) : as = p.elements.filterMap fun e => (f e).toOption := by
  rw [mapElements] at h
  rw [← filterMap_toOption_of_mapM h, elements, List.filterMap_filterMap]
  refine List.filterMap_congr fun pair _ => ?_
  cases Elements.ofPair pair <;> rfl

/-! ## What passes write is not refused -/

theorem ReferenceLayout.fits_add (l : ReferenceLayout) (referent referrer : ElementId) :
    (l.add referent referrer).Fits := by
  cases l with
  | merged =>
    refine ⟨.referenceSet, rfl, ?_⟩
    rw [MergeOperator.Fits, ReferenceCounts.adding, ReferenceCounts.length_encodeRecord]
  | legacy => intro m hm; cases hm; rfl

theorem Pass.fits_referenceOps (l : ReferenceLayout) (e : Element) : ∀ op ∈ referenceOps l e, op.Fits := by
  intro op hop
  rw [referenceOps] at hop
  split at hop
  · obtain ⟨r, -, rfl⟩ := List.mem_map.1 hop
    exact l.fits_add r e.id
  · cases hop

theorem Membership.fits_add (tiles : List TilePosition) (id : ElementId) (payload : Bytes) :
    ∀ op ∈ add tiles id payload, op.Fits := fun op hop => by
  obtain ⟨t, -, hop⟩ := List.mem_flatMap.1 hop
  simp only [List.mem_cons, List.not_mem_nil, or_false] at hop
  rcases hop with rfl | rfl
  · exact Column.fits_of_none rfl _
  · exact Column.fits_of_none rfl _

theorem Placement.fits_write (id : ElementId) (p : Option Placement) : ∀ op ∈ write id p, op.Fits := fun op hop => by
  cases p with
  | none =>
    obtain rfl := List.mem_singleton.1 hop
    exact trivial
  | some p =>
    rcases List.mem_append.1 hop with hop | hop
    · rw [writeTiles] at hop
      split at hop
      · exact Membership.fits_add _ id p.payload op hop
      · rcases List.mem_cons.1 hop with rfl | hop
        · exact Column.fits_of_none rfl _
        · exact Membership.fits_add _ id [] op hop
    · simp only [List.mem_cons, List.not_mem_nil, or_false] at hop
      rcases hop with rfl | rfl
      · exact ⟨.counter, rfl, Counter.fits_encode _⟩
      · exact Column.fits_of_none rfl _

namespace Pass

variable {α β γ : Type} {p : Pass α} {s s' : Store} {e : PassError}

/-- A pass fails, with this error, and leaves this store. -/
def Fails (p : Pass α) (s : Store) (e : PassError) (s' : Store) : Prop := (ExceptT.run p).run s = (.error e, s')

theorem not_fails_pure (a : α) : ¬ Fails (pure a) s e s' := fun h => by cases h

theorem Fails.of_bind {f : α → Pass β} (h : (p >>= f).Fails s e s') :
    p.Fails s e s' ∨ ∃ a s₁, p.Does s a s₁ ∧ (f a).Fails s₁ e s' := by
  unfold Fails Does at *
  rw [ExceptT.run_bind, StateT.run_bind] at h
  generalize p.run.run s = out at h ⊢
  obtain ⟨x | a, s₁⟩ := out
  · cases h
    exact .inl rfl
  · exact .inr ⟨a, s₁, rfl, h⟩

theorem Fails.of_eq {r : Except PassError α} (h : (of r).Fails s e s') : r = .error e ∧ s' = s := by
  cases h
  exact ⟨rfl, rfl⟩

theorem Fails.ofIndex_eq {r : Except IndexError α} (h : (ofIndex r).Fails s e s') :
    ∃ x, r = .error x ∧ e = .index x ∧ s' = s := by
  obtain ⟨hr, hs⟩ := Fails.of_eq h
  obtain ⟨x, hx, he⟩ := eq_error_of_mapError hr
  exact ⟨x, hx, he, hs⟩

theorem Fails.snapshot_eq (h : snapshot.Fails s e s') :
    ∃ x, s.snapshot = .error x ∧ e = .index (.store x) ∧ s' = s := by
  change (s.snapshot.mapError fun e => PassError.index (.store e), s) = (Except.error e, s') at h
  obtain ⟨hn, hs⟩ := Prod.mk.inj h
  obtain ⟨x, hx, he⟩ := eq_error_of_mapError hn
  exact ⟨x, hx, he, hs.symm⟩

theorem Fails.elements_eq {n : Snapshot} (h : (elements n).Fails s e s') :
    ∃ x, Piece.whole? n .elements = .error x ∧ e = .scan x ∧ s' = s := by
  obtain ⟨hr, hs⟩ := Fails.of_eq h
  obtain ⟨x, hx, he⟩ := eq_error_of_mapError hr
  exact ⟨x, hx, he, hs⟩

/-- Only a batch that is refused fails. -/
theorem not_fails_write {b : Batch} {t : Contents} (hb : s.contents.apply b = .ok t) : ¬ (write b).Fails s e s' := by
  intro h
  obtain ⟨s₁, hs₁, -⟩ := Store.write_of_contents hb
  rw [Fails, write, ExceptT.run_mk] at h
  simp only [StateT.run, hs₁] at h
  cases h

/-! ## Pieces -/

/-- Read the elements of a piece, then write what follows in one batch. -/
def workOn (read : Element → Except IndexError γ) (batch : List γ → Batch) (result : List γ → β) (q : Piece) : Pass β :=
  ofIndex (q.mapElements read) >>= fun found => write (batch found) >>= fun _ => pure (result found)

theorem writeReferences_eq (l : ReferenceLayout) (q : Piece) : writeReferences l q =
    workOn (fun x => .ok (referenceOps l x)) List.flatten (fun found => found.flatten.length) q := rfl

theorem placePiece_eq (config : IndexConfig) (r : Reader) (q : Piece) : placePiece config r q =
    workOn (placeElement config r) (List.flatMap (·.2)) (fun placed => .sum (placed.map (·.1))) q := rfl

section Work

variable {read : Element → Except IndexError γ} {batch : List γ → Batch} {result : List γ → β} {q : Piece}

theorem Does.workOn_eq {b : β} (h : (workOn read batch result q).Does s b s') :
    ∃ found, q.mapElements read = .ok found ∧ s.contents.apply (batch found) = .ok s'.contents := by
  obtain ⟨found, s₁, hfound, hrest⟩ := h.exists_of_bind
  obtain ⟨hread, rfl⟩ := hfound.ofIndex_eq
  obtain ⟨u, s₂, hwrite, hpure⟩ := hrest.exists_of_bind
  cases hpure
  exact ⟨found, hread, Store.apply_of_write hwrite.write_eq⟩

/-- Work whose batch would not be refused fails only if its elements cannot be read, and writes nothing then. -/
theorem Fails.workOn_eq (h : (workOn read batch result q).Fails s e s')
    (hbatch : ∀ found, q.mapElements read = .ok found → ∃ t, s.contents.apply (batch found) = .ok t) :
    ∃ x, q.mapElements read = .error x ∧ e = .index x ∧ s' = s := by
  rcases h.of_bind with hfound | ⟨found, s₁, hfound, hrest⟩
  · exact hfound.ofIndex_eq
  · obtain ⟨hread, rfl⟩ := hfound.ofIndex_eq
    obtain ⟨t, ht⟩ := hbatch found hread
    rcases hrest.of_bind with hwrite | ⟨u, s₂, -, hpure⟩
    · exact absurd hwrite (not_fails_write ht)
    · exact absurd hpure (not_fails_pure _)

end Work

/-- **The pieces before the one that fails are finished,** and those behind it are not begun. -/
theorem Fails.each {work : Piece → Pass α} : ∀ {pieces : List Piece} {s : Store}, (each work pieces).Fails s e s' →
    ∃ finished failing rest results s₁, pieces = finished ++ failing :: rest ∧ (each work finished).Does s results s₁ ∧
      (work failing).Fails s₁ e s'
  | [], s, h => absurd h (not_fails_pure _)
  | q :: pieces, s, h => by
    rw [Pass.each, List.mapM_cons] at h
    rcases h.of_bind with hq | ⟨a, s₁, hq, h⟩
    · exact ⟨[], q, pieces, [], s, rfl, does_pure [] s, hq⟩
    · rcases h.of_bind with hrest | ⟨as, s₂, -, hpure⟩
      · obtain ⟨finished, failing, rest, results, s₂, rfl, hfinished, hfailing⟩ := Fails.each hrest
        refine ⟨q :: finished, failing, rest, a :: results, s₂, rfl, ?_, hfailing⟩
        rw [Pass.each, List.mapM_cons]
        exact hq.bind (hfinished.bind (does_pure _ s₂))
      · exact absurd hpure (not_fails_pure _)

theorem Does.exists_of_each_cons {work : Piece → Pass α} {q : Piece} {pieces : List Piece} {results : List α}
    (h : (each work (q :: pieces)).Does s results s') :
    ∃ a s₁ as, (work q).Does s a s₁ ∧ (each work pieces).Does s₁ as s' := by
  rw [Pass.each, List.mapM_cons] at h
  obtain ⟨a, s₁, hq, h⟩ := h.exists_of_bind
  obtain ⟨as, s₂, hrest, hpure⟩ := h.exists_of_bind
  cases hpure
  exact ⟨a, s₁, as, hq, hrest⟩

theorem Does.each_mem {work : Piece → Pass α} : ∀ {pieces : List Piece} {s : Store} {results : List α},
    (each work pieces).Does s results s' → ∀ q ∈ pieces, ∃ t a t', (work q).Does t a t'
  | [], _, _, _, q, hq => absurd hq List.not_mem_nil
  | q :: pieces, s, results, h, x, hx => by
    obtain ⟨a, s₁, as, hq, hrest⟩ := h.exists_of_each_cons
    rcases List.mem_cons.1 hx with rfl | hx
    · exact ⟨s, a, s₁, hq⟩
    · exact Does.each_mem hrest x hx

/-- The writes that the elements of some pieces call for. -/
def writesOf (ops : Element → List Op) (pieces : List Piece) : List Op :=
  pieces.flatMap fun q => q.elements.flatMap ops

theorem mem_writesOf {ops : Element → List Op} {pieces : List Piece} {op : Op} (h : op ∈ writesOf ops pieces) :
    ∃ x, op ∈ ops x := by
  obtain ⟨q, -, hq⟩ := List.mem_flatMap.1 h
  obtain ⟨x, -, hx⟩ := List.mem_flatMap.1 hq
  exact ⟨x, hx⟩

theorem Does.each_writes {work : Piece → Pass α} {ops : Element → List Op}
    (hwork : ∀ {q s a s'}, (work q).Does s a s' → s.contents.apply (q.elements.flatMap ops) = .ok s'.contents) :
    ∀ {pieces : List Piece} {s : Store} {results : List α}, (each work pieces).Does s results s' →
      s.contents.apply (writesOf ops pieces) = .ok s'.contents
  | [], s, results, h => by cases h; rfl
  | q :: pieces, s, results, h => by
    obtain ⟨a, s₁, as, hq, hrest⟩ := h.exists_of_each_cons
    rw [writesOf, List.flatMap_cons, Contents.apply_append (hwork hq)]
    exact Does.each_writes hwork hrest

/-- **Work that writes what is not refused fails at the first piece that cannot be read,** and leaves what the pieces
before it wrote. -/
theorem Fails.eachWork {read : Element → Except IndexError γ} {batch : List γ → Batch} {result : List γ → β}
    {ops : Element → List Op} {pieces : List Piece}
    (hbatch : ∀ {q : Piece} {found}, q.mapElements read = .ok found → batch found = q.elements.flatMap ops)
    (hops : ∀ x, ∀ op ∈ ops x, op.Fits ∧ s.contents.Fits op.column)
    (h : (Pass.each (workOn read batch result) pieces).Fails s e s') :
    ∃ finished failing rest x, pieces = finished ++ failing :: rest ∧
      (∀ q ∈ finished, ∃ found, q.mapElements read = .ok found) ∧ failing.mapElements read = .error x ∧ e = .index x ∧
      s.contents.apply (writesOf ops finished) = .ok s'.contents := by
  obtain ⟨finished, failing, rest, results, s₁, hpieces, hfinished, hfailing⟩ := h.each
  have happly : s.contents.apply (writesOf ops finished) = .ok s₁.contents := hfinished.each_writes fun hdone => by
    obtain ⟨found, hread, hwrite⟩ := hdone.workOn_eq
    rwa [hbatch hread] at hwrite
  have hfits : ∀ op ∈ writesOf ops finished, op.Fits := fun op hop => by
    obtain ⟨x, hx⟩ := mem_writesOf hop
    exact (hops x op hx).1
  obtain ⟨x, hx, rfl, rfl⟩ := hfailing.workOn_eq fun found hread => by
    -- the columns are still such that the next batch would not be refused
    rw [hbatch hread]
    refine Contents.exists_apply_of_fits fun op hop => ?_
    obtain ⟨x, -, hop⟩ := List.mem_flatMap.1 hop
    exact (hops x op hop).imp_right fun hcolumn => hcolumn.apply hfits happly
  refine ⟨finished, failing, rest, x, hpieces, fun q hq => ?_, hx, rfl, happly⟩
  obtain ⟨t, b, t', hdone⟩ := hfinished.each_mem q hq
  obtain ⟨found, hread, -⟩ := hdone.workOn_eq
  exact ⟨found, hread⟩

/-! ## Where a walk stops -/

/-- Why a walk over the elements of a store stops, and the pieces that are finished then: there is no snapshot, or its
segments are rejected, so that none is begun; or the elements of a piece cannot be read, while those of every piece
before it could. -/
inductive Halts (divide : Division) (read : Reader → Element → Except IndexError γ) (s : Store) :
    PassError → List Piece → Prop where
  | unavailable {x : StoreError} (hn : s.snapshot = .error x) : Halts divide read s (.index (.store x)) []
  | rejected {n : Snapshot} {x : ScanError} (hn : s.snapshot = .ok n) (hp : Piece.whole? n .elements = .error x) :
    Halts divide read s (.scan x) []
  | broken {n : Snapshot} {p failing : Piece} {finished rest : List Piece} {x : IndexError} (hn : s.snapshot = .ok n)
    (hp : Piece.whole? n .elements = .ok p) (hdivide : divide p = finished ++ failing :: rest)
    (hfinished : ∀ q ∈ finished, ∃ found, q.mapElements (read n.reader) = .ok found)
    (hfailing : failing.mapElements (read n.reader) = .error x) : Halts divide read s (.index x) finished

/-- **A walk stops in one place.** -/
theorem Halts.unique {divide : Division} {read : Reader → Element → Except IndexError γ} {e' : PassError}
    {finished finished' : List Piece} (h : Halts divide read s e finished) (h' : Halts divide read s e' finished') :
    e' = e ∧ finished' = finished := by
  cases h with
  | unavailable hn =>
    cases h' with
    | unavailable hn' => exact ⟨by rw [Except.error.inj (hn.symm.trans hn')], rfl⟩
    | rejected hn' _ => cases hn.symm.trans hn'
    | broken hn' _ _ _ _ => cases hn.symm.trans hn'
  | rejected hn hp =>
    cases h' with
    | unavailable hn' => cases hn.symm.trans hn'
    | rejected hn' hp' =>
      obtain rfl := Except.ok.inj (hn.symm.trans hn')
      exact ⟨by rw [Except.error.inj (hp.symm.trans hp')], rfl⟩
    | broken hn' hp' _ _ _ =>
      obtain rfl := Except.ok.inj (hn.symm.trans hn')
      cases hp.symm.trans hp'
  | broken hn hp hdivide hfinished hfailing =>
    cases h' with
    | unavailable hn' => cases hn.symm.trans hn'
    | rejected hn' hp' =>
      obtain rfl := Except.ok.inj (hn.symm.trans hn')
      cases hp.symm.trans hp'
    | broken hn' hp' hdivide' hfinished' hfailing' =>
      obtain rfl := Except.ok.inj (hn.symm.trans hn')
      obtain rfl := Except.ok.inj (hp.symm.trans hp')
      obtain ⟨rfl, rfl⟩ := eq_of_first_failure hfinished hfailing hfinished' hfailing' (hdivide.symm.trans hdivide')
      exact ⟨by rw [Except.error.inj (hfailing.symm.trans hfailing')], rfl⟩

theorem Fails.walk {divide : Division} (read : Reader → Element → Except IndexError γ) {batch : List γ → Batch}
    {result : List γ → β} {ops : Element → List Op} {work : Snapshot → Piece → Pass β}
    {f : Snapshot → Piece → List β → α}
    (hwork : ∀ n q, work n q = workOn (read n.reader) batch result q)
    (hbatch : ∀ {q : Piece} {found}, q.mapElements (read s.reader) = .ok found → batch found = q.elements.flatMap ops)
    (hops : ∀ x, ∀ op ∈ ops x, op.Fits ∧ s.contents.Fits op.column)
    (h : (snapshot >>= fun n => elements n >>= fun p =>
      Pass.each (work n) (divide p) >>= fun as => pure (f n p as)).Fails s e s') :
    ∃ finished, Halts divide read s e finished ∧ s.contents.apply (writesOf ops finished) = .ok s'.contents := by
  rcases h.of_bind with hsnapshot | ⟨n, s₁, hsnapshot, hrest⟩
  · obtain ⟨x, hx, rfl, rfl⟩ := hsnapshot.snapshot_eq
    exact ⟨[], .unavailable hx, rfl⟩
  obtain ⟨hn, rfl⟩ := hsnapshot.snapshot_eq
  rcases hrest.of_bind with hwhole | ⟨p, s₂, hwhole, hrest'⟩
  · obtain ⟨x, hx, rfl, rfl⟩ := hwhole.elements_eq
    exact ⟨[], .rejected hn hx, rfl⟩
  obtain ⟨hp, rfl⟩ := Does.of_eq hwhole
  rcases hrest'.of_bind with hwalk | ⟨as, s₃, -, hpure⟩
  · have hreader : n.reader = s₂.reader := (Store.snapshot_reads hn).1.trans s₂.reader_eq.symm
    rw [funext (hwork n), hreader] at hwalk
    obtain ⟨finished, failing, rest, x, hdivide, hfinished, hx, rfl, happly⟩ := hwalk.eachWork hbatch hops
    rw [← hreader] at hfinished hx
    exact ⟨finished, .broken hn (eq_ok_of_mapError hp) hdivide hfinished hx, happly⟩
  · exact absurd hpure (not_fails_pure _)

/-- A batch cleared the store, the walk over its elements then stopped with this error, and the contents since are what
the finished pieces wrote. -/
def Unfinished (clear : Batch) (divide : Division) (read : Reader → Element → Except IndexError γ)
    (ops : Reader → Element → List Op) (s : Store) (e : PassError) (after : Contents) : Prop :=
  ∃ cleared finished, s.write clear = .ok cleared ∧ Halts divide read cleared e finished ∧
    cleared.contents.apply (writesOf (ops cleared.reader) finished) = .ok after

section Unfinished

variable {clear : Batch} {divide : Division} {read : Reader → Element → Except IndexError γ}
  {ops : Reader → Element → List Op} {after after' : Contents} {e' : PassError}

/-- There is one way for a pass to be unfinished, and one error. -/
theorem Unfinished.unique (h : Unfinished clear divide read ops s e after)
    (h' : Unfinished clear divide read ops s e' after') : e' = e ∧ after' = after := by
  obtain ⟨cleared, finished, hclear, hhalts, happly⟩ := h
  obtain ⟨cleared', finished', hclear', hhalts', happly'⟩ := h'
  obtain rfl := Except.ok.inj (hclear.symm.trans hclear')
  obtain ⟨he, rfl⟩ := hhalts.unique hhalts'
  exact ⟨he, Except.ok.inj (happly'.symm.trans happly)⟩

end Unfinished

/-! ## Whole passes -/

/-- **When references cannot be recomputed,** their column was emptied, and holds what the finished pieces wrote. -/
theorem Fails.recomputeReferences {l : ReferenceLayout} {divide : Division}
    (h : (recomputeReferences l divide).Fails s e s') :
    Unfinished [.deleteRange .references .all] divide (fun _ x => .ok (referenceOps l x)) (fun _ => referenceOps l) s e
      s'.contents := by
  rcases h.of_bind with hclear | ⟨u, s₁, hclear, hwalk⟩
  · exact absurd hclear (not_fails_write rfl)
  have hcontents : s.contents.apply [.deleteRange .references .all] = .ok s₁.contents :=
    Store.apply_of_write hclear.write_eq
  have hempty : ∀ k, s₁.contents.get .references k = none := fun k => by
    rw [← Except.ok.inj hcontents, Contents.get_deleteRange]; simp
  have hbatch : ∀ {q : Piece} {found}, q.mapElements (fun x => .ok (referenceOps l x)) = .ok found →
      found.flatten = q.elements.flatMap (referenceOps l) := fun {q found} hread => by
    rw [Piece.mapElements_eq_filterMap hread, List.flatMap_def]
    exact congrArg List.flatten (congrFun List.filterMap_eq_map q.elements)
  have hops : ∀ x, ∀ op ∈ referenceOps l x, op.Fits ∧ s₁.contents.Fits op.column := fun x op hop => by
    rw [ReferenceLayout.column_referenceOps x op hop]
    exact ⟨fits_referenceOps l x op hop, Contents.fits_of_empty hempty⟩
  obtain ⟨finished, hhalts, happly⟩ := Fails.walk (fun _ x => .ok (referenceOps l x))
    (fun _ q => writeReferences_eq l q) hbatch hops hwalk
  exact ⟨s₁, finished, hclear.write_eq, hhalts, happly⟩

/-- The writes that put an element where it belongs, if this can be told. -/
def placementOps (config : IndexConfig) (r : Reader) (e : Element) : List Op :=
  ((config.place r e).toOption.map (Placement.write e.id)).getD []

theorem mem_placementOps {config : IndexConfig} {r : Reader} {x : Element} {op : Op}
    (h : op ∈ placementOps config r x) : ∃ p, op ∈ Placement.write x.id p := by
  rw [placementOps] at h
  cases hp : (config.place r x).toOption with
  | none => rw [hp] at h; cases h
  | some p => rw [hp] at h; exact ⟨p, h⟩

theorem column_placementOps {config : IndexConfig} {r : Reader} {x : Element} {op : Op}
    (h : op ∈ placementOps config r x) : op.column.isPlacing = true := by
  obtain ⟨p, hp⟩ := mem_placementOps h
  exact (Placement.places_write x.id p op hp).column

theorem flatMap_placed {config : IndexConfig} {r : Reader} {q : Piece} {placed : List (TileRebuild × List Op)}
    (h : q.mapElements (placeElement config r) = .ok placed) :
    placed.flatMap (·.2) = q.elements.flatMap (placementOps config r) := by
  rw [Piece.mapElements_eq_filterMap h]
  generalize q.elements = es
  induction es with
  | nil => rfl
  | cons e es ih =>
    rw [List.flatMap_cons, ← ih, List.filterMap_cons, placementOps, placeElement]
    cases config.place r e <;> rfl

/-- Columns of placements that were emptied can be merged into. -/
theorem fits_of_cleared {s : Contents} (h : Placements.StoredIn (fun _ => none) s) {c : Column}
    (hc : c.isPlacing = true) : s.Fits c := by
  cases c with
  | tileCounts =>
    refine Contents.fits_of_empty fun k => ?_
    have hnone : Placements.StoredIn (fun _ => none) Contents.empty :=
      Placements.storedIn_empty fun _ _ => Contents.get_empty _
    rw [hnone.unique h (.inr rfl) k, Contents.get_empty]
  | references => cases hc
  | _ => exact Contents.fits_of_none rfl

/-- **When tiles cannot be rebuilt,** nothing has happened, because there is no snapshot or a list of tiles cannot be
read, or their columns were emptied, and hold what the finished pieces wrote. -/
theorem Fails.rebuildTiles {config : IndexConfig} {divide : Division} (h : (rebuildTiles config divide).Fails s e s') :
    (∃ x, s.snapshot = .error x ∧ e = .index (.store x) ∧ s' = s) ∨
    (∃ n x, s.snapshot = .ok n ∧ recordedTiles n = .error x ∧ e = .index x ∧ s' = s) ∨
    ∃ n old, s.snapshot = .ok n ∧ recordedTiles n = .ok old ∧
      Unfinished (clearTileOps old) divide (placeElement config) (placementOps config) s e s'.contents := by
  rcases h.of_bind with hsnapshot | ⟨n, s₁, hsnapshot, hrest⟩
  · exact .inl hsnapshot.snapshot_eq
  obtain ⟨hn, rfl⟩ := hsnapshot.snapshot_eq
  rcases hrest.of_bind with hread | ⟨old, s₂, hread, hrest'⟩
  · obtain ⟨x, hx, he, hs⟩ := hread.ofIndex_eq
    exact .inr (.inl ⟨n, x, hn, hx, he, hs⟩)
  obtain ⟨hold, rfl⟩ := hread.ofIndex_eq
  obtain ⟨t, ht, hnone, -, -⟩ := apply_clearTileOps old s₂.contents
  rcases hrest'.of_bind with hclear | ⟨u, s₃, hclear, hwalk⟩
  · exact absurd hclear (not_fails_write ht)
  obtain rfl : t = s₃.contents := Except.ok.inj (ht.symm.trans (Store.apply_of_write hclear.write_eq))
  have hops : ∀ x, ∀ op ∈ placementOps config s₃.reader x, op.Fits ∧ s₃.contents.Fits op.column := fun x op hop => by
    obtain ⟨p, hp⟩ := mem_placementOps hop
    exact ⟨Placement.fits_write x.id p op hp, fits_of_cleared hnone (column_placementOps hop)⟩
  obtain ⟨finished, hhalts, happly⟩ := Fails.walk (placeElement config)
    (fun n q => placePiece_eq config n.reader q) flatMap_placed hops hwalk
  exact .inr (.inr ⟨n, old, hn, hold, s₃, finished, hclear.write_eq, hhalts, happly⟩)

end Pass
end TileAtlas
