import TileAtlas.Proofs.Store.Meaning
import TileAtlas.Proofs.Store.Upkeep
/-!
# Histories of stores

A store is offered batches one after another, and a batch that it refuses leaves it as it was.  In between, a
store of segments may be flushed, and its columns laid out anew.  Whatever a store is made of, and wherever
upkeep falls, it refuses the same batches for the same reasons as a sorted table for each column does, and
reads like these tables afterwards (`StoreEvent.run_agrees`).
-/
namespace TileAtlas

/-- What happens to a store; only one of segments has upkeep to do. -/
inductive StoreEvent where
  | write (b : Batch)
  | flush
  | compact (c : Column) (per : Nat)

/-- How something takes a batch, and what upkeep does to it. -/
structure Keeping (σ : Type) where
  write : σ → Batch → Except StoreError σ
  flush : σ → σ := id
  compact : σ → Column → Nat → σ := fun s _ _ => s

/-- What came of some events, and for each batch why it was refused, if it was. -/
structure History (σ : Type) where
  state : σ
  refusals : List (Option StoreError) := []

namespace Keeping

variable {σ : Type}

def step (w : Keeping σ) (h : History σ) : StoreEvent → History σ
  | .write b =>
    match w.write h.state b with
    | .ok s => ⟨s, h.refusals ++ [none]⟩
    | .error e => ⟨h.state, h.refusals ++ [some e]⟩
  | .flush => { h with state := w.flush h.state }
  | .compact c per => { h with state := w.compact h.state c per }

def run (w : Keeping σ) (start : σ) (events : List StoreEvent) : History σ := events.foldl w.step { state := start }

/-- A batch does to what is seen of a state what its writes mean, and upkeep changes nothing of it. -/
structure Shows (w : Keeping σ) (view : σ → Contents) : Prop where
  write : ∀ s b, (w.write s b).map view = (view s).apply b
  flush : ∀ s, view (w.flush s) = view s
  compact : ∀ s c per, view (w.compact s c per) = view s

end Keeping

def Contents.keeping : Keeping Contents where
  write := apply

def SegmentedStore.keeping : Keeping SegmentedStore where
  write := write
  flush := flush
  compact := compact

def FlatStore.keeping : Keeping FlatStore where
  write := write

namespace Keeping

variable {σ : Type} {w : Keeping σ} {view : σ → Contents}

theorem Shows.step (hw : w.Shows view) {h : History σ} {plain : History Contents} (hstate : view h.state = plain.state)
    (hrefusals : h.refusals = plain.refusals) (event : StoreEvent) :
    view (w.step h event).state = (Contents.keeping.step plain event).state ∧
      (w.step h event).refusals = (Contents.keeping.step plain event).refusals := by
  cases event with
  | flush => exact ⟨(hw.flush _).trans hstate, hrefusals⟩
  | compact c per => exact ⟨(hw.compact _ c per).trans hstate, hrefusals⟩
  | write b =>
    have hwrite := hw.write h.state b
    rw [hstate] at hwrite
    unfold Keeping.step Contents.keeping
    simp only [← hwrite]
    cases w.write h.state b with
    | ok s => exact ⟨rfl, congrArg (· ++ [none]) hrefusals⟩
    | error e => exact ⟨hstate, congrArg (· ++ [some e]) hrefusals⟩

theorem Shows.foldl (hw : w.Shows view) : ∀ (events : List StoreEvent) {h : History σ} {plain : History Contents},
    view h.state = plain.state → h.refusals = plain.refusals →
    view (events.foldl w.step h).state = (events.foldl Contents.keeping.step plain).state ∧
      (events.foldl w.step h).refusals = (events.foldl Contents.keeping.step plain).refusals
  | [], _, _, hstate, hrefusals => ⟨hstate, hrefusals⟩
  | event :: events, _, _, hstate, hrefusals =>
    foldl hw events (hw.step hstate hrefusals event).1 (hw.step hstate hrefusals event).2

/-- **What is seen of a state goes through the plain history.** -/
theorem Shows.run (hw : w.Shows view) (start : σ) (events : List StoreEvent) :
    view (w.run start events).state = (Contents.keeping.run (view start) events).state ∧
      (w.run start events).refusals = (Contents.keeping.run (view start) events).refusals :=
  hw.foldl events rfl rfl

theorem Shows.refuses (hw : w.Shows view) {s : σ} {b : Batch} {e : StoreError} (h : (view s).apply b = .error e) :
    w.write s b = .error e := by
  rw [← hw.write] at h
  cases hs : w.write s b with
  | ok s' => rw [hs] at h; cases h
  | error e' => rw [hs] at h; cases h; rfl

theorem run_refused {start : σ} {events : List StoreEvent} {b : Batch} {e : StoreError}
    (h : w.write (w.run start events).state b = .error e) :
    (w.run start (events ++ [.write b])).state = (w.run start events).state := by
  unfold Keeping.run at h ⊢
  rw [List.foldl_append, List.foldl_cons, List.foldl_nil, Keeping.step, h]

end Keeping

theorem SegmentedStore.keeping_shows : keeping.Shows contents where
  write s b := s.contents_write b
  flush s := s.contents_flush
  compact s c per := s.contents_compact c per

theorem FlatStore.keeping_shows : keeping.Shows FlatStore.contents where
  write s b := by
    change (FlatStore.write s b).map FlatStore.contents = _
    unfold FlatStore.write
    cases s.contents.apply b <;> rfl
  flush _ := rfl
  compact _ _ _ := rfl

/-! ## Reading alike -/

namespace Store

/-- A store answers like a sorted table for each column, and so does a snapshot of it. -/
structure ReadsAs (s : Store) (t : Contents) : Prop where
  get : ∀ c k, s.reader.get c k = .ok (t.get c k)
  scan : ∀ c r o, s.reader.scan c r o = .ok (o.arrange ((Columns.get t c).scan r))
  frozen : ∀ n, s.snapshot = .ok n → n.reader = s.reader ∧
    ∀ c start, n.pairsFrom c start = (Columns.get t c).scan (.startingAt start)

theorem readsAs_contents (s : Store) : s.ReadsAs s.contents where
  get c k := by rw [s.reader_eq, Contents.reader_get]
  scan c r o := by rw [s.reader_eq, Contents.reader_scan]
  frozen n hn := by
    rw [s.reader_eq]
    exact snapshot_reads hn

end Store

/-- Batches do not change who may look at a store. -/
theorem FlatStore.shared_foldl : ∀ (events : List StoreEvent) (h : History FlatStore),
    (events.foldl keeping.step h).state.shared = h.state.shared
  | [], _ => rfl
  | event :: events, h => by
    rw [List.foldl_cons, shared_foldl events]
    cases event with
    | flush => rfl
    | compact c per => rfl
    | write b =>
      simp only [Keeping.step, keeping, write]
      cases h.state.contents.apply b <;> rfl

/-- **Stores can be taken for one another.**  After every history a store of segments, however it was kept, and a
store of tables have refused the same batches, for the same reasons, and read alike: as one sorted table for each
column does that each write changes in its turn.  What they refuse next changes nothing. -/
theorem StoreEvent.run_agrees (shared : Bool) (events : List StoreEvent) :
    let plain := Contents.keeping.run .empty events
    let segmented := SegmentedStore.keeping.run .empty events
    let flat := FlatStore.keeping.run { shared := shared } events
    (segmented.refusals = plain.refusals ∧ flat.refusals = plain.refusals) ∧
    ((Store.segmented segmented.state).ReadsAs plain.state ∧ (Store.flat flat.state).ReadsAs plain.state) ∧
    ((∃ n, (Store.segmented segmented.state).snapshot = .ok n) ∧
      ((∃ n, (Store.flat flat.state).snapshot = .ok n) ↔ shared = true)) ∧
    ∀ b e, plain.state.apply b = .error e →
      (SegmentedStore.keeping.run .empty (events ++ [.write b])).state = segmented.state ∧
      (FlatStore.keeping.run { shared := shared } (events ++ [.write b])).state = flat.state := by
  intro plain segmented flat
  obtain ⟨hsegmented, hrefused⟩ := SegmentedStore.keeping_shows.run .empty events
  obtain ⟨hflat, hrefused'⟩ := FlatStore.keeping_shows.run { shared := shared } events
  rw [SegmentedStore.contents_empty] at hsegmented hrefused
  change segmented.state.contents = plain.state at hsegmented
  change flat.state.contents = plain.state at hflat
  refine ⟨⟨hrefused, hrefused'⟩, ⟨?_, ?_⟩, ⟨⟨_, rfl⟩, ?_⟩, fun b e hb => ⟨?_, ?_⟩⟩
  · rw [← hsegmented]
    exact Store.readsAs_contents (.segmented segmented.state)
  · rw [← hflat]
    exact Store.readsAs_contents (.flat flat.state)
  · have hshared : flat.state.shared = shared := FlatStore.shared_foldl events _
    change (∃ n, flat.state.snapshot = .ok n) ↔ _
    unfold FlatStore.snapshot
    rw [hshared]
    cases shared <;> simp
  · exact Keeping.run_refused (SegmentedStore.keeping_shows.refuses (by rw [hsegmented, hb]))
  · exact Keeping.run_refused (FlatStore.keeping_shows.refuses (by rw [hflat, hb]))

end TileAtlas
