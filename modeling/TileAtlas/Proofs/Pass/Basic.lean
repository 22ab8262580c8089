import Mathlib.Data.List.Basic
import TileAtlas.Pass.Basic
import TileAtlas.Proofs.Index.Elements
import TileAtlas.Proofs.Scan.Piece
/-!
# What a pass reads

Whether a store can be walked does not change with what is written to it (`Store.isWalkable_write`), and its
column of elements in one piece is the records.  However this piece is divided among workers, they read every
record, each once and in some order (`Division.Complete.readBy`).
-/
namespace TileAtlas

/-! ## Stores that can be walked -/

namespace SegmentedStore

theorem segments_setColumn (s : SegmentedStore) {c : Column} {st : ColumnState}
    (h : st.segments = (s.column c).segments) (d : Column) :
    ((s.setColumn c st).column d).segments = (s.column d).segments := by
  rw [column, setColumn, Columns.get_set]
  by_cases hd : d = c
  · subst hd; simpa using h
  · simp only [if_neg hd]; rfl

theorem segments_forget : ∀ (ps : List Pair) (st : ColumnState),
    (ps.foldl (fun st p => st.remember p.1 none) st).segments = st.segments
  | [], _ => rfl
  | p :: ps, st => segments_forget ps (st.remember p.1 none)

theorem segments_applyOp {s s' : SegmentedStore} {op : Op} (h : s.applyOp op = .ok s') (d : Column) :
    (s'.column d).segments = (s.column d).segments := by
  have hset : ∀ {c : Column} {st : ColumnState}, st.segments = (s.column c).segments →
      (({ s with lastWrite := s.lastWrite + 1 }.setColumn c st).column d).segments = (s.column d).segments :=
    fun hst => segments_setColumn { s with lastWrite := s.lastWrite + 1 } hst d
  cases op with
  | put c k v => cases h; exact hset rfl
  | delete c k => cases h; exact hset rfl
  | deleteRange c r => cases h; exact hset (segments_forget _ _)
  | merge c k x =>
    rw [applyOp] at h
    split at h
    · cases h; exact hset rfl
    · cases h

theorem segments_write : ∀ {b : Batch} {s s' : SegmentedStore}, s.write b = .ok s' → ∀ d,
    (s'.column d).segments = (s.column d).segments
  | [], s, s', h, d => by cases h; rfl
  | op :: b, s, s', h, d => by
    rw [write, List.foldlM_cons] at h
    cases h₁ : s.applyOp op with
    | error e => rw [h₁] at h; cases h
    | ok s₁ =>
      rw [h₁] at h
      rw [segments_write h d, segments_applyOp h₁ d]

end SegmentedStore

theorem FlatStore.classify_segments (s : FlatStore) (c : Column) :
    ∃ runs, SortedRun.classify c (s.segments c) = .ok runs := by
  unfold segments
  dsimp only
  split
  · exact ⟨_, SortedRun.classify_singleton c rfl⟩
  · exact ⟨_, SortedRun.classify_nil c⟩

theorem Piece.exists_whole?_iff (n : Snapshot) (c : Column) :
    (∃ p, whole? n c = .ok p) ↔ ∃ runs, SortedRun.classify c (n.segments c) = .ok runs := by
  rw [whole?, plan?]
  cases SortedRun.classify c (n.segments c) <;> simp

namespace Store

/-- Snapshots are available and can be walked: there are no segments with deletion markers. -/
def IsOpen : Store → Prop
  | segmented s => ∀ c, (s.column c).segments = []
  | flat s => s.shared = true

/-- Snapshots are available, and their elements can be walked. -/
def IsWalkable : Store → Prop
  | segmented s => ∃ runs, SortedRun.classify .elements ((s.column .elements).segments.map (·.info)) = .ok runs
  | flat s => s.shared = true

theorem IsOpen.isWalkable {s : Store} (h : s.IsOpen) : s.IsWalkable := by
  cases s with
  | segmented s =>
    have hnil : (s.column .elements).segments.map (·.info) = [] := by rw [h .elements]; rfl
    exact ⟨_, by rw [hnil]; exact SortedRun.classify_nil .elements⟩
  | flat s => exact h

/-- **Writes do not change whether a store can be walked.** -/
theorem isWalkable_write {s s' : Store} {b : Batch} (h : s.write b = .ok s') : s'.IsWalkable ↔ s.IsWalkable := by
  cases s with
  | segmented s =>
    rw [Store.write] at h
    cases hs : s.write b with
    | error e => rw [hs] at h; cases h
    | ok s₁ =>
      rw [hs] at h
      cases h
      have hsegments := SegmentedStore.segments_write hs .elements
      simp only [IsWalkable, hsegments]
  | flat s =>
    rw [Store.write, FlatStore.write] at h
    cases hs : s.contents.apply b with
    | error e => rw [hs] at h; cases h
    | ok t => rw [hs] at h; cases h; exact Iff.rfl

theorem IsWalkable.commit {s s' : Store} {t : Transaction} (h : s.IsWalkable) (hc : s.commit t = .ok s') :
    s'.IsWalkable := by
  rw [Store.commit] at hc
  split at hc
  · cases hc; exact h
  · exact (isWalkable_write hc).2 h

/-- **A store can be walked exactly if there is a snapshot of it, and its elements are one piece.** -/
theorem isWalkable_iff {s : Store} :
    s.IsWalkable ↔ ∃ n p, s.snapshot = .ok n ∧ Piece.whole? n .elements = .ok p := by
  cases s with
  | segmented s =>
    have hwhole := Piece.exists_whole?_iff s.snapshot .elements
    constructor
    · intro h
      obtain ⟨p, hp⟩ := hwhole.2 h
      exact ⟨s.snapshot, p, rfl, hp⟩
    · rintro ⟨n, p, hn, hp⟩
      cases hn
      exact hwhole.1 ⟨p, hp⟩
  | flat s =>
    change s.shared = true ↔ _
    rw [snapshot, FlatStore.snapshot]
    by_cases hs : s.shared = true
    · rw [if_pos hs]
      obtain ⟨p, hp⟩ := (Piece.exists_whole?_iff ⟨s.reader, s.segments, _⟩ .elements).2 (s.classify_segments .elements)
      exact iff_of_true hs ⟨_, p, rfl, hp⟩
    · rw [if_neg hs]
      refine iff_of_false hs ?_
      rintro ⟨n, p, hn, -⟩
      cases hn

end Store

/-! ## The elements of a piece -/

namespace Piece

/-- The elements whose records a piece lists. -/
def elements (p : Piece) : List Element := p.pairs.filterMap fun pair => (Elements.ofPair pair).toOption

/-- Every row of a piece is a record. -/
def IsReadable (p : Piece) : Prop := ∀ pair ∈ p.pairs, ∃ e, Elements.ofPair pair = .ok e

theorem mapElements_eq {α : Type} {p : Piece} {f : Element → Except IndexError α} {g : Element → α}
    (hrows : p.IsReadable) (hf : ∀ e ∈ p.elements, f e = .ok (g e)) : p.mapElements f = .ok (p.elements.map g) := by
  rw [IsReadable] at hrows
  rw [elements] at hf ⊢
  rw [mapElements]
  generalize p.pairs = l at hrows hf
  induction l with
  | nil => rfl
  | cons pair l ih =>
    obtain ⟨e, he⟩ := hrows pair List.mem_cons_self
    have hsome : (Elements.ofPair pair).toOption = some e := by rw [he]; rfl
    simp only [List.filterMap_cons, hsome] at hf ⊢
    refine mapM_cons_ok ?_ (ih (fun x hx => hrows x (List.mem_cons_of_mem _ hx))
      fun x hx => hf x (List.mem_cons_of_mem _ hx))
    simp only [he, bind, Except.bind]
    exact hf e List.mem_cons_self

theorem exists_of_mapElements {α : Type} {p : Piece} {f : Element → Except IndexError α} {as : List α}
    (h : p.mapElements f = .ok as) : ∀ e ∈ p.elements, ∃ a, f e = .ok a := fun e he => by
  obtain ⟨pair, hpair, hread⟩ := List.mem_filterMap.1 he
  obtain ⟨a, ha⟩ := exists_of_mapM h pair hpair
  obtain ⟨e', he', ha⟩ := exists_of_bind ha
  rw [he'] at hread
  cases hread
  exact ⟨a, ha⟩

end Piece

/-- The workers get the parts of a piece, and finish in any order. -/
def Division.Fair (divide : Division) : Prop := ∀ p, ∃ parts, p.Parts parts ∧ (divide p).Perm parts

/-- The workers get every row of a piece, each once, in whatever pieces and in any order. -/
def Division.Complete (divide : Division) : Prop :=
  ∀ {p : Piece} {t : Table}, p.Reads t → ((divide p).flatMap Piece.pairs).Perm p.pairs

theorem Division.Fair.complete {divide : Division} (h : divide.Fair) : divide.Complete := fun {p t} hp => by
  obtain ⟨parts, hparts, hperm⟩ := h p
  rw [Piece.pairs_eq hp, ← hparts.pairs_eq hp]
  exact hperm.flatMap_right _

theorem Division.fair_whole : Division.whole.Fair := fun p => ⟨[p], .whole p, .refl _⟩

/-- Some pieces list every record, each once and in some order. -/
structure Records.ReadBy (records : Records) (pieces : List Piece) : Prop where
  elements : (pieces.flatMap Piece.elements).Perm records.elements
  readable : ∀ q ∈ pieces, q.IsReadable

theorem Records.ReadBy.nodup_ids {records : Records} {pieces : List Piece} (h : records.ReadBy pieces) {s : Contents}
    (hr : records.ReadIn s) : ((pieces.flatMap Piece.elements).map (·.id)).Nodup :=
  (h.elements.map _).nodup_iff.2 hr.nodup_ids

theorem Records.ReadBy.mem_iff {records : Records} {pieces : List Piece} (h : records.ReadBy pieces) {s : Contents}
    (hr : records.ReadIn s) {e : Element} : e ∈ pieces.flatMap Piece.elements ↔ records[e.id]? = some e := by
  rw [h.elements.mem_iff, hr.mem_elements]

/-- **However the column of elements is divided, every record is read once.** -/
theorem Division.Complete.readBy {divide : Division} (hd : divide.Complete) {p : Piece} {s : Contents}
    {records : Records} (hp : p.Reads (Columns.get s .elements)) (hall : p.range = .all) (h : records.ReadIn s) :
    records.ReadBy (divide p) := by
  have hrows : ((divide p).flatMap Piece.pairs).Perm (records.toList.map fun r => s.rowOf r.1) := by
    rw [← h.toList_eq, ← Table.scan_all, ← hall, ← Piece.pairs_eq hp]
    exact hd hp
  constructor
  · have hmap : (records.toList.map fun r => s.rowOf r.1).filterMap
        (fun pair => (Elements.ofPair pair).toOption) = records.elements := by
      rw [List.filterMap_map, Records.elements, ← List.filterMap_eq_map]
      refine List.filterMap_congr fun r hr => ?_
      simp only [Function.comp_apply, h.ofPair_rowOf hr]
      rfl
    have hflat : (divide p).flatMap Piece.elements =
        ((divide p).flatMap Piece.pairs).filterMap fun pair => (Elements.ofPair pair).toOption := by
      rw [List.filterMap_flatMap]; rfl
    rw [← hmap, hflat]
    exact hrows.filterMap _
  · intro q hq pair hpair
    obtain ⟨r, hr, rfl⟩ := List.mem_map.1 (hrows.mem_iff.1 (List.mem_flatMap.2 ⟨q, hq, hpair⟩))
    exact ⟨r.2, h.ofPair_rowOf hr⟩

/-! ## Running a pass -/

namespace Pass

variable {α β : Type}

/-- A pass succeeds, with this result and this store. -/
def Does (p : Pass α) (s : Store) (a : α) (s' : Store) : Prop := (ExceptT.run p).run s = (.ok a, s')

theorem does_pure (a : α) (s : Store) : Does (pure a) s a s := rfl

theorem Does.bind {p : Pass α} {f : α → Pass β} {s s₁ s' : Store} {a : α} {b : β} (h : p.Does s a s₁)
    (h' : (f a).Does s₁ b s') : (p >>= f).Does s b s' := by
  rw [Does] at h h' ⊢
  rw [ExceptT.run_bind, StateT.run_bind, h]
  exact h'

theorem does_of {r : Except PassError α} {a : α} (h : r = .ok a) (s : Store) : (of r).Does s a s := by
  rw [h]; rfl

theorem does_ofIndex {r : Except IndexError α} {a : α} (h : r = .ok a) (s : Store) : (ofIndex r).Does s a s :=
  does_of (by rw [h]; rfl) s

theorem does_write {b : Batch} {s : Store} {t : Contents} (hs : s.IsWalkable) (h : s.contents.apply b = .ok t) :
    ∃ s', (write b).Does s () s' ∧ s'.IsWalkable ∧ s'.contents = t := by
  obtain ⟨s', hs', ht⟩ := Store.write_of_contents h
  refine ⟨s', ?_, (Store.isWalkable_write hs').2 hs, ht⟩
  rw [Does, write, ExceptT.run_mk]
  simp only [StateT.run, hs']

theorem Does.runOn {p : Pass α} {a : Atlas} {x : α} {s' : Store} (h : p.Does a.store x s') :
    p.runOn a = (.ok x, { a with store := s' }) := by
  rw [Does] at h
  rw [Pass.runOn, h]

/-- What is known of the snapshot of a store, and of its elements in one piece. -/
structure Walks (s : Contents) (n : Snapshot) (p : Piece) : Prop where
  reader : n.reader = s.reader
  pairsFrom : ∀ c start, n.pairsFrom c start = (Columns.get s c).scan (.startingAt start)
  piece : p.Reads (Columns.get s .elements)
  range : p.range = .all

theorem walks_of_whole? {s : Store} {n : Snapshot} {p : Piece} (hn : s.snapshot = .ok n)
    (hp : Piece.whole? n .elements = .ok p) : Walks s.contents n p := by
  obtain ⟨hreader, hpairs⟩ := Store.snapshot_reads hn
  rw [Piece.whole?, Piece.plan?] at hp
  split at hp
  · cases hp
    exact ⟨hreader, hpairs, hpairs .elements, rfl⟩
  · cases hp

theorem does_snapshot_of {s : Store} {n : Snapshot} (hn : s.snapshot = .ok n) : snapshot.Does s n s := by
  change (s.snapshot.mapError fun e => PassError.index (.store e), s) = _
  rw [hn]; rfl

/-- **A store that can be walked shows its elements in one piece.** -/
theorem does_snapshot {s : Store} (h : s.IsWalkable) : ∃ n p, snapshot.Does s n s ∧ (elements n).Does s p s ∧
    Walks s.contents n p := by
  obtain ⟨n, p, hn, hp⟩ := Store.isWalkable_iff.1 h
  exact ⟨n, p, does_snapshot_of hn, does_of (by rw [hp]; rfl) s, walks_of_whole? hn hp⟩

/-- **Pieces are worked on one after another.**  What holds of the elements done so far and the store, and is
kept by every piece, holds in the end of all elements. -/
theorem does_each {work : Piece → Pass α} {result : Piece → α} {all : List Element} {inv : List Element → Store → Prop} :
    ∀ {pieces : List Piece} {done : List Element} {s : Store},
      (∀ q ∈ pieces, ∀ done s, done ++ q.elements <+: all → inv done s →
        ∃ s', (work q).Does s (result q) s' ∧ inv (done ++ q.elements) s') →
      done ++ pieces.flatMap Piece.elements = all → inv done s →
      ∃ s', (each work pieces).Does s (pieces.map result) s' ∧ inv all s'
  | [], done, s, _, hall, h => by
    rw [List.flatMap_nil, List.append_nil] at hall
    exact ⟨s, does_pure [] s, hall ▸ h⟩
  | q :: pieces, done, s, hstep, hall, h => by
    rw [List.flatMap_cons, ← List.append_assoc] at hall
    obtain ⟨s₁, hq, h₁⟩ := hstep q List.mem_cons_self done s ⟨_, hall⟩ h
    obtain ⟨s', hrest, h'⟩ := does_each (fun x hx => hstep x (List.mem_cons_of_mem _ hx)) hall h₁
    refine ⟨s', ?_, h'⟩
    rw [each, List.mapM_cons]
    exact hq.bind (hrest.bind (does_pure _ s'))

/-! ## What a pass that succeeded did -/

/-- A pass has one result. -/
theorem Does.unique {p : Pass α} {s s' s'' : Store} {a b : α} (h : p.Does s a s') (h' : p.Does s b s'') :
    a = b ∧ s' = s'' := by
  rw [Does] at h h'
  rw [h] at h'
  cases h'
  exact ⟨rfl, rfl⟩

theorem Does.exists_of_bind {p : Pass α} {f : α → Pass β} {s s' : Store} {b : β} (h : (p >>= f).Does s b s') :
    ∃ a s₁, p.Does s a s₁ ∧ (f a).Does s₁ b s' := by
  unfold Does at h ⊢
  rw [ExceptT.run_bind, StateT.run_bind] at h
  generalize p.run.run s = out at h ⊢
  obtain ⟨a | e, s₁⟩ := out
  · cases h
  · exact ⟨_, s₁, rfl, h⟩

theorem Does.of_eq {r : Except PassError α} {s s' : Store} {a : α} (h : (of r).Does s a s') : r = .ok a ∧ s' = s := by
  cases h
  exact ⟨rfl, rfl⟩

theorem Does.ofIndex_eq {r : Except IndexError α} {s s' : Store} {a : α} (h : (ofIndex r).Does s a s') :
    r = .ok a ∧ s' = s := by
  obtain ⟨hr, hs⟩ := Does.of_eq h
  exact ⟨eq_ok_of_mapError hr, hs⟩

theorem Does.write_eq {b : Batch} {s s' : Store} {u : Unit} (h : (write b).Does s u s') : s.write b = .ok s' := by
  rw [Does, write, ExceptT.run_mk] at h
  simp only [StateT.run] at h
  split at h
  · rename_i s₁ hs₁
    cases h
    exact hs₁
  · cases h

theorem Does.snapshot_eq {s s' : Store} {n : Snapshot} (h : snapshot.Does s n s') : s.snapshot = .ok n ∧ s' = s := by
  change (s.snapshot.mapError fun e => PassError.index (.store e), s) = (Except.ok n, s') at h
  obtain ⟨hn, hs⟩ := Prod.mk.inj h
  exact ⟨eq_ok_of_mapError hn, hs.symm⟩

/-- **A store whose elements a pass has walked can be walked.** -/
theorem Does.isWalkable {f : Snapshot → Piece → Pass α} {s s' : Store} {a : α}
    (h : (snapshot >>= fun n => elements n >>= f n).Does s a s') : s.IsWalkable := by
  obtain ⟨n, s₁, hn, hrest⟩ := h.exists_of_bind
  obtain ⟨p, s₂, hp, -⟩ := hrest.exists_of_bind
  obtain ⟨hn, rfl⟩ := hn.snapshot_eq
  exact Store.isWalkable_iff.2 ⟨n, p, hn, eq_ok_of_mapError (Does.of_eq hp).1⟩

end Pass
end TileAtlas
