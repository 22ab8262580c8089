import TileAtlas.Proofs.Store.Meaning
import TileAtlas.Scan.Piece
/-!
# Pieces are walked once

A cursor lists exactly the rows of its range (`Piece.pairs_eq`).  The key at which a piece splits lies
within its range, whatever the descriptions of segments say, because only the first sixteen bytes of a key
count and the key that is split at has no more (`ScanPlan.splitKey?_within`).  So the parts of a piece hold
its rows, each in one part (`Piece.Parts.pairs_eq`).
-/
namespace TileAtlas

/-! ## Runs -/

namespace SortedRun

theorem classify_nil (c : Column) : classify c [] = .ok [] := by
  rw [classify]
  simp only [List.find?_nil, List.filter_nil, byOldestWrite, List.mergeSort_nil, interleaving?, neighbours?]
  rfl

/-- A single segment without deletion markers is a run. -/
theorem classify_singleton (c : Column) {g : SegmentMeta} (h : g.deletions = 0) : classify c [g] = .ok [⟨0, [g]⟩] := by
  have hfind : [g].find? (0 < ·.deletions) = none := by simp [h]
  have hlevels : levels [g] = [(g.level, [g])] := rfl
  have hrun : levelRuns c g.level [g] = .ok [[g]] := by
    simp [levelRuns, level0Runs, byOldestWrite, byKey, overlap?, neighbours?]
  have hnone : interleaving? (byOldestWrite ([g].filter (·.level = 0))) = none := by
    by_cases hl : g.level = 0 <;> simp [hl, byOldestWrite, interleaving?, neighbours?]
  rw [classify, hfind, hnone, hlevels, List.mapM_cons, List.mapM_nil, hrun]
  rfl

end SortedRun

/-! ## Walking a range -/

namespace Cursor

/-- The pairs that a cursor is about to look at. -/
def upcoming (c : Cursor) : List Pair := c.ahead.getD (c.piece.pairsFrom c.piece.range.start)

/-- A step lists the next pair as long as it lies before the end of the range. -/
theorem take_eq : ∀ (l : List Pair) (n : Nat) (c : Cursor), c.upcoming = l → c.done = false → Ascending l →
    (∀ p ∈ l, ¬ p.1 < c.piece.range.start) → l.length < n →
    (c.take n).1 = l.takeWhile fun p => c.piece.range.beforeStop p.1
  | _, 0, _, _, _, _, _, hn => absurd hn (Nat.not_lt_zero _)
  | [], n + 1, c, hl, hd, _, _, _ => by
    have hnext : c.next = (none, { c with ahead := some [], done := true }) := by
      rw [next, hd, if_neg Bool.false_ne_true, show c.ahead.getD _ = [] from hl]
    rw [take, hnext]; rfl
  | p :: ps, n + 1, c, hl, hd, hasc, hstart, hn => by
    have hin : c.piece.range.contains p.1 = c.piece.range.beforeStop p.1 := by
      rw [KeyRange.contains, decide_eq_false (hstart p List.mem_cons_self)]; rfl
    cases hstop : c.piece.range.beforeStop p.1 with
    | false =>
      have hnext : c.next = (none, { c with ahead := some ps, done := true }) := by
        rw [next, hd, if_neg Bool.false_ne_true, show c.ahead.getD _ = p :: ps from hl]
        exact if_neg (by rw [hin, hstop]; exact Bool.false_ne_true)
      rw [take, hnext, List.takeWhile_cons_of_neg (by simp [hstop])]
    | true =>
      have hnext : c.next = (some p,
          { c with
            piece := { c.piece with range := { c.piece.range with start := p.1 ++ [0] } }
            ahead := some ps }) := by
        rw [next, hd, if_neg Bool.false_ne_true, show c.ahead.getD _ = p :: ps from hl]
        exact if_pos (by rw [hin, hstop])
      have ih := take_eq ps n
        { c with
          piece := { c.piece with range := { c.piece.range with start := p.1 ++ [0] } }
          ahead := some ps } rfl hd hasc.tail
        (fun q hq => (Bytes.not_lt_next).2 (Bytes.compare_eq_lt.1 (hasc.lt_of_cons q hq)))
        (by rw [List.length_cons] at hn; omega)
      rw [take, hnext, List.takeWhile_cons_of_pos (by simp [hstop])]
      exact congrArg (p :: ·) ih

end Cursor

theorem Ascending.takeWhile_eq_filter {β : Type} {test : Bytes → Bool}
    (htest : ∀ {a b}, a < b → test b = true → test a = true) : ∀ {l : List (Bytes × β)}, Ascending l →
    (l.takeWhile fun p => test p.1) = l.filter fun p => test p.1
  | [], _ => rfl
  | p :: l, h => by
    cases hp : test p.1 with
    | true =>
      rw [List.takeWhile_cons_of_pos (by simp [hp]), List.filter_cons_of_pos (by simp [hp]),
        takeWhile_eq_filter htest h.tail]
    | false =>
      rw [List.takeWhile_cons_of_neg (by simp [hp]), List.filter_cons_of_neg (by simp [hp])]
      refine (List.filter_eq_nil_iff.2 fun q hq hq' => ?_).symm
      rw [htest (Bytes.compare_eq_lt.1 (h.lt_of_cons q hq)) hq'] at hp
      cases hp

theorem KeyRange.beforeStop_of_lt {r : KeyRange} {a b : Bytes} (hab : a < b) (hb : r.beforeStop b = true) :
    r.beforeStop a = true := by
  rw [beforeStop] at hb ⊢
  split at hb
  · rfl
  · rename_i e
    rw [decide_eq_true_eq] at hb ⊢
    exact List.lt_trans hab hb

theorem Table.scan_startingAt_filter (t : Table) (r : KeyRange) :
    ((t.scan (.startingAt r.start)).filter fun p => r.beforeStop p.1) = t.scan r := by
  rw [scan, scan, List.filter_filter]
  refine List.filter_congr fun p _ => ?_
  rw [KeyRange.contains_startingAt, KeyRange.contains, Bool.and_comm]

def Piece.Reads (t : Table) (p : Piece) : Prop := ∀ start, p.pairsFrom start = t.scan (.startingAt start)

/-- **A piece lists the rows of its range.** -/
theorem Piece.pairs_eq {p : Piece} {t : Table} (h : p.Reads t) :
    p.pairs = t.scan p.range := by
  have hasc := t.ascending_scan (.startingAt p.range.start)
  have hup : (Cursor.ofPiece p).upcoming = t.scan (.startingAt p.range.start) := h _
  rw [pairs, Cursor.takeAll, Cursor.take_eq _ _ _ hup rfl hasc
    (fun q hq => (Table.mem_scan_startingAt.1 (show (q.1, q.2) ∈ _ from hq)).2)
    (by rw [Cursor.stepBound, ← hup]; exact Nat.lt_succ_self _)]
  exact (hasc.takeWhile_eq_filter KeyRange.beforeStop_of_lt).trans (t.scan_startingAt_filter p.range)

/-! ## Where a piece splits -/

namespace KeyNumber

/-- The first bytes of a key, filled up with zeros. -/
def padded (zeros width : Nat) (key : Bytes) : Bytes := (key ++ List.replicate zeros 0).take width

theorem length_padded {zeros width : Nat} (h : width ≤ zeros) (key : Bytes) : (padded zeros width key).length = width := by
  simp [padded]; omega

theorem not_lt_zeros : ∀ {n : Nat} {w : Bytes}, w.length = n → ¬ w < List.replicate n 0
  | 0, [], _ => by simp
  | n + 1, x :: w, h => by
    rw [List.replicate_succ, List.cons_lt_cons_iff]
    rintro (hx | ⟨-, hw⟩)
    · have := UInt8.lt_iff_toNat_lt.1 hx
      simp at this
    · exact not_lt_zeros (by simpa using h) hw

/-- A word below a key is not above the beginning of the key. -/
theorem not_padded_lt : ∀ {width : Nat} {w key : Bytes} {zeros : Nat}, width ≤ zeros → w.length = width → w < key →
    ¬ padded zeros width key < w
  | 0, [], key, zeros, _, _, _ => by simp [padded]
  | width + 1, x :: w, [], zeros, _, _, h => absurd h (by simp)
  | width + 1, x :: w, y :: key, zeros, hz, hlen, h => by
    have hpad : padded zeros (width + 1) (y :: key) = y :: padded zeros width key := rfl
    rw [hpad, List.cons_lt_cons_iff]
    rcases List.cons_lt_cons_iff.1 h with hxy | ⟨rfl, hw⟩
    · rintro (hyx | ⟨rfl, -⟩)
      · exact UInt8.lt_asymm hxy hyx
      · exact UInt8.lt_irrefl _ hxy
    · rintro (hxx | ⟨-, hlt⟩)
      · exact UInt8.lt_irrefl _ hxx
      · exact not_padded_lt (by omega) (by simpa using hlen) hw hlt

/-- A word above a key is not below the beginning of the key. -/
theorem not_lt_padded : ∀ {width : Nat} {w key : Bytes} {zeros : Nat}, width ≤ zeros → w.length = width → key < w →
    ¬ w < padded zeros width key
  | 0, [], key, zeros, _, _, h => absurd h (by simp)
  | width + 1, x :: w, [], zeros, hz, hlen, _ => by
    have hpad : padded zeros (width + 1) [] = List.replicate (width + 1) 0 := by
      rw [padded, List.nil_append, List.take_replicate, Nat.min_eq_left hz]
    rw [hpad]
    exact not_lt_zeros hlen
  | width + 1, x :: w, y :: key, zeros, hz, hlen, h => by
    have hpad : padded zeros (width + 1) (y :: key) = y :: padded zeros width key := rfl
    rw [hpad, List.cons_lt_cons_iff]
    rcases List.cons_lt_cons_iff.1 h with hyx | ⟨rfl, hw⟩
    · rintro (hxy | ⟨rfl, -⟩)
      · exact UInt8.lt_asymm hyx hxy
      · exact UInt8.lt_irrefl _ hyx
    · rintro (hxx | ⟨-, hlt⟩)
      · exact UInt8.lt_irrefl _ hxx
      · exact not_lt_padded (by omega) (by simpa using hlen) hw hlt

theorem ofKey_lt_iff {key : Bytes} {n : Nat} (hn : n < 256 ^ 16) : ofKey key < n ↔ padded 16 16 key < toKey n := by
  rw [Bytes.lt_iff_toNatBE_lt (by rw [length_padded (Nat.le_refl _), toKey, Bytes.length_ofNatBE]), toKey,
    Bytes.toNatBE_ofNatBE, Nat.mod_eq_of_lt hn]
  rfl

theorem lt_ofKey_iff {key : Bytes} {n : Nat} (hn : n < 256 ^ 16) : n < ofKey key ↔ toKey n < padded 16 16 key := by
  rw [Bytes.lt_iff_toNatBE_lt (by rw [length_padded (Nat.le_refl _), toKey, Bytes.length_ofNatBE]), toKey,
    Bytes.toNatBE_ofNatBE, Nat.mod_eq_of_lt hn]
  rfl

theorem ofKey_le_last (key : Bytes) : ofKey key ≤ last := by
  have hlen := length_padded (Nat.le_refl 16) key
  have := Bytes.toNatBE_lt (padded 16 16 key)
  rw [hlen] at this
  exact Nat.le_of_lt_succ this

theorem ofKey_toKey {n : Nat} (hn : n < 256 ^ 16) : ofKey (toKey n) = n := by
  have hlen : (toKey n).length = 16 := Bytes.length_ofNatBE 16 n
  have hpad : (toKey n ++ List.replicate 16 0).take 16 = toKey n := by
    rw [List.take_append_of_le_length (by omega), List.take_of_length_le (by omega)]
  rw [ofKey, hpad, toKey, Bytes.toNatBE_ofNatBE, Nat.mod_eq_of_lt hn]

theorem not_padded_lt_padded : ∀ {width : Nat} {a b : Bytes} {zeros : Nat}, width ≤ zeros → ¬ b < a →
    ¬ padded zeros width b < padded zeros width a
  | 0, a, b, zeros, _, _ => by simp [padded]
  | width + 1, [], b, zeros, hz, _ => by
    have hpad : padded zeros (width + 1) [] = List.replicate (width + 1) 0 := by
      rw [padded, List.nil_append, List.take_replicate, Nat.min_eq_left hz]
    rw [hpad]
    exact not_lt_zeros (length_padded hz b)
  | width + 1, x :: a, [], zeros, _, h => absurd (by simp) h
  | width + 1, x :: a, y :: b, zeros, hz, h => by
    have hpad : ∀ (z : UInt8) (c : Bytes), padded zeros (width + 1) (z :: c) = z :: padded zeros width c := fun _ _ => rfl
    rw [List.cons_lt_cons_iff] at h
    rw [hpad, hpad, List.cons_lt_cons_iff]
    rintro (hyx | ⟨rfl, hlt⟩)
    · exact h (.inl hyx)
    · exact not_padded_lt_padded (by omega) (fun hba => h (.inr ⟨rfl, hba⟩)) hlt

/-- **The numbers of keys keep their order.** -/
theorem ofKey_mono {a b : Bytes} (h : ¬ b < a) : ofKey a ≤ ofKey b := by
  refine Nat.not_lt.1 fun hlt => not_padded_lt_padded (Nat.le_refl 16) h ?_
  rw [Bytes.lt_iff_toNatBE_lt (by rw [length_padded (Nat.le_refl _), length_padded (Nat.le_refl _)])]
  exact hlt

end KeyNumber

namespace ScanPlan

/-- A piece splits at a number between those of its ends. -/
theorem splitKey?_eq {plan : ScanPlan} {r : KeyRange} {k : Bytes} (h : plan.splitKey? r = some k) :
    ∃ n, k = KeyNumber.toKey n ∧ (bounds r).1 < n ∧ n < (bounds r).2 := by
  rw [splitKey?] at h
  simp only at h
  split at h
  · cases h
  · split at h
    · cases h
    · split at h
      · cases h
      · split at h
        · rename_i hsplit
          cases h
          rw [Bool.and_eq_true, decide_eq_true_eq, decide_eq_true_eq] at hsplit
          exact ⟨_, rfl, hsplit⟩
        · cases h

theorem bounds_le_last (r : KeyRange) : (bounds r).2 ≤ KeyNumber.last := by
  rw [bounds]
  cases r.stop with
  | none => exact Nat.le_refl _
  | some e => exact KeyNumber.ofKey_le_last e

theorem lt_of_lt_bounds {r : KeyRange} {n : Nat} (h : n < (bounds r).2) : n < 256 ^ 16 :=
  Nat.lt_of_lt_of_le (Nat.lt_of_lt_of_le h (bounds_le_last r)) (by decide : KeyNumber.last ≤ 256 ^ 16)

/-- Both parts meet at the number at which a piece splits. -/
theorem bounds_split {plan : ScanPlan} {r : KeyRange} {k : Bytes} (h : plan.splitKey? r = some k) :
    ∃ n, (bounds r).1 < n ∧ n < (bounds r).2 ∧ bounds ⟨r.start, some k⟩ = ((bounds r).1, n) ∧
      bounds ⟨k, r.stop⟩ = (n, (bounds r).2) := by
  obtain ⟨n, rfl, hlo, hhi⟩ := splitKey?_eq h
  have hn := KeyNumber.ofKey_toKey (lt_of_lt_bounds hhi)
  refine ⟨n, hlo, hhi, ?_, ?_⟩
  · rw [bounds, bounds, Option.elim_some, hn]
  · rw [bounds, bounds, hn]

/-- **A piece splits within its range.** -/
theorem splitKey?_within {plan : ScanPlan} {r : KeyRange} {k : Bytes} (h : plan.splitKey? r = some k) :
    ¬ k < r.start ∧ ∀ e, r.stop = some e → ¬ e < k := by
  obtain ⟨n, rfl, hlo, hhi⟩ := splitKey?_eq h
  have hn := lt_of_lt_bounds hhi
  have hlen : (KeyNumber.toKey n).length = 16 := Bytes.length_ofNatBE 16 n
  refine ⟨fun hk => ?_, fun e he hk => ?_⟩
  · exact KeyNumber.not_padded_lt (Nat.le_refl _) hlen hk ((KeyNumber.ofKey_lt_iff hn).1 hlo)
  · have hstop : (bounds r).2 = KeyNumber.ofKey e := by rw [bounds, he]; rfl
    exact KeyNumber.not_lt_padded (Nat.le_refl _) hlen hk
      ((KeyNumber.lt_ofKey_iff hn).1 (Nat.lt_of_lt_of_eq hhi hstop))

end ScanPlan

theorem Piece.trySplit_eq {p lower upper : Piece} (h : p.trySplit = some (lower, upper)) :
    ∃ k, p.plan.splitKey? p.range = some k ∧ lower = { p with range := ⟨p.range.start, some k⟩ } ∧
      upper = { p with range := ⟨k, p.range.stop⟩ } := by
  obtain ⟨k, hk, heq⟩ := Option.map_eq_some_iff.1 h
  cases heq
  exact ⟨k, hk, rfl, rfl⟩

theorem Cursor.trySplit_ofPiece (p : Piece) :
    (Cursor.ofPiece p).trySplit = p.trySplit.map fun parts => (.ofPiece parts.1, parts.2) := rfl

theorem Cursor.trySplit_eq {c c' : Cursor} {upper : Piece} (h : c.trySplit = some (c', upper)) :
    c.done = false ∧ ∃ lower, c.piece.trySplit = some (lower, upper) ∧ c' = { c with piece := lower } := by
  unfold trySplit at h
  split at h
  · cases h
  · rename_i hd
    obtain ⟨⟨lower, upper'⟩, hsplit, heq⟩ := Option.map_eq_some_iff.1 h
    cases heq
    exact ⟨by simpa using hd, lower, hsplit, rfl⟩

/-! ## Parts of a piece -/

theorem Table.scan_append (t : Table) {start k : Bytes} {stop : Option Bytes} (hstart : ¬ k < start)
    (hstop : ∀ e, stop = some e → ¬ e < k) :
    t.scan ⟨start, some k⟩ ++ t.scan ⟨k, stop⟩ = t.scan ⟨start, stop⟩ := by
  have hlow : ∀ {x v : Bytes}, (x, v) ∈ t.scan ⟨start, some k⟩ ↔ t[x]? = some v ∧ ¬ x < start ∧ x < k := by
    simp [mem_scan, KeyRange.contains, KeyRange.beforeStop]
  have hhigh : ∀ {x v : Bytes}, (x, v) ∈ t.scan ⟨k, stop⟩ ↔
      t[x]? = some v ∧ ¬ x < k ∧ KeyRange.beforeStop ⟨k, stop⟩ x = true := by
    simp [mem_scan, KeyRange.contains]
  refine eq_scan (List.pairwise_append.2 ⟨t.ascending_scan _, t.ascending_scan _, fun a ha b hb => ?_⟩) fun x v => ?_
  · have ha' := (hlow.1 (show (a.1, a.2) ∈ _ from ha)).2.2
    have hb' := (hhigh.1 (show (b.1, b.2) ∈ _ from hb)).2.1
    exact Bytes.compare_eq_lt.2 (Bytes.lt_of_lt_of_not_lt ha' hb')
  · rw [List.mem_append, hlow, hhigh, KeyRange.contains]
    simp only [Bool.and_eq_true, Bool.not_eq_true', decide_eq_false_iff_not]
    constructor
    · rintro (⟨hx, hs, hk⟩ | ⟨hx, hk, he⟩)
      · refine ⟨hx, hs, ?_⟩
        rw [KeyRange.beforeStop]
        cases stop with
        | none => rfl
        | some e => exact decide_eq_true (Bytes.lt_of_lt_of_not_lt hk (hstop e rfl))
      · exact ⟨hx, fun hxs => hk (Bytes.lt_of_lt_of_not_lt hxs hstart), he⟩
    · rintro ⟨hx, hs, he⟩
      by_cases hk : x < k
      · exact .inl ⟨hx, hs, hk⟩
      · exact .inr ⟨hx, hk, he⟩

/-- A piece, or the parts of its two halves. -/
inductive Piece.Parts : Piece → List Piece → Prop where
  | whole (p : Piece) : Parts p [p]
  | split {p lower upper : Piece} {ls us : List Piece} (h : p.trySplit = some (lower, upper)) (hl : Parts lower ls)
      (hu : Parts upper us) : Parts p (ls ++ us)

/-- **The parts of a piece hold its rows.** -/
theorem Piece.Parts.pairs_eq {p : Piece} {parts : List Piece} (h : p.Parts parts) {t : Table}
    (hp : p.Reads t) : parts.flatMap Piece.pairs = t.scan p.range := by
  induction h with
  | whole p => rw [List.flatMap_cons, List.flatMap_nil, List.append_nil, Piece.pairs_eq hp]
  | split hsplit _ _ ihl ihu =>
    obtain ⟨k, hk, rfl, rfl⟩ := trySplit_eq hsplit
    obtain ⟨hstart, hstop⟩ := ScanPlan.splitKey?_within hk
    rw [List.flatMap_append, ihl hp, ihu hp, Table.scan_append t hstart hstop]

end TileAtlas
