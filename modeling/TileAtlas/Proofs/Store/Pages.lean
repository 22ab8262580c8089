import TileAtlas.Proofs.Store.Rows
import TileAtlas.Store
/-!
# Reading a table a page at a time

The key right after a key is that key and a zero byte (`Bytes.not_lt_next`).  Pages that begin there
leave no row out and list none twice: every step of a walk yields the first of the rows ahead
(`PagedWalk.next_ahead`), so that a snapshot yields the rows from a key on, each once and in order
(`FlatStore.snapshot_yields`).
-/
namespace TileAtlas

/-- **No key lies between a key and that key with a zero byte.** -/
theorem Bytes.not_lt_next : ∀ {p k : Bytes}, ¬ k < p ++ [0] ↔ p < k
  | [], [] => by simp
  | [], x :: k => by
    rw [List.nil_append, List.cons_lt_cons_iff]
    have hz : ¬ x < 0 := fun h => by have := UInt8.lt_iff_toNat_lt.1 h; simp at this
    simp [hz]
  | x :: p, [] => by simp
  | x :: p, y :: k => by
    have ih := not_lt_next (p := p) (k := k)
    rw [List.cons_append, List.cons_lt_cons_iff, List.cons_lt_cons_iff]
    rcases Nat.lt_trichotomy x.toNat y.toNat with h | h | h
    · have hxy := UInt8.lt_iff_toNat_lt.2 h
      have hne : ¬ y = x := fun heq => by subst heq; omega
      simp [hxy, UInt8.lt_asymm hxy, hne]
    · obtain rfl := UInt8.toNat_inj.1 h
      simpa using ih
    · have hyx := UInt8.lt_iff_toNat_lt.2 h
      have hne : ¬ x = y := fun heq => by subst heq; omega
      simp [hyx, UInt8.lt_asymm hyx, hne]

namespace Ascending

variable {β : Type}

theorem key_lt_of_drop {l : List (Bytes × β)} (h : Ascending l) {n : Nat} {last : Bytes × β}
    (hlast : (l.take n).getLast? = some last) : ∀ x ∈ l.drop n, last.1 < x.1 := fun x hx => by
  have happ : (l.take n ++ l.drop n).Pairwise fun a b => compare a.1 b.1 = .lt := by rwa [List.take_append_drop]
  exact Bytes.compare_eq_lt.1 ((List.pairwise_append.1 happ).2.2 last (List.mem_of_getLast? hlast) x hx)

theorem key_le_of_take {l : List (Bytes × β)} (h : Ascending l) {n : Nat} {last : Bytes × β}
    (hlast : (l.take n).getLast? = some last) : ∀ x ∈ l.take n, ¬ last.1 < x.1 := fun x hx hlt => by
  obtain ⟨init, hinit⟩ := List.getLast?_eq_some_iff.1 hlast
  rw [hinit] at hx
  rcases List.mem_append.1 hx with hx | hx
  · have htake : (init ++ [last]).Pairwise fun a b => compare a.1 b.1 = .lt := by
      rw [← hinit]; exact h.sublist (List.take_sublist n l)
    have := (List.pairwise_append.1 htake).2.2 x hx last (List.mem_singleton.2 rfl)
    exact compare_irrefl _ (Std.TransCmp.lt_trans this (Bytes.compare_eq_lt.2 hlt))
  · obtain rfl := List.mem_singleton.1 hx
    exact compare_irrefl _ (Bytes.compare_eq_lt.2 hlt)

end Ascending

namespace Table

theorem mem_scan_startingAt {t : Table} {start k v : Bytes} :
    (k, v) ∈ t.scan (.startingAt start) ↔ t[k]? = some v ∧ ¬ k < start := by
  rw [mem_scan, KeyRange.contains_startingAt]
  simp

/-- After a full page the next one begins with the first row that was not listed. -/
theorem scan_next (t : Table) {start : Bytes} {limit : Nat} {last : Pair}
    (hlast : ((t.scan (.startingAt start)).take limit).getLast? = some last) :
    t.scan (.startingAt (last.1 ++ [0])) = (t.scan (.startingAt start)).drop limit := by
  have hasc := t.ascending_scan (.startingAt start)
  refine (eq_scan (hasc.sublist (List.drop_sublist _ _)) fun k v => ?_).symm
  rw [KeyRange.contains_startingAt]
  simp only [Bool.not_eq_true', decide_eq_false_iff_not, Bytes.not_lt_next]
  constructor
  · intro h
    exact ⟨(mem_scan_startingAt.1 (List.mem_of_mem_drop h)).1, hasc.key_lt_of_drop hlast _ h⟩
  · rintro ⟨hk, hlt⟩
    have hstart : ¬ last.1 < start := (mem_scan_startingAt.1 (List.mem_of_mem_take (List.mem_of_getLast? hlast))).2
    have hmem : (k, v) ∈ t.scan (.startingAt start) := mem_scan_startingAt.2
      ⟨hk, fun hks => hstart (List.lt_trans hlt hks)⟩
    rw [← List.take_append_drop limit (t.scan (.startingAt start))] at hmem
    rcases List.mem_append.1 hmem with hmem | hmem
    · exact absurd hlt (hasc.key_le_of_take hlast _ hmem)
    · exact hmem

end Table

/-! ## Steps of a walk -/

namespace PagedWalk

/-- The rows that a walk has yet to yield: what is left of its page, and the rows from the next page on. -/
def ahead (w : PagedWalk) : List Pair := w.page ++ w.nextStart.elim [] fun start => w.table.scan (.startingAt start)

theorem ahead_startingAt (t : Table) (start : Bytes) : (startingAt t start).ahead = t.scan (.startingAt start) := rfl

/-- A page and the pages after it are the rows from its start on.  Where it is full the next one begins right after its
last key, and where it is not there are no more rows. -/
theorem page_append_next (t : Table) (start : Bytes) {limit : Nat} (hl : 0 < limit) :
    let rows := t.firstRows start limit
    let nextStart := if rows.length = limit then rows.getLast?.map fun last => last.1 ++ [0] else none
    rows ++ nextStart.elim [] (fun start => t.scan (.startingAt start)) = t.scan (.startingAt start) := by
  intro rows nextStart
  have hrows : rows = (t.scan (.startingAt start)).take limit := rfl
  simp only [nextStart]
  split
  · rename_i hfull
    cases hlast : rows.getLast? with
    | none =>
      rw [List.getLast?_eq_none_iff.1 hlast, List.length_nil] at hfull
      omega
    | some last =>
      simp only [Option.map_some, Option.elim_some]
      rw [t.scan_next hlast, hrows, List.take_append_drop]
  · rename_i hpart
    rw [hrows, List.length_take] at hpart
    rw [Option.elim_none, List.append_nil, hrows]
    exact List.take_of_length_le (by omega)

/-- **A step yields the first of the rows ahead, and leaves the others.** -/
theorem next_ahead {limit : Nat} (hl : 0 < limit) (w : PagedWalk) :
    (w.next limit).1 = w.ahead.head? ∧ (w.next limit).2.ahead = w.ahead.tail := by
  obtain ⟨t, page, nextStart⟩ := w
  cases page with
  | cons p page => exact ⟨rfl, rfl⟩
  | nil =>
    cases nextStart with
    | none => exact ⟨rfl, rfl⟩
    | some start =>
      have hall := page_append_next t start hl
      simp only at hall
      simp only [next, ahead, List.nil_append, Option.elim_some]
      cases hrows : t.firstRows start limit with
      | nil =>
        -- No rows are no full page, so that there is no next one either.
        rw [hrows, List.length_nil, if_neg (Nat.ne_of_lt hl), Option.elim_none, List.append_nil] at hall
        rw [← hall, List.length_nil, if_neg (Nat.ne_of_lt hl)]
        exact ⟨rfl, rfl⟩
      | cons p page =>
        rw [hrows] at hall
        rw [← hall]
        exact ⟨rfl, rfl⟩

/-- **Steps yield the rows ahead in their order, and leave the others.** -/
theorem take_ahead {limit : Nat} (hl : 0 < limit) : ∀ (n : Nat) (w : PagedWalk),
    (w.take limit n).1 = w.ahead.take n ∧ (w.take limit n).2.ahead = w.ahead.drop n
  | 0, w => ⟨rfl, rfl⟩
  | n + 1, w => by
    obtain ⟨hhead, htail⟩ := next_ahead hl w
    rw [take]
    cases hnext : w.next limit with
    | mk found w' =>
      rw [hnext] at hhead htail
      cases hahead : w.ahead with
      | nil =>
        rw [hahead] at hhead htail
        cases hhead
        exact ⟨List.take_nil.symm, htail⟩
      | cons p ps =>
        rw [hahead] at hhead htail
        cases hhead
        obtain ⟨hrows, hrest⟩ := take_ahead hl n w'
        rw [htail] at hrows hrest
        exact ⟨congrArg (p :: ·) hrows, hrest⟩

end PagedWalk

/-- **All pages together are the rows from the start on.** -/
theorem Table.rowsFrom_eq_scan (t : Table) (start : Bytes) : t.rowsFrom start = t.scan (.startingAt start) := by
  rw [rowsFrom, (PagedWalk.take_ahead (by decide) _ _).1, PagedWalk.ahead_startingAt]
  refine List.take_of_length_le ?_
  rw [← Std.ExtTreeMap.length_toList, scan]
  exact Nat.le_succ_of_le (List.length_filter_le _ _)

/-- **A snapshot yields the rows from a key on, each once and in the order of their keys,** however many pages they
take: so many steps yield so many of them, and after the last one there is none. -/
theorem FlatStore.snapshot_yields (s : Contents) (c : Column) (start : Bytes) :
    ∃ n rows, FlatStore.snapshot ⟨s, true⟩ = .ok n ∧ n.pairsFrom c start = rows ∧ Ascending rows ∧
      (∀ k v, (k, v) ∈ rows ↔ s.get c k = some v ∧ start ≤ k) ∧
      ∀ steps, let walk := (PagedWalk.startingAt (Columns.get s c) start).take Table.pageSize steps
        walk.1 = rows.take steps ∧ (rows.length ≤ steps → (walk.2.next Table.pageSize).1 = none) := by
  have hpage : 0 < Table.pageSize := by decide
  refine ⟨_, (Columns.get s c).scan (.startingAt start), rfl, Table.rowsFrom_eq_scan _ _, Table.ascending_scan _ _,
    fun k v => Table.mem_scan_startingAt, fun steps => ?_⟩
  obtain ⟨hrows, hrest⟩ := PagedWalk.take_ahead hpage steps (.startingAt (Columns.get s c) start)
  rw [PagedWalk.ahead_startingAt] at hrows hrest
  refine ⟨hrows, fun hlen => ?_⟩
  rw [(PagedWalk.next_ahead hpage _).1, hrest, List.drop_eq_nil_of_le hlen]
  rfl

/-- Four rows fill two pages.  The page after them begins behind a key that ends in a zero byte. -/
example :
    let rows : List Pair := [([], [2]), ([0], [1]), ([0, 0], [3]), ([0, 0, 0], [4])]
    ((PagedWalk.startingAt (.ofList rows.reverse) []).take 2 9).1 = rows := by decide +kernel

end TileAtlas
