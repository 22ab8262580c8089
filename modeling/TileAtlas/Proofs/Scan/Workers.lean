import Mathlib.Logic.Hydra
import TileAtlas.Proofs.Scan.Piece
import TileAtlas.Proofs.Store.Meaning
/-!
# Workers that share a range

A scan is walked by workers, each with a range of its own.  A worker that has not begun may split its
piece, one that walks may hand off the upper part of what it has not visited, and steps of different
workers come in any order (`Workers.Step`).  However they come, the ranges of the workers stay a
partition of the range of the scan (`KeyRange.Partition`), and what a worker has listed, with the rows it
has still to visit, are the rows of its range (`Worker.Sound`).  So when all are done they have listed
the rows of the scan, each once (`Snapshot.scan_divided`).

A split leaves two ranges of fewer numbers each, so no order of steps goes on for ever
(`Workers.wellFounded_step`).
-/
namespace TileAtlas

theorem Bytes.lt_next (k : Bytes) : k < k ++ [0] := Bytes.not_lt_next.1 (List.lt_irrefl _)

theorem KeyRange.contains_iff {r : KeyRange} {k : Bytes} :
    r.contains k = true ↔ ¬ k < r.start ∧ r.beforeStop k = true := by
  simp [contains]

/-! ## Partitions of a range -/

/-- Adjacent ranges, in order, that make up a range. -/
inductive KeyRange.Partition : KeyRange → List KeyRange → Prop where
  | whole (r : KeyRange) : Partition r [r]
  | cut {start k : Bytes} {stop : Option Bytes} {rs : List KeyRange} (hstart : ¬ k < start)
      (hstop : ∀ e, stop = some e → ¬ e < k) (h : Partition ⟨k, stop⟩ rs) :
      Partition ⟨start, stop⟩ (⟨start, some k⟩ :: rs)

namespace KeyRange.Partition

theorem halves {start k : Bytes} {stop : Option Bytes} (hstart : ¬ k < start) (hstop : ∀ e, stop = some e → ¬ e < k) :
    Partition ⟨start, stop⟩ [⟨start, some k⟩, ⟨k, stop⟩] :=
  cut hstart hstop (whole _)

theorem append {start k : Bytes} {stop : Option Bytes} {rs ss : List KeyRange} (hk : ¬ k < start)
    (hstop : ∀ e, stop = some e → ¬ e < k) (hr : Partition ⟨start, some k⟩ rs) (hs : Partition ⟨k, stop⟩ ss) :
    Partition ⟨start, stop⟩ (rs ++ ss) := by
  -- along the partition of the lower range, whose start moves
  generalize hq : (⟨start, some k⟩ : KeyRange) = q at hr
  induction hr generalizing start with
  | whole r => subst hq; exact cut hk hstop hs
  | @cut start' m stop' rs' hstart hm _ ih =>
    cases hq
    have hkm : ¬ k < m := hm k rfl
    have hstopm : ∀ e, stop = some e → ¬ e < m := fun e he hlt => hstop e he (Bytes.lt_of_lt_of_not_lt hlt hkm)
    exact cut hstart hstopm (ih hkm rfl)

theorem refine {r q : KeyRange} {before after qs : List KeyRange} (h : Partition r (before ++ q :: after))
    (hq : Partition q qs) : Partition r (before ++ qs ++ after) := by
  generalize hall : before ++ q :: after = all at h
  induction h generalizing before with
  | whole r =>
    cases before with
    | nil =>
      cases hall
      simpa using hq
    | cons b before => simp at hall
  | @cut start k stop rs hstart hstop hrest ih =>
    cases before with
    | nil =>
      cases hall
      exact append hstart hstop hq hrest
    | cons b before =>
      cases hall
      exact cut hstart hstop (ih rfl)

/-- **The ranges of a partition hold the rows, in order.** -/
theorem scan {r : KeyRange} {rs : List KeyRange} (h : Partition r rs) (t : Table) : rs.flatMap t.scan = t.scan r := by
  induction h with
  | whole r => rw [List.flatMap_cons, List.flatMap_nil, List.append_nil]
  | cut hstart hstop _ ih => rw [List.flatMap_cons, ih, t.scan_append hstart hstop]

/-- **A key of the range lies in one range of a partition, and any other key in none.** -/
theorem countP_contains {r : KeyRange} {rs : List KeyRange} (h : Partition r rs) (x : Bytes) :
    rs.countP (·.contains x) = if r.contains x then 1 else 0 := by
  induction h with
  | whole r => rw [List.countP_cons, List.countP_nil, Nat.zero_add]
  | @cut start k stop rs hstart hstop _ ih =>
    rw [List.countP_cons, ih]
    -- a key on one side of the cut is in the range if it is in that part, and not in the other
    by_cases hx : x < k
    · have hupper : contains ⟨k, stop⟩ x = false := by simp [contains, hx]
      have hstop' : beforeStop ⟨start, stop⟩ x = true := by
        unfold beforeStop
        cases stop with
        | none => rfl
        | some e => exact decide_eq_true (Bytes.lt_of_lt_of_not_lt hx (hstop e rfl))
      have hlower : contains ⟨start, some k⟩ x = contains ⟨start, stop⟩ x := by
        rw [contains, contains, hstop']; simp [beforeStop, hx]
      rw [hupper, hlower]
      simp
    · have hlower : contains ⟨start, some k⟩ x = false := by simp [contains, beforeStop, hx]
      have hxs : ¬ x < start := fun h => hx (Bytes.lt_of_lt_of_not_lt h hstart)
      have hupper : contains ⟨k, stop⟩ x = contains ⟨start, stop⟩ x := by
        simp [contains, beforeStop, hx, hxs]
      rw [hupper, hlower]
      simp

end KeyRange.Partition

/-! ## One worker -/

/-- A worker waits with a piece, or walks.  One that walks keeps the key that it began at and what it has
listed since. -/
inductive Worker where
  | waiting (p : Piece)
  | walking (first : Bytes) (listed : List Pair) (c : Cursor)

namespace Worker

/-- The range that the worker answers for, visited or not. -/
def share : Worker → KeyRange
  | waiting p => p.range
  | walking first _ c => ⟨first, c.piece.range.stop⟩

/-- The range that the worker has not visited. -/
def rest : Worker → KeyRange
  | waiting p => p.range
  | walking _ _ c => c.piece.range

def listed : Worker → List Pair
  | waiting _ => []
  | walking _ listed _ => listed

def isDone : Worker → Bool
  | waiting _ => false
  | walking _ _ c => c.done

/-- What a worker may do next, and the workers that it leaves, in the order of their ranges.  A call that changes
nothing, such as a split that is refused, is no step. -/
inductive Step : Worker → List Worker → Prop where
  | split {p lower upper : Piece} (h : p.trySplit = some (lower, upper)) :
      Step (waiting p) [waiting lower, waiting upper]
  | start (p : Piece) : Step (waiting p) [walking p.range.start [] (.ofPiece p)]
  | list {first : Bytes} {listed : List Pair} {c c' : Cursor} {x : Pair} (h : c.next = (some x, c')) :
      Step (walking first listed c) [walking first (listed ++ [x]) c']
  | finish {first : Bytes} {listed : List Pair} {c c' : Cursor} (hc : c.done = false) (h : c.next = (none, c')) :
      Step (walking first listed c) [walking first listed c']
  | handOff {first : Bytes} {listed : List Pair} {c c' : Cursor} {upper : Piece} (h : c.trySplit = some (c', upper)) :
      Step (walking first listed c) [walking first listed c', waiting upper]

/-- **A worker that is not done can go on.** -/
theorem exists_step {w : Worker} (h : w.isDone = false) : ∃ ws, Step w ws := by
  cases w with
  | waiting p => exact ⟨_, .start p⟩
  | walking first listed c =>
    cases hnext : c.next with
    | mk x c' =>
      cases x with
      | none => exact ⟨_, .finish h hnext⟩
      | some x => exact ⟨_, .list hnext⟩

end Worker

namespace Cursor

theorem next_some {c c' : Cursor} {x : Pair} (h : c.next = (some x, c')) :
    c.done = false ∧ ∃ ps, c.upcoming = x :: ps ∧ c.piece.range.contains x.1 = true ∧
      c' = { c with
        piece := { c.piece with range := { c.piece.range with start := x.1 ++ [0] } }
        ahead := some ps } := by
  unfold next at h
  split at h
  · cases h
  · rename_i hd
    split at h
    · rename_i p ps hup
      split at h
      · rename_i hin
        cases h
        exact ⟨by simpa using hd, ps, hup, hin, rfl⟩
      · cases h
    · cases h

/-- A cursor ends before a pair that lies outside its range, or after the last pair. -/
theorem next_none {c c' : Cursor} (hc : c.done = false) (h : c.next = (none, c')) :
    (∀ x ∈ c.upcoming.head?, c.piece.range.contains x.1 = false) ∧
      c' = { c with ahead := some c.upcoming.tail, done := true } := by
  unfold next at h
  rw [hc, if_neg Bool.false_ne_true] at h
  split at h
  · rename_i p ps hup
    have hup' : c.upcoming = p :: ps := hup
    split at h
    · cases h
    · rename_i hout
      cases h
      rw [hup']
      exact ⟨by simpa using hout, rfl⟩
  · rename_i hup
    have hup' : c.upcoming = [] := hup
    cases h
    rw [hup']
    exact ⟨by simp, rfl⟩

end Cursor

theorem Table.scan_eq_cons {t : Table} {r : KeyRange} {x : Pair} {ps : List Pair}
    (h : t.scan (.startingAt r.start) = x :: ps) (hx : r.contains x.1 = true) :
    ps = t.scan (.startingAt (x.1 ++ [0])) ∧ t.scan r = x :: t.scan ⟨x.1 ++ [0], r.stop⟩ := by
  have hlast : ((t.scan (.startingAt r.start)).take 1).getLast? = some x := by rw [h]; rfl
  have hps : ps = t.scan (.startingAt (x.1 ++ [0])) := by rw [t.scan_next hlast, h]; rfl
  refine ⟨hps, ?_⟩
  have hstop : r.beforeStop x.1 = true := (KeyRange.contains_iff.1 hx).2
  rw [← t.scan_startingAt_filter r, h, List.filter_cons_of_pos (by simpa using hstop), hps]
  exact congrArg (x :: ·) (t.scan_startingAt_filter ⟨x.1 ++ [0], r.stop⟩)

theorem Table.scan_eq_nil {t : Table} {r : KeyRange}
    (h : ∀ x ∈ (t.scan (.startingAt r.start)).head?, r.contains x.1 = false) : t.scan r = [] := by
  -- the rows ascend, so that none is in the range once one lies past its end
  have hasc := t.ascending_scan (.startingAt r.start)
  rw [← t.scan_startingAt_filter r, ← hasc.takeWhile_eq_filter KeyRange.beforeStop_of_lt]
  cases hrows : t.scan (.startingAt r.start) with
  | nil => rfl
  | cons x ps =>
    have hstart : ¬ x.1 < r.start := (mem_scan_startingAt.1 (hrows ▸ List.mem_cons_self : (x.1, x.2) ∈ _)).2
    have hout : r.contains x.1 = false := h x (by rw [hrows]; rfl)
    have hstop : r.beforeStop x.1 = false := by simpa [KeyRange.contains, hstart] using hout
    rw [List.takeWhile_cons_of_neg (by simp [hstop])]

namespace Worker

/-- What a worker has listed, with the rows it has not visited, are the rows of its share. -/
inductive Sound (t : Table) : Worker → Prop where
  | waiting {p : Piece} (hp : p.Reads t) : Sound t (waiting p)
  | walking {first : Bytes} {listed : List Pair} {c : Cursor} (hp : c.piece.Reads t)
      (hfirst : ¬ c.piece.range.start < first)
      (hlisted : listed ++ t.scan c.piece.range = t.scan ⟨first, c.piece.range.stop⟩)
      (hup : c.done = false → c.upcoming = t.scan (.startingAt c.piece.range.start))
      (hdone : c.done = true → t.scan c.piece.range = []) : Sound t (walking first listed c)

variable {t : Table} {w : Worker} {ws : List Worker}

theorem Sound.listed_append (h : Sound t w) : w.listed ++ t.scan w.rest = t.scan w.share := by
  cases h with
  | waiting => rfl
  | walking _ _ hlisted => exact hlisted

theorem Sound.listed_eq (h : Sound t w) (hd : w.isDone = true) : w.listed = t.scan w.share := by
  rw [← h.listed_append]
  cases h with
  | waiting => cases hd
  | walking _ _ _ _ hdone => exact (by rw [rest, hdone hd, List.append_nil])

/-- **The workers that a step leaves have the share of the worker that took it.** -/
theorem Step.partition (h : Step w ws) (hw : Sound t w) : w.share.Partition (ws.map share) := by
  cases h with
  | split hsplit =>
    obtain ⟨k, hk, rfl, rfl⟩ := Piece.trySplit_eq hsplit
    obtain ⟨hstart, hstop⟩ := ScanPlan.splitKey?_within hk
    exact .halves hstart hstop
  | start p => exact .whole _
  | list hnext =>
    obtain ⟨-, ps, -, -, rfl⟩ := Cursor.next_some hnext
    exact .whole _
  | finish hc hnext =>
    obtain ⟨-, rfl⟩ := Cursor.next_none hc hnext
    exact .whole _
  | handOff hsplit =>
    obtain ⟨-, lower, hlower, rfl⟩ := Cursor.trySplit_eq hsplit
    obtain ⟨k, hk, rfl, rfl⟩ := Piece.trySplit_eq hlower
    obtain ⟨hstart, hstop⟩ := ScanPlan.splitKey?_within hk
    cases hw with
    | walking _ hfirst => exact .halves (fun hlt => hstart (Bytes.lt_of_lt_of_not_lt hlt hfirst)) hstop

/-- **A step leaves sound workers.** -/
theorem Step.sound (h : Step w ws) (hw : Sound t w) : ∀ w' ∈ ws, Sound t w' := by
  cases h with
  | split hsplit =>
    obtain ⟨k, -, rfl, rfl⟩ := Piece.trySplit_eq hsplit
    cases hw with
    | waiting hp => simpa using ⟨Sound.waiting hp, Sound.waiting hp⟩
  | start p =>
    cases hw with
    | waiting hp =>
      have hstart : ¬ p.range.start < p.range.start := List.lt_irrefl _
      have hup : (Cursor.ofPiece p).upcoming = t.scan (.startingAt p.range.start) := hp _
      exact List.forall_mem_singleton.2 (.walking hp hstart rfl (fun _ => hup) nofun)
  | list hnext =>
    cases hw with
    | walking hp hfirst hlisted hup =>
      obtain ⟨hd, ps, hps, hin, rfl⟩ := Cursor.next_some hnext
      obtain ⟨hps', hrest⟩ := Table.scan_eq_cons ((hup hd).symm.trans hps) hin
      rw [hrest] at hlisted
      have hlisted' := (List.append_cons _ _ _).symm.trans hlisted
      refine List.forall_mem_singleton.2 (.walking hp (fun hlt => ?_) hlisted' (fun _ => hps') fun hd' => ?_)
      · have hxs := Bytes.lt_of_lt_of_not_lt (List.lt_trans (Bytes.lt_next _) hlt) hfirst
        exact (KeyRange.contains_iff.1 hin).1 hxs
      · cases hd.symm.trans hd'
  | finish hc hnext =>
    cases hw with
    | walking hp hfirst hlisted hup =>
      obtain ⟨hout, rfl⟩ := Cursor.next_none hc hnext
      rw [hup hc] at hout
      exact List.forall_mem_singleton.2 (.walking hp hfirst hlisted nofun fun _ => Table.scan_eq_nil hout)
  | handOff hsplit =>
    obtain ⟨hd, lower, hlower, rfl⟩ := Cursor.trySplit_eq hsplit
    obtain ⟨k, hk, rfl, rfl⟩ := Piece.trySplit_eq hlower
    obtain ⟨hstart, hstop⟩ := ScanPlan.splitKey?_within hk
    cases hw with
    | walking hp hfirst hlisted hup =>
      have hkf := fun hlt => hstart (Bytes.lt_of_lt_of_not_lt hlt hfirst)
      -- what is handed off is cut off the end of both sides
      rw [← t.scan_append hstart hstop, ← t.scan_append hkf hstop, ← List.append_assoc] at hlisted
      have hlisted' := List.append_cancel_right hlisted
      refine List.forall_mem_cons.2
        ⟨.walking hp hfirst hlisted' hup fun hd' => ?_, List.forall_mem_singleton.2 (.waiting hp)⟩
      cases hd.symm.trans hd'

end Worker

/-! ## How long workers may go on -/

namespace ScanPlan

def width (r : KeyRange) : Nat := (bounds r).2 - (bounds r).1

/-- **Both parts of a piece span fewer numbers than the piece.** -/
theorem width_split {plan : ScanPlan} {r : KeyRange} {k : Bytes} (h : plan.splitKey? r = some k) :
    width ⟨r.start, some k⟩ < width r ∧ width ⟨k, r.stop⟩ < width r := by
  obtain ⟨n, hlo, hhi, hlower, hupper⟩ := bounds_split h
  rw [width, width, width, hlower, hupper]
  simp only
  omega

theorem width_start_le {start start' : Bytes} (stop : Option Bytes) (h : ¬ start' < start) :
    width ⟨start', stop⟩ ≤ width ⟨start, stop⟩ :=
  Nat.sub_le_sub_left (KeyNumber.ofKey_mono h) _

end ScanPlan

namespace Piece

theorem width_trySplit {p lower upper : Piece} (h : p.trySplit = some (lower, upper)) :
    ScanPlan.width lower.range < ScanPlan.width p.range ∧ ScanPlan.width upper.range < ScanPlan.width p.range := by
  obtain ⟨k, hk, rfl, rfl⟩ := trySplit_eq h
  exact ScanPlan.width_split hk

theorem trySplit_eq_none {p : Piece} (h : ScanPlan.width p.range = 0) : p.trySplit = none := by
  cases hsplit : p.trySplit with
  | none => rfl
  | some parts =>
    obtain ⟨lower, upper⟩ := parts
    have hlower := (width_trySplit hsplit).1
    omega

theorem splitDeep_eq : ∀ (n m : Nat) (p : Piece), ScanPlan.width p.range ≤ n → ScanPlan.width p.range ≤ m →
    p.splitDeep n = p.splitDeep m
  | 0, 0, p, _, _ => rfl
  | 0, m + 1, p, hn, _ => by
    have hnone : p.trySplit = none := trySplit_eq_none (Nat.le_zero.1 hn)
    rw [splitDeep, splitDeep, hnone]
  | n + 1, 0, p, _, hm => by
    have hnone : p.trySplit = none := trySplit_eq_none (Nat.le_zero.1 hm)
    rw [splitDeep, splitDeep, hnone]
  | n + 1, m + 1, p, hn, hm => by
    rw [splitDeep, splitDeep]
    split
    · rfl
    · rename_i lower upper hsplit
      obtain ⟨hlower, hupper⟩ := width_trySplit hsplit
      rw [splitDeep_eq n m lower (by omega) (by omega), splitDeep_eq n m upper (by omega) (by omega)]

theorem trySplit_of_mem_splitDeep : ∀ (n : Nat) (p : Piece), ScanPlan.width p.range ≤ n →
    ∀ q ∈ p.splitDeep n, q.trySplit = none
  | 0, p, hn => List.forall_mem_singleton.2 (trySplit_eq_none (Nat.le_zero.1 hn))
  | n + 1, p, hn => by
    intro q hq
    rw [splitDeep] at hq
    split at hq
    · rename_i hnone
      rwa [List.mem_singleton.1 hq]
    · rename_i lower upper hsplit
      obtain ⟨hlower, hupper⟩ := width_trySplit hsplit
      rcases List.mem_append.1 hq with hq | hq
      · exact trySplit_of_mem_splitDeep n lower (by omega) q hq
      · exact trySplit_of_mem_splitDeep n upper (by omega) q hq

end Piece

namespace Worker

/-- What is left to do: first the numbers of the range, then the steps of one walk over it. -/
def effort : Worker → Nat × Nat
  | waiting p => (ScanPlan.width p.range, (p.pairsFrom p.range.start).length + 2)
  | walking _ _ c => (ScanPlan.width c.piece.range, c.upcoming.length + if c.done then 0 else 1)

def Less (w' w : Worker) : Prop := Prod.Lex (· < ·) (· < ·) w'.effort w.effort

theorem wellFounded_less : WellFounded Less :=
  InvImage.wf effort (WellFounded.prod_lex Nat.lt_wfRel.wf Nat.lt_wfRel.wf)

/-- **Each worker that a step leaves has less to do.** -/
theorem Step.less {w : Worker} {ws : List Worker} (h : Step w ws) : ∀ w' ∈ ws, Less w' w := by
  cases h with
  | split hsplit =>
    obtain ⟨hlower, hupper⟩ := Piece.width_trySplit hsplit
    exact List.forall_mem_cons.2 ⟨.left _ _ hlower, List.forall_mem_singleton.2 (.left _ _ hupper)⟩
  | start p => exact List.forall_mem_singleton.2 (.right _ (Nat.lt_succ_self _))
  | @list first listed c c' x hnext =>
    obtain ⟨hd, ps, hps, hin, rfl⟩ := Cursor.next_some hnext
    have hstart := (KeyRange.contains_iff.1 hin).1
    have hnext := fun hlt => hstart (List.lt_trans (Bytes.lt_next _) hlt)
    -- the start moves up; where it keeps its number, the walk has one row less before it
    have hwidth := ScanPlan.width_start_le c.piece.range.stop hnext
    refine List.forall_mem_singleton.2 (Prod.lex_def.2 ((Nat.lt_or_eq_of_le hwidth).imp_right fun heq => ⟨heq, ?_⟩))
    simp only [effort, hps]
    exact Nat.add_lt_add_right (Nat.lt_succ_self _) _
  | @finish first listed c c' hc hnext =>
    obtain ⟨-, rfl⟩ := Cursor.next_none hc hnext
    refine List.forall_mem_singleton.2 (.right _ ?_)
    have htail : c.upcoming.tail.length ≤ c.upcoming.length := by rw [List.length_tail]; exact Nat.sub_le _ _
    rw [hc]
    exact Nat.lt_succ_of_le htail
  | handOff hsplit =>
    obtain ⟨-, lower, hpiece, rfl⟩ := Cursor.trySplit_eq hsplit
    obtain ⟨hlower, hupper⟩ := Piece.width_trySplit hpiece
    exact List.forall_mem_cons.2 ⟨.left _ _ hlower, List.forall_mem_singleton.2 (.left _ _ hupper)⟩

end Worker

/-! ## All workers -/

namespace Workers

inductive Step : List Worker → List Worker → Prop where
  | at {w : Worker} {ws : List Worker} (before after : List Worker) (h : w.Step ws) :
      Step (before ++ w :: after) (before ++ ws ++ after)

inductive Reach (p : Piece) : List Worker → Prop where
  | start : Reach p [.waiting p]
  | step {ws ws' : List Worker} (h : Reach p ws) (hs : Step ws ws') : Reach p ws'

/-- **No order of steps goes on for ever.** -/
theorem wellFounded_step : WellFounded fun ws' ws => Step ws ws' := by
  -- as a multiset, the workers lose one and gain some that have less to do
  have hwf := InvImage.wf (fun ws : List Worker => (ws : Multiset Worker)) Worker.wellFounded_less.cutExpand
  refine Subrelation.wf (fun {ws' ws} h => ?_) hwf
  obtain @⟨w, new, before, after, h⟩ := h
  refine ⟨new, w, h.less, ?_⟩
  simp only [← Multiset.coe_add, ← Multiset.cons_coe, ← Multiset.singleton_add]
  ac_rfl

/-- **Workers stay sound, and share the range of the piece.** -/
theorem Reach.sound {t : Table} {p : Piece} (hp : p.Reads t) {ws : List Worker} (h : Reach p ws) :
    p.range.Partition (ws.map Worker.share) ∧ ∀ w ∈ ws, w.Sound t := by
  induction h with
  | start => exact ⟨.whole _, List.forall_mem_singleton.2 (.waiting hp)⟩
  | step _ hs ih =>
    obtain @⟨w, ws, before, after, hs⟩ := hs
    obtain ⟨hshare, hsound⟩ := ih
    have hw := hsound w (by simp)
    constructor
    · rw [List.map_append, List.map_cons] at hshare
      rw [List.map_append, List.map_append]
      exact hshare.refine (hs.partition hw)
    · intro w' hw'
      rcases List.mem_append.1 hw' with hw' | hw'
      · rcases List.mem_append.1 hw' with hw' | hw'
        · exact hsound w' (by simp [hw'])
        · exact hs.sound hw w' hw'
      · exact hsound w' (by simp [hw'])

theorem exists_step {ws : List Worker} {w : Worker} (hw : w ∈ ws) (h : w.isDone = false) : ∃ ws', Step ws ws' := by
  obtain ⟨before, after, rfl⟩ := List.append_of_mem hw
  obtain ⟨ws', hs⟩ := Worker.exists_step h
  exact ⟨_, .at before after hs⟩

end Workers

/-! ## Scans -/

/-- A snapshot shows a table: it lists the table, and reads it from any key on, in the order of keys. -/
structure Snapshot.Shows (s : Snapshot) (c : Column) (t : Table) : Prop where
  scan : ∀ r o, s.reader.scan c r o = .ok (o.arrange (t.scan r))
  walk : ∀ start, s.pairsFrom c start = t.scan (.startingAt start)

theorem Store.snapshot_shows {s : Store} {n : Snapshot} (h : s.snapshot = .ok n) (c : Column) :
    n.Shows c (Columns.get s.contents c) := by
  obtain ⟨hreader, hwalk⟩ := snapshot_reads h
  exact ⟨fun r o => by rw [hreader]; rfl, hwalk c⟩

namespace Snapshot

variable {s : Snapshot} {c : Column} {t : Table}

/-- **However a scan is divided among workers, they list the rows of its range, each once.**  Whatever is
said about the segments and whatever weight is worth splitting at, the workers at any time have a
partition of the range, go on until all are done, and are all done after finitely many steps. -/
theorem scan_divided (hs : s.Shows c t) {range : KeyRange} {minSplit : Float} {p : Piece}
    (hp : Piece.plan? s c range minSplit = .ok p) :
    (∀ ws, Workers.Reach p ws →
      range.Partition (ws.map Worker.share) ∧
      (∀ k, (ws.map Worker.share).countP (·.contains k) = if range.contains k then 1 else 0) ∧
      (∀ w ∈ ws, w.listed ++ t.scan w.rest = t.scan w.share) ∧
      (∀ w ∈ ws, w.isDone = false → ∃ ws', Workers.Step ws ws') ∧
      ((∀ w ∈ ws, w.isDone = true) →
        s.reader.scan c range .ascending = .ok (ws.flatMap Worker.listed) ∧ Ascending (ws.flatMap Worker.listed))) ∧
    WellFounded (fun ws' ws => Workers.Step ws ws') ∧
    ∃ n, ∀ m, n ≤ m → p.splitDeep m = p.splitDeep n ∧ ∀ q ∈ p.splitDeep m, q.trySplit = none := by
  have hpiece : p.range = range ∧ p.Reads t := by
    unfold Piece.plan? at hp
    split at hp
    · cases hp
      exact ⟨rfl, hs.walk⟩
    · cases hp
  obtain ⟨rfl, hreads⟩ := hpiece
  refine ⟨fun ws hws => ?_, Workers.wellFounded_step, ScanPlan.width p.range, fun m hm => ?_⟩
  · obtain ⟨hshare, hsound⟩ := hws.sound hreads
    refine ⟨hshare, hshare.countP_contains, fun w hw => (hsound w hw).listed_append,
      fun w hw => Workers.exists_step hw, fun hdone => ?_⟩
    have hlisted : ws.flatMap Worker.listed = t.scan p.range := by
      rw [← hshare.scan t, List.flatMap_map]
      exact List.flatMap_congr fun w hw => (hsound w hw).listed_eq (hdone w hw)
    rw [hlisted, hs.scan]
    exact ⟨rfl, t.ascending_scan p.range⟩
  · exact ⟨p.splitDeep_eq m _ hm (Nat.le_refl _), p.trySplit_of_mem_splitDeep m hm⟩

/-- Two rows of a store, in a segment that is said to hold a million, split at a weight that is not a number. -/
theorem scan_divided_misdescribed :
    let rows : List Pair := [([1], [10]), ([2, 0], [20])]
    let store : Store := .flat ⟨.const (.ofList rows), true⟩
    let info : SegmentMeta := ⟨7, 0, [0], [255], 0, 1000000, 0, 1, 1⟩
    ∃ n p, store.snapshot = .ok n ∧
      Piece.plan? { n with segments := fun _ => [info] } .elements .all (0.0 / 0.0) = .ok p ∧
      ∀ ws, Workers.Reach p ws → (∀ w ∈ ws, w.isDone = true) → ws.flatMap Worker.listed = rows := by
  intro rows store info
  obtain ⟨n, hn⟩ : ∃ n, store.snapshot = .ok n := ⟨_, rfl⟩
  have hstore := Store.snapshot_shows hn .elements
  have hs : Shows { n with segments := fun _ => [info] } .elements (Columns.get store.contents .elements) :=
    ⟨hstore.scan, hstore.walk⟩
  have hruns : SortedRun.classify .elements [info] = .ok [⟨0, [info]⟩] := SortedRun.classify_singleton .elements rfl
  have hp : Piece.plan? { n with segments := fun _ => [info] } .elements .all (0.0 / 0.0) =
      .ok ⟨.ofRuns [⟨0, [info]⟩] (0.0 / 0.0), n.pairsFrom .elements, .all⟩ := by
    rw [Piece.plan?, hruns]
  refine ⟨n, _, hn, hp, fun ws hws hdone => ?_⟩
  obtain ⟨-, -, -, -, hall⟩ := (scan_divided hs hp).1 ws hws
  have hread : (Columns.get store.contents .elements).scan .all = rows := by decide +kernel
  exact (Except.ok.inj ((hall hdone).1.symm.trans (hs.scan .all .ascending))).trans hread

end Snapshot

end TileAtlas
