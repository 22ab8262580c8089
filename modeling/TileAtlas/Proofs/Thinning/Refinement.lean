import TileAtlas.Proofs.Store.Rows
import TileAtlas.Proofs.Thinning.Steps
/-!
# Thinning by a queue is thinning plainly

After any number of drops the same vertices are left as if every triangle had been measured each time
(`Thinning.State.Sound.run`): what is stale in the queue neither causes a drop nor prevents one.  On the way, no vertex
is looked for where there is none, and there are always segments whose mean length can be taken
(`thin_eq_thinNaively`).
-/
namespace TileAtlas

namespace Thinning

variable {A L : Type} {m : ThinningMeasure A L} {points : Array Point} {s : State A L} {vs : List Nat} {stop : Nat}

/-- What holds after drops.  Where thinning is done, the triangle that was in front is not in the queue any more. -/
structure State.Stands (m : ThinningMeasure A L) (points : Array Point) (stop : Nat) (s : State A L) (vs : List Nat) :
    Prop where
  threads : s.Threads points.size vs []
  queues : s.Queues m points []
  covers : s.isDone m stop = false → s.Covers points.size []

theorem State.Sound.stands (h : s.Sound m points vs []) : s.Stands m points stop vs :=
  ⟨h.threads, h.queues, fun _ => h.covers⟩

/-- **Only the ends are left** if nothing in the queue is fresh. -/
theorem State.Sound.length_le_two (h : s.Sound m points vs []) (hnone : s.queue.dropWhile (!s.isFresh ·) = []) :
    vs.length ≤ 2 := by
  match vs, h with
  | [], _ => exact Nat.zero_le 2
  | [x], _ => exact Nat.le_succ 1
  | [x, y], _ => exact le_rfl
  | x :: y :: z :: vs, h =>
    obtain ⟨d, hd, hfresh, -⟩ := h.exists_candidate (List.prefix_append [x, y, z] vs).isInfix
    have hstale := List.dropWhile_eq_nil_iff.1 hnone d hd
    rw [hfresh] at hstale
    cases hstale

theorem run_of_nil (h : s.queue.dropWhile (!s.isFresh ·) = []) (k : Nat) : run m points stop (k + 1) s = s := by
  rw [run, h]

theorem run_of_cons {c : Candidate A} {rest : List (Candidate A)} {l : Link}
    (hfront : s.queue.dropWhile (!s.isFresh ·) = c :: rest) (hl : s.link? c.index = some l) (k : Nat) :
    run m points stop (k + 1) s =
      if isDoneAt m stop s.length s.remaining then { s with queue := rest }
      else run m points stop k (({ s with queue := rest } : State A L).drop m points c.index l) := by
  rw [run, hfront]
  dsimp only
  rw [show ({ s with queue := rest } : State A L).link? c.index = some l from hl]
  rfl

/-- **Step by step the queue drops what the plain way drops.** -/
theorem State.Sound.run (hm : m.IsOrdered) (stop : Nat) : ∀ (k : Nat) {s : State A L} {vs : List Nat},
    s.Sound m points vs [] → ∃ vs', (run m points stop k s).Stands m points stop vs' ∧
      vs'.map (vertex points) = runNaively m stop k s.length (vs.map (vertex points))
  | 0, s, vs, h => ⟨vs, h.stands, rfl⟩
  | k + 1, s, vs, h => by
    cases hfront : s.queue.dropWhile (!s.isFresh ·) with
    | nil =>
      rw [run_of_nil hfront]
      refine ⟨vs, h.stands, (runNaively_of_short ?_ _).symm⟩
      rw [List.length_map]
      exact h.length_le_two hfront
    | cons c rest =>
      obtain ⟨l, pre, post, hl, rfl, harea⟩ := h.front hfront
      rw [run_of_cons hfront hl, runNaively_vertices (h.smallest harea hfront), ← h.threads.remaining]
      split
      · rename_i hdone
        obtain ⟨-, hsub, -⟩ := State.dropWhile_eq_cons hfront
        have hrest : rest.Sublist s.queue := (List.sublist_cons_self c rest).trans hsub
        exact ⟨_, ⟨{ h.threads with }, h.queues.sublist hrest, fun hgo => absurd (hdone.symm.trans hgo) nofun⟩, rfl⟩
      · obtain ⟨hdrop, hlength⟩ := h.drop hm hfront
        rw [← hlength]
        exact hdrop.run hm stop k

/-! ## What is left in the end -/

/-- The points whose vertices are left. -/
def State.kept (s : State A L) (points : List Point) : List Point :=
  (points.zip s.links.toList).filterMap fun (p, l) => l.map fun _ => p

theorem filterMap_eq_map_filter {α β γ : Type} (f : α → β) (o : α → Option γ) : ∀ l : List α,
    (l.filterMap fun x => (o x).map fun _ => f x) = (l.filter fun x => (o x).isSome).map f
  | [] => rfl
  | x :: l => by
    rw [List.filterMap_cons, List.filter_cons]
    cases h : o x with
    | none => exact filterMap_eq_map_filter f o l
    | some c => exact congrArg (f x :: ·) (filterMap_eq_map_filter f o l)

/-- **What is read off the links** are the points of the vertices left. -/
theorem State.Threads.kept {points : List Point} {due : List Nat} (h : s.Threads points.toArray.size vs due) :
    s.kept points = vs.map (vertex points.toArray) := by
  have hlength : s.links.toList.length = points.length := by simp [h.size]
  have hzip : points.zip s.links.toList =
      (List.range points.length).map fun i => (vertex points.toArray i, s.link? i) := by
    refine List.ext_getElem (by simp [hlength]) fun i hi _ => ?_
    have hpoint : i < points.length := by simp at hi; omega
    have hlink : i < s.links.size := by rw [h.size]; simpa using hpoint
    simp [vertex, State.link?, hpoint, hlink]
  have hvs : ((List.range points.length).filter fun i => (s.link? i).isSome) = vs := by
    refine eq_of_ascending ((List.pairwise_lt_range.filter _).imp Nat.compare_eq_lt.2)
      (h.ascending.imp Nat.compare_eq_lt.2) fun i => ?_
    rw [List.mem_filter, List.mem_range, h.left]
    exact and_iff_right_of_imp fun hi => by simpa using h.lt ((h.left i).2 hi)
  rw [State.kept, hzip, List.filterMap_map, ← hvs]
  exact filterMap_eq_map_filter (vertex points.toArray) s.link? _

/-- What can be relied on whenever the queue is asked for a triangle, `points.size` being the number of vertices at the
start. -/
structure State.Safe (m : ThinningMeasure A L) (points : Array Point) (stop : Nat) (s : State A L) : Prop where
  /-- The queue tells of inner vertices only. -/
  queued : ∀ c ∈ s.queue, 0 < c.index ∧ c.index + 1 < points.size
  /-- The neighbours of an inner vertex are in the line, on both sides of it. -/
  neighbours : ∀ i l, s.link? i = some l → 0 < i → i + 1 < points.size →
    l.before < i ∧ i < l.after ∧ l.after < points.size
  /-- A fresh triangle is that of the vertex with its neighbours as they are now. -/
  fresh : ∀ c ∈ s.queue, ∀ l, s.link? c.index = some l → c.generation = l.generation →
    c.area = m.area (vertex points l.before) (vertex points c.index) (vertex points l.after)
  /-- Every inner vertex that is left has one, until thinning is done. -/
  covered : s.isDone m stop = false → ∀ i l, s.link? i = some l → 0 < i → i + 1 < points.size →
    ∃ c ∈ s.queue, c.index = i ∧ s.isFresh c = true
  /-- No vertex has been measured again more often than vertices were dropped. -/
  generations : ∀ i l, s.link? i = some l → l.generation + s.remaining ≤ points.size
  queuedGenerations : ∀ c ∈ s.queue, c.generation + s.remaining ≤ points.size
  /-- The mean length is that of at least one segment. -/
  segments : 0 < s.remaining - 1

theorem State.Stands.safe (h : s.Stands m points stop vs) (hsize : 2 ≤ points.size) : s.Safe m points stop where
  queued := h.queues.inner
  neighbours i l hl hpos hlt := by
    obtain ⟨pre, post, rfl⟩ := h.threads.exists_split hl hpos hlt
    have hasc := h.threads.ascending
    simp only [List.pairwise_append, List.pairwise_cons, List.mem_cons, forall_eq_or_imp] at hasc
    obtain ⟨-, ⟨⟨hbefore, -⟩, ⟨hafter, -⟩, -⟩, -⟩ := hasc
    exact ⟨hbefore, hafter, h.threads.lt (by simp)⟩
  fresh c hc l hl hfresh := h.queues.exact c hc l hl List.not_mem_nil hfresh
  covered hgo i l hl hpos hlt := by
    obtain ⟨c, hc, rfl, hfresh⟩ := h.covers hgo i l hl hpos hlt List.not_mem_nil
    exact ⟨c, hc, rfl, State.isFresh_iff.2 ⟨l, hl, hfresh⟩⟩
  generations i l hl := h.threads.measured i l hl
  queuedGenerations := h.queues.measured
  segments := by
    rw [h.threads.remaining]
    match vs, h.threads.first, h.threads.last with
    | [x], hfirst, hlast =>
      -- the two ends are different vertices
      have hends := hfirst.symm.trans hlast
      exact absurd (Option.some.inj hends) (by omega)
    | x :: y :: vs, _, _ => exact Nat.succ_pos _

theorem run_start (hm : m.IsOrdered) (stop : Nat) {points : List Point} (h : 2 ≤ points.length) (k : Nat) :
    (run m points.toArray stop k (start m points.toArray)).Safe m points.toArray stop ∧
      (run m points.toArray stop k (start m points.toArray)).kept points = runNaively m stop k (m.total points) points := by
  have hstart : (start m points.toArray).Sound m points.toArray (List.range points.toArray.size) [] :=
    sound_start hm (by rw [List.size_toArray]; omega)
  obtain ⟨vs, hstands, heq⟩ := hstart.run hm stop k
  have hall : (List.range points.toArray.size).map (vertex points.toArray) = points :=
    List.ext_getElem (by simp) fun i hi _ => by
      have hpoint : i < points.length := by simpa using hi
      simp [vertex, hpoint]
  rw [hall] at heq
  exact ⟨hstands.safe (by simpa using h), hstands.threads.kept.trans heq⟩

end Thinning

open Thinning

theorem thin_eq {A L : Type} {m : ThinningMeasure A L} (hm : m.IsOrdered) (stop : Nat) {points : List Point}
    (h : 2 ≤ points.length) : thin m stop points = thinNaively m stop points :=
  (run_start hm stop h (points.toArray.size - 2)).2

namespace Simplifier

theorem isOrdered_measure (density : Float) : (measure density).IsOrdered where
  total a b := by simpa [measure] using Nat.le_total a b
  trans := by
    simp only [measure, decide_eq_true_eq]
    exact Nat.le_trans

theorem simplify_eq (s : Simplifier) (level : TileLevel) (closed : Bool) (points : List Point) :
    s.simplify level closed points = accept (s.minimumDensity level) closed
      (thinNaively (measure (s.minimumDensity level)) (points.length >>> level.val) points) := by
  rw [simplify]
  split
  · rename_i hshort
    rw [thinNaively, runNaively_of_short (by omega)]
  · rw [thin_eq (isOrdered_measure _) _ (by omega)]

end Simplifier

/-- **Thinning by a queue is thinning plainly,** whatever areas and lengths are, at every number of drops and once
further ones change nothing; so is simplifying. -/
theorem thin_refines :
    (∀ {A L : Type} {m : ThinningMeasure A L}, m.IsOrdered → ∀ (stop : Nat) (points : List Point), 3 ≤ points.length →
      thin m stop points = thinNaively m stop points ∧
      ∀ k, (run m points.toArray stop k (start m points.toArray)).Safe m points.toArray stop ∧
        (run m points.toArray stop k (start m points.toArray)).kept points =
          runNaively m stop k (m.total points) points ∧
        (points.length - 2 ≤ k → (run m points.toArray stop k (start m points.toArray)).kept points =
          thinNaively m stop points)) ∧
    ∀ (s : Simplifier) (level : TileLevel) (closed : Bool) (points : List Point),
      s.simplify level closed points = Simplifier.accept (s.minimumDensity level) closed
        (thinNaively (Simplifier.measure (s.minimumDensity level)) (points.length >>> level.val) points) := by
  refine ⟨fun {A L m} hm stop points h => ⟨thin_eq hm stop (by omega), fun k => ?_⟩, Simplifier.simplify_eq⟩
  obtain ⟨hsafe, hkept⟩ := run_start hm stop (by omega : 2 ≤ points.length) k
  refine ⟨hsafe, hkept, fun hk => ?_⟩
  obtain ⟨j, rfl⟩ := Nat.exists_eq_add_of_le hk
  rw [hkept, runNaively_add j (by omega), thinNaively]

/-- Two vertices are equally small; once the first of them is dropped, the other one has grown. -/
theorem thin_refines_tied :
    let m : ThinningMeasure Nat Nat := ⟨fun a b c => (2 * b.y.toInt - a.y.toInt - c.y.toInt).natAbs, fun a b => a ≤ b,
      List.length, fun length _ _ _ => length - 1, fun _ _ => false⟩
    let points : List Point := [⟨0, 0⟩, ⟨1, 2⟩, ⟨2, 2⟩, ⟨3, 0⟩, ⟨4, 8⟩, ⟨5, 8⟩]
    m.IsOrdered ∧ thin m 5 points = [⟨0, 0⟩, ⟨3, 0⟩, ⟨4, 8⟩, ⟨5, 8⟩] ∧
      ∀ k, (run m points.toArray 5 k (start m points.toArray)).Safe m points.toArray 5 := by
  intro m points
  have hm : m.IsOrdered := ⟨fun a b => by simpa [m] using Nat.le_total a b, by
    simp only [m, decide_eq_true_eq]
    exact Nat.le_trans⟩
  obtain ⟨heq, hrun⟩ := thin_refines.1 hm 5 points (by decide)
  exact ⟨hm, heq.trans (by decide +kernel), fun k => (hrun k).1⟩

end TileAtlas
