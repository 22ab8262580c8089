import Mathlib.Data.List.Forall2
import TileAtlas.Assembly.Stitch
import TileAtlas.Proofs.Thinning.Refinement
/-!
# What is left of a geometry

Any inner vertex that is left may be dropped next: those left are threaded all the same, so that the walk along the
links comes by each of them once, from one end of the line to the other (`Thinning.State.Threads.walks`).  Nothing is
asked of areas and lengths for that, not even that areas can be compared.  So a line is left with both its ends and
some of its vertices in between, and shapes and holes with some of their rings in their order
(`Geometry.simplify_left`).
-/
namespace TileAtlas

namespace Thinning

variable {A L : Type} {m : ThinningMeasure A L} {points : Array Point} {s : State A L} {vs due : List Nat} {n i : Nat}

/-! ## The walk along the links -/

/-- The walk along the links from a vertex ends at the last one, and comes by these. -/
inductive State.Walks (s : State A L) (n : Nat) : Nat → List Nat → Prop
  | last {i : Nat} : i + 1 = n → Walks s n i [i]
  | next {i : Nat} {l : Link} {is : List Nat} : i + 1 ≠ n → s.link? i = some l → Walks s n l.after is → Walks s n i (i :: is)

theorem walks_of_isChain : ∀ {i : Nat} {is : List Nat}, (i :: is).IsChain s.Linked → (∀ j ∈ i :: is, j < n) →
    (i :: is).Pairwise (· < ·) → (i :: is).getLast? = some (n - 1) → s.Walks n i (i :: is)
  | i, [], _, hlt, _, hlast => by
    have hi := hlt i List.mem_cons_self
    have hend : i = n - 1 := Option.some.inj hlast
    exact .last (by omega)
  | i, j :: is, hchain, hlt, hasc, hlast => by
    obtain ⟨⟨hafter, -⟩, hrest⟩ := List.isChain_cons_cons.1 hchain
    obtain ⟨hfirst, hasc'⟩ := List.pairwise_cons.1 hasc
    obtain ⟨l, hl, rfl⟩ := Option.map_eq_some_iff.1 hafter
    have hij := hfirst l.after List.mem_cons_self
    have hj := hlt l.after (List.mem_cons_of_mem _ List.mem_cons_self)
    refine .next (by omega) hl (walks_of_isChain hrest (fun k hk => hlt k (List.mem_cons_of_mem _ hk)) hasc' ?_)
    rwa [List.getLast?_cons_cons] at hlast

/-- **The walk comes by the vertices left,** by each of them once. -/
theorem State.Threads.walks (h : s.Threads n vs due) : s.Walks n 0 vs := by
  match vs, h with
  | v :: vs, h =>
    obtain rfl : v = 0 := Option.some.inj h.first
    exact walks_of_isChain h.chain (fun j hj => h.lt hj) h.ascending h.last

/-! ## Whatever is dropped -/

theorem State.Threads.remeasure (h : s.Threads points.size vs (i :: due)) (hi : i ∈ vs) :
    (s.remeasure m points i).Threads points.size vs due := by
  by_cases hend : i = 0 ∨ i + 1 = points.size
  · rw [State.remeasure_of_end hend]
    exact h.of_due
  · obtain ⟨l, hl, hagain⟩ := h.exists_remeasures (m := m) hi hend
    exact hagain.threads hl h

/-- **Any inner vertex may be dropped.** -/
theorem State.Threads.drop {l : Link} {pre post : List Nat}
    (h : s.Threads points.size (pre ++ l.before :: i :: l.after :: post) []) (queue : List (Candidate A)) :
    (({ s with queue := queue } : State A L).drop m points i l).Threads points.size (pre ++ l.before :: l.after :: post) [] := by
  obtain ⟨s₁, hun, -, heq⟩ := h.exists_unlinks (m := m) queue
  rw [heq]
  exact ((hun.threads h).remeasure (by simp)).remeasure (by simp)

/-- The queue tells of inner vertices only. -/
def State.IsInner (n : Nat) (s : State A L) : Prop := ∀ c ∈ s.queue, 0 < c.index ∧ c.index + 1 < n

theorem isInner_start : (start m points).IsInner points.size := by
  intro c hc
  obtain ⟨i, hpos, hlt, rfl⟩ := mem_queue_start.1 hc
  exact ⟨hpos, hlt⟩

theorem State.IsInner.remeasure (h : s.IsInner points.size) (hi : i < points.size) :
    (s.remeasure m points i).IsInner points.size := by
  unfold State.remeasure
  split
  · exact h
  · rename_i hinner
    simp only [Bool.or_eq_true, decide_eq_true_eq] at hinner
    split
    · exact h
    · split
      · intro c hc
        rcases mem_enqueue.1 hc with rfl | hc
        · exact ⟨by dsimp only; omega, by dsimp only; omega⟩
        · exact h c hc
      · exact h

theorem State.IsInner.drop {l : Link} {pre post : List Nat} {queue : List (Candidate A)}
    (h : s.Threads points.size (pre ++ l.before :: i :: l.after :: post) [])
    (hqueue : ∀ c ∈ queue, 0 < c.index ∧ c.index + 1 < points.size) :
    (({ s with queue := queue } : State A L).drop m points i l).IsInner points.size := by
  obtain ⟨s₁, hun, -, heq⟩ := h.exists_unlinks (m := m) queue
  have hinner : s₁.IsInner points.size := fun c hc => hqueue c (hun.queue ▸ hc)
  rw [heq]
  exact (hinner.remeasure (h.lt (by simp))).remeasure (h.lt (by simp))

/-- **However many are dropped, and whichever,** those left are threaded. -/
theorem State.Threads.run (stop : Nat) : ∀ (k : Nat) {s : State A L} {vs : List Nat}, s.Threads points.size vs [] →
    s.IsInner points.size → ∃ vs', (run m points stop k s).Threads points.size vs' []
  | 0, _, vs, h, _ => ⟨vs, h⟩
  | k + 1, s, vs, h, hinner => by
    cases hfront : s.queue.dropWhile (!s.isFresh ·) with
    | nil =>
      rw [run_of_nil hfront]
      exact ⟨vs, h⟩
    | cons c rest =>
      obtain ⟨hfresh, hsub, -⟩ := State.dropWhile_eq_cons hfront
      obtain ⟨l, hl, -⟩ := State.isFresh_iff.1 hfresh
      rw [run_of_cons hfront hl]
      split
      · exact ⟨vs, { h with }⟩
      · obtain ⟨hpos, hlt⟩ := hinner c (hsub.subset List.mem_cons_self)
        obtain ⟨pre, post, rfl⟩ := h.exists_split hl hpos hlt
        have hrest : ∀ d ∈ rest, 0 < d.index ∧ d.index + 1 < points.size := fun d hd =>
          hinner d (hsub.subset (List.mem_cons_of_mem c hd))
        exact (h.drop rest).run stop k (.drop h hrest)

theorem exists_threads_run (m : ThinningMeasure A L) (stop : Nat) {points : List Point} (h : 0 < points.length) (k : Nat) :
    ∃ vs, (run m points.toArray stop k (start m points.toArray)).Threads points.length vs [] :=
  (threads_start (by simpa using h)).run stop k isInner_start

end Thinning

open Thinning

/-! ## What is left of a line or ring -/

/-- Of one path another is left: some of its points in their order, among them both its ends. -/
structure Path.IsLeftOf (qs ps : Path) : Prop where
  sublist : qs.Sublist ps
  head : qs.head? = ps.head?
  last : qs.getLast? = ps.getLast?
  closed : ps.isClosed = true → qs.isClosed = true

namespace Path

theorem isLeftOf_refl (ps : Path) : ps.IsLeftOf ps := ⟨.refl ps, rfl, rfl, id⟩

theorem IsLeftOf.of_ends {qs ps : Path} (hsub : qs.Sublist ps) (hhead : qs.head? = ps.head?)
    (hlast : qs.getLast? = ps.getLast?) (hlength : 2 ≤ qs.length) : qs.IsLeftOf ps where
  sublist := hsub
  head := hhead
  last := hlast
  closed h := by
    unfold isClosed at h ⊢
    rw [Bool.and_eq_true] at h ⊢
    exact ⟨decide_eq_true hlength, by rw [hhead, hlast]; exact h.2⟩

end Path

theorem Thinning.State.kept_sublist {A L : Type} {s : State A L} {points : List Point}
    (h : s.links.size = points.length) : (s.kept points).Sublist points := by
  have hzip : (points.zip s.links.toList).map Prod.fst = points := List.map_fst_zip (by simp [h])
  have hkept : s.kept points = ((points.zip s.links.toList).filter fun p => p.2.isSome).map Prod.fst :=
    filterMap_eq_map_filter Prod.fst Prod.snd _
  have hsub : (((points.zip s.links.toList).filter fun p => p.2.isSome).map Prod.fst).Sublist
      ((points.zip s.links.toList).map Prod.fst) := List.filter_sublist.map Prod.fst
  rwa [← hkept, hzip] at hsub

/-- **Both ends are left.** -/
theorem Thinning.State.Threads.isLeftOf {A L : Type} {s : State A L} {points : List Point} {vs due : List Nat}
    (h : s.Threads points.length vs due) (hlength : 2 ≤ points.length) : Path.IsLeftOf (s.kept points) points := by
  have hkept : s.kept points = vs.map (vertex points.toArray) := by
    rw [← List.size_toArray] at h
    exact h.kept
  have hvertex : ∀ i, i < points.length → points[i]? = some (vertex points.toArray i) := fun i hi => by
    rw [← getElem?_vertex (by simpa using hi), List.getElem?_toArray]
  refine .of_ends (kept_sublist h.size) ?_ ?_ ?_
  · rw [hkept, List.head?_map, h.first, List.head?_eq_getElem?, hvertex 0 (by omega)]
    rfl
  · rw [hkept, List.getLast?_map, h.last, List.getLast?_eq_getElem?, hvertex _ (by omega)]
    rfl
  · rw [hkept, List.length_map]
    match vs, h.first, h.last with
    | [x], hfirst, hlast =>
      have hends := hfirst.symm.trans hlast
      exact absurd (Option.some.inj hends) (by omega)
    | x :: y :: vs, _, _ => exact Nat.le_add_left 2 _

/-! ## What is left of a geometry -/

/-- Of one shape another is left: its outer ring, and some of its own holes in their order. -/
structure Shape.IsLeftOf (t s : Shape) : Prop where
  outer : Path.IsLeftOf t.outer s.outer
  holes : List.SublistForall₂ Path.IsLeftOf t.holes s.holes

inductive Geometry.IsLeftOf : Geometry → Geometry → Prop
  | point (p : Point) : IsLeftOf (.point p) (.point p)
  | multiPoint (ps : List Point) : IsLeftOf (.multiPoint ps) (.multiPoint ps)
  | line {qs ps : List Point} : Path.IsLeftOf qs ps → IsLeftOf (.line qs) (.line ps)
  | area {ts ss : List Shape} : List.SublistForall₂ Shape.IsLeftOf ts ss → IsLeftOf (.area ts) (.area ss)

/-- There is enough to be drawn: two points of a line, four of a ring, one shape of an area. -/
def Geometry.IsDrawable : Geometry → Prop
  | point _ => True
  | multiPoint _ => True
  | line ps => 2 ≤ ps.length
  | area ss => ss ≠ [] ∧ ∀ s ∈ ss, ∀ ring ∈ s.outer :: s.holes, 4 ≤ ring.length

instance : Std.Refl Path.IsLeftOf := ⟨Path.isLeftOf_refl⟩

instance : Std.Refl Shape.IsLeftOf := ⟨fun s => ⟨Path.isLeftOf_refl s.outer, Std.Refl.refl s.holes⟩⟩

theorem Geometry.isLeftOf_refl (g : Geometry) : g.IsLeftOf g := by
  cases g with
  | point p => exact .point p
  | multiPoint ps => exact .multiPoint ps
  | line ps => exact .line (Path.isLeftOf_refl ps)
  | area ss => exact .area (Std.Refl.refl ss)

/-- Where some are left out, the others stay in their order. -/
theorem sublistForall₂_filterMap {α β : Type} {f : α → Option β} {R : β → α → Prop} (h : ∀ a b, f a = some b → R b a) :
    ∀ l : List α, List.SublistForall₂ R (l.filterMap f) l
  | [] => .nil
  | a :: l => by
    rw [List.filterMap_cons]
    cases ha : f a with
    | none => exact .cons_right (sublistForall₂_filterMap h l)
    | some b => exact .cons (h a b ha) (sublistForall₂_filterMap h l)

namespace Simplifier

variable {s : Simplifier} {level : TileLevel}

theorem accept_eq_some {density : Float} {closed : Bool} {ps qs : List Point} (h : accept density closed ps = some qs) :
    qs = ps ∧ 2 ≤ qs.length ∧ (closed = true → 4 ≤ qs.length) := by
  unfold accept at h
  split at h
  · split at h
    · rename_i hfour
      cases h
      exact ⟨rfl, by omega, fun _ => hfour⟩
    · cases h
  · rename_i hopen
    split at h
    · cases h
    · cases h
    · split at h
      · cases h
      · cases h
        exact ⟨rfl, le_rfl, fun hc => absurd hc hopen⟩
    · rename_i hnil hone htwo
      cases h
      match ps, hnil, hone with
      | [], hnil, _ => exact absurd rfl hnil
      | [a], _, hone => exact absurd rfl (hone a)
      | a :: b :: ps, _, _ => exact ⟨rfl, Nat.le_add_left 2 _, fun hc => absurd hc hopen⟩

/-- **A line or ring** is left with both its ends, or disappears. -/
theorem simplify_isLeftOf {closed : Bool} {points qs : List Point} (h : s.simplify level closed points = some qs) :
    Path.IsLeftOf qs points ∧ 2 ≤ qs.length ∧ (closed = true → 4 ≤ qs.length) := by
  unfold simplify at h
  dsimp only at h
  split at h
  · obtain ⟨rfl, hlength⟩ := accept_eq_some h
    exact ⟨Path.isLeftOf_refl _, hlength⟩
  · rename_i hlong
    obtain ⟨rfl, hlength⟩ := accept_eq_some h
    obtain ⟨vs, hthreads⟩ := exists_threads_run (measure (s.minimumDensity level)) (points.length >>> level.val)
      (by omega : 0 < points.length) (points.toArray.size - 2)
    exact ⟨hthreads.isLeftOf (by omega), hlength⟩

theorem simplifyShape_isLeftOf {shape left : Shape} (h : s.simplifyShape level shape = some left) :
    left.IsLeftOf shape ∧ ∀ ring ∈ left.outer :: left.holes, 4 ≤ ring.length := by
  obtain ⟨outer, houter, rfl⟩ := Option.map_eq_some_iff.1 h
  obtain ⟨hleft, -, hfour⟩ := simplify_isLeftOf houter
  refine ⟨⟨hleft, sublistForall₂_filterMap (fun hole ring hring => (simplify_isLeftOf hring).1) _⟩, fun ring hring => ?_⟩
  rcases List.mem_cons.1 hring with rfl | hring
  · exact hfour rfl
  · obtain ⟨hole, -, hhole⟩ := List.mem_filterMap.1 hring
    exact (simplify_isLeftOf hhole).2.2 rfl

end Simplifier

namespace Geometry

variable {s : Simplifier} {level : TileLevel}

theorem simplify_finest (g : Geometry) (s : Simplifier) : g.simplify s .finest = some g := by
  unfold simplify
  exact if_pos rfl

theorem simplify_point (p : Point) : (point p).simplify s level = some (point p) := by
  unfold simplify
  exact ite_self _

theorem simplify_multiPoint (ps : List Point) : (multiPoint ps).simplify s level = some (multiPoint ps) := by
  unfold simplify
  exact ite_self _

theorem isLeftOf_of_simplify {g left : Geometry} (h : g.simplify s level = some left) (hlevel : level ≠ .finest) :
    left.IsLeftOf g ∧ left.IsDrawable := by
  unfold simplify at h
  rw [if_neg hlevel] at h
  cases g with
  | point p =>
    cases h
    exact ⟨.point p, trivial⟩
  | multiPoint ps =>
    cases h
    exact ⟨.multiPoint ps, trivial⟩
  | line ps =>
    obtain ⟨qs, hqs, rfl⟩ := Option.map_eq_some_iff.1 h
    obtain ⟨hleft, htwo, -⟩ := Simplifier.simplify_isLeftOf hqs
    exact ⟨.line hleft, htwo⟩
  | area shapes =>
    dsimp only at h
    split at h
    · cases h
    · rename_i hne
      cases h
      refine ⟨.area (sublistForall₂_filterMap (fun shape t ht => (Simplifier.simplifyShape_isLeftOf ht).1) _), ?_, ?_⟩
      · exact hne
      · intro t ht
        obtain ⟨shape, -, hshape⟩ := List.mem_filterMap.1 ht
        exact (Simplifier.simplifyShape_isLeftOf hshape).2

/-- **What is left of a geometry.**  Whatever areas and lengths are, and however many vertices are dropped, the walk
along the links comes by those left, which are read off in this order.  So lines and rings are left with both their
ends, and there is enough left to be drawn; at the finest level, which shows everything, if there was before. -/
theorem simplify_left :
    (∀ {A L : Type} (m : ThinningMeasure A L) (stop : Nat) {points : List Point}, 2 ≤ points.length →
      Path.IsLeftOf (thin m stop points) points ∧
      ∀ k, let s := run m points.toArray stop k (start m points.toArray)
        ∃ vs, s.Walks points.length 0 vs ∧ vs.Pairwise (· < ·) ∧ (∀ i, i ∈ vs ↔ (s.link? i).isSome = true) ∧
          s.kept points = vs.map (vertex points.toArray)) ∧
    ∀ (s : Simplifier) (level : TileLevel),
      (∀ p, (point p).simplify s level = some (point p)) ∧
      (∀ ps, (multiPoint ps).simplify s level = some (multiPoint ps)) ∧
      (∀ g : Geometry, g.simplify s .finest = some g) ∧
      ∀ {g left : Geometry}, g.simplify s level = some left → left.IsLeftOf g ∧
        ((level = .finest → g.IsDrawable) → left.IsDrawable) := by
  refine ⟨fun {A L} m stop {points} h => ⟨?_, fun k => ?_⟩, fun s level => ⟨simplify_point, simplify_multiPoint,
    fun g => simplify_finest g s, fun {g left} h => ?_⟩⟩
  · obtain ⟨vs, hthreads⟩ := exists_threads_run m stop (by omega : 0 < points.length) (points.toArray.size - 2)
    exact hthreads.isLeftOf h
  · intro s
    obtain ⟨vs, hthreads⟩ := exists_threads_run m stop (by omega : 0 < points.length) k
    have hkept : s.kept points = vs.map (vertex points.toArray) := by
      rw [← List.size_toArray] at hthreads
      exact hthreads.kept
    exact ⟨vs, hthreads.walks, hthreads.ascending, hthreads.left, hkept⟩
  · by_cases hlevel : level = .finest
    · subst hlevel
      rw [simplify_finest] at h
      cases h
      exact ⟨isLeftOf_refl g, fun hdraw => hdraw rfl⟩
    · obtain ⟨hleft, hdraw⟩ := isLeftOf_of_simplify h hlevel
      exact ⟨hleft, fun _ => hdraw⟩

/-- One shape and one of the holes of the other disappear, and vertices of what is left; on the way no two areas need
to be comparable. -/
theorem simplify_left_hole :
    let m : ThinningMeasure Nat Nat :=
      ⟨fun _ _ _ => 0, fun _ _ => false, List.length, fun length _ _ _ => length - 1, fun _ _ => false⟩
    let points : List Point := [⟨0, 0⟩, ⟨1, 2⟩, ⟨2, 2⟩, ⟨3, 0⟩]
    let g : Geometry := area [⟨[⟨0, 0⟩, ⟨2, 0⟩, ⟨0, 0⟩], []⟩,
      ⟨[⟨0, 0⟩, ⟨400, 1⟩, ⟨800, 0⟩, ⟨2000, 0⟩, ⟨2000, 1400⟩, ⟨0, 1400⟩, ⟨0, 0⟩],
        [[⟨10, 10⟩, ⟨12, 10⟩, ⟨10, 10⟩],
          [⟨400, 400⟩, ⟨1600, 400⟩, ⟨1600, 1400⟩, ⟨1601, 1400⟩, ⟨400, 1400⟩, ⟨400, 400⟩]]⟩]
    let left : Geometry := area [⟨[⟨0, 0⟩, ⟨800, 0⟩, ⟨2000, 0⟩, ⟨2000, 1400⟩, ⟨0, 1400⟩, ⟨0, 0⟩],
      [[⟨400, 400⟩, ⟨1600, 1400⟩, ⟨400, 1400⟩, ⟨400, 400⟩]]⟩]
    Path.IsLeftOf (thin m 0 points) points ∧ g.simplify {} ⟨1, by decide⟩ = some left ∧ left.IsLeftOf g ∧
      left.IsDrawable := by
  intro m points g left
  have hring : ∀ points, ({} : Simplifier).simplify ⟨1, by decide⟩ true points = _ := Simplifier.simplify_eq {} _ true
  have hshape : ({} : Simplifier).simplifyShape ⟨1, by decide⟩ = _ := funext fun shape => by
    rw [Simplifier.simplifyShape, funext hring]
  have hleft : g.simplify {} ⟨1, by decide⟩ = some left := by
    unfold simplify
    rw [hshape]
    decide +kernel
  obtain ⟨hthin, hsimplify⟩ := simplify_left
  obtain ⟨-, -, -, hgeometry⟩ := hsimplify {} ⟨1, by decide⟩
  obtain ⟨hg, hdraw⟩ := hgeometry hleft
  exact ⟨(hthin m 0 (by decide)).1, hleft, hg, hdraw fun hfinest => absurd hfinest (by decide)⟩

end Geometry
end TileAtlas
