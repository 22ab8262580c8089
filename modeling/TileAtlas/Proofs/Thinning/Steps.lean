import Mathlib.Data.List.Nodup
import Mathlib.Data.List.Range
import Mathlib.Data.List.TakeWhile
import TileAtlas.Proofs.Thinning.Queue
/-!
# Starting, and dropping a vertex

At the start every vertex is left and every inner one is in the queue (`Thinning.sound_start`).  The first fresh
triangle of the queue is the first of the smallest (`Thinning.State.Sound.smallest`), and once its vertex is unlinked
and the neighbours are measured again, all is as it was before (`Thinning.State.Sound.drop`).
-/
namespace TileAtlas

namespace Thinning

variable {A L : Type} {m : ThinningMeasure A L} {points : Array Point} {s s' : State A L} {n : Nat} {vs : List Nat}

/-! ## Unlinking -/

/-- A vertex with this link was taken out from between its neighbours, this queue is left, and nothing else happened. -/
structure State.Unlinks (s : State A L) (i : Nat) (l : Link) (queue : List (Candidate A)) (s' : State A L) : Prop where
  size : s'.links.size = s.links.size
  gone : s'.link? i = none
  before : s'.link? l.before = (s.link? l.before).map fun k => { k with after := l.after }
  after : s'.link? l.after = (s.link? l.after).map fun k => { k with before := l.before }
  others : ∀ j, j ≠ i → j ≠ l.before → j ≠ l.after → s'.link? j = s.link? j
  queue : s'.queue = queue
  remaining : s'.remaining = s.remaining - 1

/-- The state between taking out a vertex and measuring its neighbours again. -/
def State.unlink (s : State A L) (i : Nat) (l : Link) (length : L) (queue : List (Candidate A)) : State A L where
  links := ((s.links.setIfInBounds i none).modify l.before (·.map fun k => { k with after := l.after })).modify l.after
    (·.map fun k => { k with before := l.before })
  queue := queue
  length := length
  remaining := s.remaining - 1

theorem State.unlinks {i : Nat} {l : Link} (length : L) (queue : List (Candidate A)) (hi : i < s.links.size)
    (hbi : l.before < i) (hia : i < l.after) : s.Unlinks i l queue (s.unlink i l length queue) := by
  have hib : ¬ i = l.before := by omega
  have hia' : ¬ i = l.after := by omega
  have hba : ¬ l.before = l.after := by omega
  have hai : ¬ l.after = i := by omega
  have hbi' : ¬ l.before = i := by omega
  have hab : ¬ l.after = l.before := by omega
  refine ⟨by simp [State.unlink], ?_, ?_, ?_, fun j hji hjb hja => ?_, rfl, rfl⟩ <;>
    simp only [State.link?, State.unlink, Array.getElem?_modify, Array.getElem?_setIfInBounds, if_true, if_false, *]
  · rfl
  · cases s.links[l.before]? <;> rfl
  · cases s.links[l.after]? <;> rfl
  · rw [if_neg (Ne.symm hja), if_neg (Ne.symm hjb), if_neg (Ne.symm hji)]

theorem State.drop_eq {i : Nat} {l : Link} {queue : List (Candidate A)} (hb : l.before < points.size)
    (hi : i < points.size) (ha : l.after < points.size) :
    ({ s with queue := queue } : State A L).drop m points i l =
      ((s.unlink i l (m.shortcut s.length (vertex points l.before) (vertex points i) (vertex points l.after))
        queue).remeasure m points l.before).remeasure m points l.after := by
  rw [State.drop]
  rw [getElem?_vertex hb, getElem?_vertex ha, getElem?_vertex hi]
  rfl

section Unlinks

variable {i : Nat} {l : Link} {queue : List (Candidate A)}

theorem State.Unlinks.exists_link (h : s.Unlinks i l queue s') {j : Nat} {k : Link} (hk : s'.link? j = some k) :
    j ≠ i ∧ ∃ k₀, s.link? j = some k₀ ∧ k.generation = k₀.generation ∧ (j ∉ [l.before, l.after] → k = k₀) := by
  have hji : j ≠ i := by
    rintro rfl
    rw [h.gone] at hk
    cases hk
  refine ⟨hji, ?_⟩
  by_cases hjb : j = l.before
  · subst hjb
    rw [h.before] at hk
    obtain ⟨k₀, hk₀, rfl⟩ := Option.map_eq_some_iff.1 hk
    exact ⟨k₀, hk₀, rfl, fun hnot => absurd List.mem_cons_self hnot⟩
  by_cases hja : j = l.after
  · subst hja
    rw [h.after] at hk
    obtain ⟨k₀, hk₀, rfl⟩ := Option.map_eq_some_iff.1 hk
    exact ⟨k₀, hk₀, rfl, fun hnot => absurd (List.mem_cons_of_mem _ List.mem_cons_self) hnot⟩
  · exact ⟨k, by rwa [← h.others j hji hjb hja], rfl, fun _ => rfl⟩

theorem State.Unlinks.isSome_link (h : s.Unlinks i l queue s') {j : Nat} (hji : j ≠ i) :
    (s'.link? j).isSome = (s.link? j).isSome := by
  by_cases hjb : j = l.before
  · rw [hjb, h.before, Option.isSome_map]
  by_cases hja : j = l.after
  · rw [hja, h.after, Option.isSome_map]
  · rw [h.others j hji hjb hja]

theorem State.Unlinks.map_after (h : s.Unlinks i l queue s') {j : Nat} (hji : j ≠ i) (hjb : j ≠ l.before) :
    (s'.link? j).map (·.after) = (s.link? j).map (·.after) := by
  by_cases hja : j = l.after
  · rw [hja, h.after, Option.map_map]
    rfl
  · rw [h.others j hji hjb hja]

theorem State.Unlinks.map_before (h : s.Unlinks i l queue s') {j : Nat} (hji : j ≠ i) (hja : j ≠ l.after) :
    (s'.link? j).map (·.before) = (s.link? j).map (·.before) := by
  by_cases hjb : j = l.before
  · rw [hjb, h.before, Option.map_map]
    rfl
  · rw [h.others j hji hjb hja]

variable {pre post : List Nat}

theorem State.Unlinks.threads (h : s.Unlinks i l queue s')
    (ht : s.Threads n (pre ++ l.before :: i :: l.after :: post) []) :
    s'.Threads n (pre ++ l.before :: l.after :: post) [l.before, l.after] := by
  have hasc := ht.ascending
  simp only [List.pairwise_append, List.pairwise_cons, List.mem_cons, forall_eq_or_imp] at hasc
  obtain ⟨-, ⟨⟨hbi, hba, hbpost⟩, ⟨hia, hipost⟩, hapost, -⟩, hpre⟩ := hasc
  have hchain := ht.chain
  rw [List.isChain_append_cons_cons, List.isChain_cons_cons] at hchain
  obtain ⟨hlower, hbi', hia', hupper⟩ := hchain
  refine ⟨h.size.trans ht.size, ht.ascending.sublist ?_, fun j => ?_, ?_, ?_, ?_, ?_, fun j k hk => ?_⟩
  · exact (List.Sublist.refl pre).append ((List.sublist_cons_self i _).cons_cons _)
  · by_cases hji : j = i
    · subst hji
      rw [h.gone]
      refine iff_of_false (fun hmem => ?_) Bool.false_ne_true
      simp only [List.mem_append, List.mem_cons] at hmem
      rcases hmem with hmem | rfl | rfl | hmem
      · exact absurd (hpre j hmem).2.1 (Nat.lt_irrefl j)
      · exact absurd hbi (Nat.lt_irrefl _)
      · exact absurd hia (Nat.lt_irrefl _)
      · exact absurd (hipost j hmem) (Nat.lt_irrefl j)
    · rw [h.isSome_link hji, ← ht.left]
      simp only [List.mem_append, List.mem_cons, hji, false_or]
  · rw [← ht.first]
    cases pre <;> rfl
  · rw [← ht.last]
    simp only [List.getLast?_append, List.getLast?_cons_cons]
  · rw [List.isChain_append_cons_cons]
    refine ⟨hlower.imp_of_mem_imp fun x y hx hy hxy => ?_, ⟨?_, ?_⟩, hupper.imp_of_mem_imp fun x y hx hy hxy => ?_⟩
    · -- below the gap, only what follows its lower end changes
      have hlt : ∀ z ∈ pre ++ [l.before], z < i := fun z hz => by
        rcases List.mem_append.1 hz with hz | hz
        · exact (hpre z hz).2.1
        · rw [List.mem_singleton.1 hz]
          exact hbi
      have hxi := hlt x hx
      have hyi := hlt y hy
      have hxb : x ≠ l.before := by
        rintro rfl
        have heq := hxy.1.symm.trans hbi'.1
        exact absurd (Option.some.inj heq) (by omega)
      exact ⟨(h.map_after (by omega) hxb).trans hxy.1, (h.map_before (by omega) (by omega)).trans hxy.2⟩
    · rw [h.before, Option.map_map]
      obtain ⟨k, hk, -⟩ := Option.map_eq_some_iff.1 hbi'.1
      rw [hk]
      rfl
    · rw [h.after, Option.map_map]
      obtain ⟨k, hk, -⟩ := Option.map_eq_some_iff.1 hia'.2
      rw [hk]
      rfl
    · -- above the gap, only what precedes its upper end does
      have hlt : ∀ z ∈ l.after :: post, i < z := fun z hz => by
        rcases List.mem_cons.1 hz with rfl | hz
        · exact hia
        · exact hipost z hz
      have hix := hlt x hx
      have hiy := hlt y hy
      have hya : y ≠ l.after := by
        rintro rfl
        have heq := hxy.2.symm.trans hia'.2
        exact absurd (Option.some.inj heq) (by omega)
      exact ⟨(h.map_after (by omega) (by omega)).trans hxy.1, (h.map_before (by omega) hya).trans hxy.2⟩
  · rw [h.remaining, ht.remaining]
    simp only [List.length_append, List.length_cons]
    omega
  · obtain ⟨-, k₀, hk₀, hgeneration, -⟩ := h.exists_link hk
    have hmeasured := ht.measured j k₀ hk₀
    have hnodup : [l.before, l.after].Nodup := by simpa using (by omega : l.before ≠ l.after)
    have hcount := List.nodup_iff_count_le_one.1 hnodup j
    have hremaining := ht.remaining
    simp only [List.length_append, List.length_cons] at hremaining
    rw [h.remaining]
    rw [List.count_nil] at hmeasured
    omega

theorem State.Unlinks.queues (h : s.Unlinks i l queue s') (hsub : queue.Sublist s.queue) (hq : s.Queues m points []) :
    s'.Queues m points [l.before, l.after] where
  ascending := by
    rw [h.queue]
    exact hq.ascending.sublist hsub
  inner c hc := hq.inner c (hsub.subset (h.queue ▸ hc))
  measured c hc := by
    have := hq.measured c (hsub.subset (h.queue ▸ hc))
    rw [h.remaining]
    omega
  older c hc k hk := by
    obtain ⟨-, k₀, hk₀, hgeneration, -⟩ := h.exists_link hk
    rw [hgeneration]
    exact hq.older c (hsub.subset (h.queue ▸ hc)) k₀ hk₀
  exact c hc k hk hdue hfresh := by
    obtain ⟨-, k₀, hk₀, -, hsame⟩ := h.exists_link hk
    obtain rfl := hsame hdue
    exact hq.exact c (hsub.subset (h.queue ▸ hc)) k hk₀ List.not_mem_nil hfresh

theorem State.isFresh_iff {c : Candidate A} :
    s.isFresh c = true ↔ ∃ k, s.link? c.index = some k ∧ c.generation = k.generation := by
  rw [State.isFresh, Option.any_eq_true]
  exact exists_congr fun k => and_congr_right fun _ => beq_iff_eq.trans eq_comm

theorem State.Unlinks.covers (h : s.Unlinks i l queue s')
    (hfresh : ∀ c ∈ s.queue, s.isFresh c = true → c.index ≠ i → c ∈ queue) (hc : s.Covers n []) :
    s'.Covers n [l.before, l.after] := by
  intro j k hk hpos hlt hdue
  obtain ⟨hji, k₀, hk₀, -, hsame⟩ := h.exists_link hk
  obtain rfl := hsame hdue
  obtain ⟨c, hmem, rfl, hgeneration⟩ := hc j k hk₀ hpos hlt List.not_mem_nil
  rw [h.queue]
  exact ⟨c, hfresh c hmem (State.isFresh_iff.2 ⟨k, hk₀, hgeneration⟩) hji, rfl, hgeneration⟩

end Unlinks

/-! ## Dropping -/

variable {c : Candidate A} {rest : List (Candidate A)}

/-- What is skipped is stale, and what is in front then is not. -/
theorem State.dropWhile_eq_cons (h : s.queue.dropWhile (!s.isFresh ·) = c :: rest) :
    s.isFresh c = true ∧ (c :: rest).Sublist s.queue ∧ ∀ d ∈ s.queue, s.isFresh d = true → d.index ≠ c.index → d ∈ rest := by
  have hsplit := List.takeWhile_append_dropWhile (p := (!s.isFresh ·)) (l := s.queue)
  rw [h] at hsplit
  refine ⟨?_, h ▸ List.dropWhile_sublist _, fun d hd hfresh hindex => ?_⟩
  · have hhead := List.head?_dropWhile_not (!s.isFresh ·) s.queue
    rw [h] at hhead
    simpa using hhead
  · rw [← hsplit, List.mem_append, List.mem_cons] at hd
    rcases hd with hd | rfl | hd
    · have hstale := List.mem_takeWhile_imp hd
      rw [hfresh] at hstale
      cases hstale
    · exact absurd rfl hindex
    · exact hd

/-- **The vertex in front is an inner one,** with its triangle as it is now. -/
theorem State.Sound.front (h : s.Sound m points vs []) (hfront : s.queue.dropWhile (!s.isFresh ·) = c :: rest) :
    ∃ l pre post, s.link? c.index = some l ∧ vs = pre ++ l.before :: c.index :: l.after :: post ∧
      c.area = m.area (vertex points l.before) (vertex points c.index) (vertex points l.after) := by
  obtain ⟨hfresh, hsub, -⟩ := State.dropWhile_eq_cons hfront
  obtain ⟨l, hl, hgeneration⟩ := State.isFresh_iff.1 hfresh
  have hmem : c ∈ s.queue := hsub.subset List.mem_cons_self
  obtain ⟨hpos, hlt⟩ := h.queues.inner c hmem
  obtain ⟨pre, post, hsplit⟩ := h.threads.exists_split hl hpos hlt
  exact ⟨l, pre, post, hl, hsplit, h.queues.exact c hmem l hl List.not_mem_nil hgeneration⟩

theorem State.Threads.exists_unlinks {i : Nat} {l : Link} {pre post : List Nat}
    (h : s.Threads points.size (pre ++ l.before :: i :: l.after :: post) []) (queue : List (Candidate A)) :
    ∃ s₁, s.Unlinks i l queue s₁ ∧ s₁.length = m.shortcut s.length (vertex points l.before) (vertex points i) (vertex points l.after) ∧
      ({ s with queue := queue } : State A L).drop m points i l = (s₁.remeasure m points l.before).remeasure m points l.after := by
  have hasc := h.ascending
  simp only [List.pairwise_append, List.pairwise_cons, List.mem_cons, forall_eq_or_imp] at hasc
  obtain ⟨-, ⟨⟨hbi, -⟩, ⟨hia, -⟩, -⟩, -⟩ := hasc
  have hin : ∀ j ∈ [l.before, i, l.after], j < points.size := fun j hj => h.lt (by
    simp only [List.mem_cons, List.not_mem_nil, or_false] at hj
    simp only [List.mem_append, List.mem_cons]
    tauto)
  have hi : i < points.size := hin _ (by simp)
  exact ⟨_, s.unlinks _ queue (by rw [h.size]; exact hi) hbi hia, rfl, State.drop_eq (hin _ (by simp)) hi (hin _ (by simp))⟩

/-- **Dropping the vertex in front** leaves everything as it should be. -/
theorem State.Sound.drop (hm : m.IsOrdered) {l : Link} {pre post : List Nat}
    (h : s.Sound m points (pre ++ l.before :: c.index :: l.after :: post) [])
    (hfront : s.queue.dropWhile (!s.isFresh ·) = c :: rest) :
    (({ s with queue := rest } : State A L).drop m points c.index l).Sound m points (pre ++ l.before :: l.after :: post) [] ∧
    (({ s with queue := rest } : State A L).drop m points c.index l).length =
      m.shortcut s.length (vertex points l.before) (vertex points c.index) (vertex points l.after) := by
  obtain ⟨-, hsub, hrest⟩ := State.dropWhile_eq_cons hfront
  obtain ⟨s₁, hun, hlength, heq⟩ := h.threads.exists_unlinks (m := m) rest
  have hsound : s₁.Sound m points (pre ++ l.before :: l.after :: post) [l.before, l.after] :=
    ⟨hun.threads h.threads, hun.queues ((List.sublist_cons_self c rest).trans hsub) h.queues, hun.covers hrest h.covers⟩
  obtain ⟨hlower, hlength₁⟩ := hsound.remeasure hm (by simp)
  obtain ⟨hboth, hlength₂⟩ := hlower.remeasure hm (by simp)
  rw [heq]
  exact ⟨hboth, hlength₂.trans (hlength₁.trans hlength)⟩

theorem ascending_of_infix {x y z : Nat} (h : vs.Pairwise (· < ·)) (hin : [x, y, z] <:+: vs) : x < y ∧ y < z := by
  have hthree := h.sublist hin.sublist
  simp only [List.pairwise_cons, List.mem_cons, List.not_mem_nil, or_false, forall_eq_or_imp, forall_eq] at hthree
  exact ⟨hthree.1.1, hthree.2.1⟩

theorem lt_of_infix_concat {i x y z : Nat} (h : (vs ++ [i]).Pairwise (· < ·)) (hin : [x, y, z] <:+: vs ++ [i]) :
    y < i := by
  obtain ⟨-, hyz⟩ := ascending_of_infix h hin
  have hz : z ∈ vs ++ [i] := hin.subset (by simp)
  rcases List.mem_append.1 hz with hz | hz
  · exact hyz.trans ((List.pairwise_append.1 h).2.2 z hz i (List.mem_singleton_self i))
  · rwa [List.mem_singleton.1 hz] at hyz

theorem lt_of_infix_cons {i x y z : Nat} (h : (i :: vs).Pairwise (· < ·)) (hin : [x, y, z] <:+: i :: vs) : i < y := by
  obtain ⟨hxy, -⟩ := ascending_of_infix h hin
  have hx : x ∈ i :: vs := hin.subset (by simp)
  rcases List.mem_cons.1 hx with rfl | hx
  · exact hxy
  · exact ((List.pairwise_cons.1 h).1 x hx).trans hxy

theorem State.Sound.exists_candidate (h : s.Sound m points vs []) {x y z : Nat} (hin : [x, y, z] <:+: vs) :
    ∃ d ∈ s.queue, s.isFresh d = true ∧ d.index = y ∧
      d.area = m.area (vertex points x) (vertex points y) (vertex points z) := by
  obtain ⟨hxy, hyz⟩ := ascending_of_infix h.threads.ascending hin
  have hz : z < points.size := h.threads.lt (hin.subset (by simp))
  have hchain := h.threads.chain.infix hin
  rw [List.isChain_cons_cons, List.isChain_pair] at hchain
  obtain ⟨⟨-, hbefore⟩, hafter, -⟩ := hchain
  obtain ⟨k, hk, rfl⟩ := Option.map_eq_some_iff.1 hbefore
  rw [hk] at hafter
  obtain rfl := Option.some.inj hafter
  obtain ⟨d, hd, rfl, hgeneration⟩ := h.covers y k hk (by omega) (by omega) List.not_mem_nil
  exact ⟨d, hd, State.isFresh_iff.2 ⟨k, hk, hgeneration⟩, rfl, h.queues.exact d hd k hk List.not_mem_nil hgeneration⟩

/-- **The triangle in front is the first of the smallest.** -/
theorem State.Sound.smallest {b a : Nat} {pre post : List Nat}
    (h : s.Sound m points (pre ++ b :: c.index :: a :: post) [])
    (harea : c.area = m.area (vertex points b) (vertex points c.index) (vertex points a))
    (hfront : s.queue.dropWhile (!s.isFresh ·) = c :: rest) :
    Thinning.smallest m (triangles m 0 ((pre ++ b :: c.index :: a :: post).map (vertex points))) =
      some (m.area (vertex points b) (vertex points c.index) (vertex points a), pre.length + 1) := by
  obtain ⟨-, hsub, hrest⟩ := State.dropWhile_eq_cons hfront
  have hle : ∀ d ∈ rest, c.le m d = true := (List.pairwise_cons.1 (h.queues.ascending.sublist hsub)).1
  have hasc := h.threads.ascending
  refine smallest_triangles (fun x y z hin => ?_) fun x y z hin => ?_
  · -- a vertex further down: were its triangle as small, it would be in front
    have hlower : (pre ++ [b, c.index]).Pairwise (· < ·) := hasc.sublist (by simp)
    have hlt : y < c.index := by
      rw [List.append_cons] at hlower hin
      exact lt_of_infix_concat hlower hin
    obtain ⟨d, hd, hfresh, rfl, hdarea⟩ := h.exists_candidate (hin.trans ⟨[], a :: post, by simp⟩)
    rw [← harea, ← hdarea]
    exact Candidate.not_areaLE_of_le (hle d (hrest d hd hfresh (by omega))) hlt
  · have hlt : c.index < y := lt_of_infix_cons (hasc.sublist (by simp)) hin
    obtain ⟨d, hd, hfresh, rfl, hdarea⟩ := h.exists_candidate (hin.trans ⟨pre ++ [b], [], by simp⟩)
    rw [← harea, ← hdarea]
    exact Candidate.areaLE_of_le (hle d (hrest d hd hfresh (by omega)))

/-! ## Starting -/

theorem link?_start (i : Nat) : (start m points).link? i =
    if i < points.size then some ⟨i - 1, min (i + 1) (points.size - 1), 0⟩ else none := by
  rw [State.link?, start]
  dsimp only
  rw [Array.getElem?_map, Array.getElem?_range]
  split <;> rfl

theorem mem_queue_start {c : Candidate A} : c ∈ (start m points).queue ↔ ∃ i, 0 < i ∧ i + 1 < points.size ∧
    c = ⟨m.area (vertex points (i - 1)) (vertex points i) (vertex points (i + 1)), i, 0⟩ := by
  rw [start]
  dsimp only
  rw [List.mem_mergeSort, List.mem_filterMap]
  constructor
  · rintro ⟨i, hi, hc⟩
    split at hc
    · cases hc
    · split at hc
      · rename_i hpos _ _ _ a b d ha hb hd
        cases hc
        refine ⟨i, by omega, ?_, ?_⟩
        · exact (Array.getElem?_eq_some_iff.1 hd).1
        · rw [vertex, vertex, vertex, ha, hb, hd]
          rfl
      · cases hc
  · rintro ⟨i, hpos, hlt, rfl⟩
    refine ⟨i, List.mem_range.2 (by omega), ?_⟩
    rw [if_neg (by omega), getElem?_vertex (by omega : i - 1 < points.size), getElem?_vertex (by omega : i < points.size),
      getElem?_vertex hlt]

theorem threads_start (h : 0 < points.size) :
    (start m points).Threads points.size (List.range points.size) [] where
  size := by simp [start]
  ascending := List.pairwise_lt_range
  left := fun i => by
    rw [List.mem_range, link?_start]
    split <;> simp_all
  first := by rw [List.head?_range, if_neg (by omega)]
  last := by rw [List.getLast?_range, if_neg (by omega)]
  chain := by
    obtain ⟨k, hk⟩ := Nat.exists_eq_succ_of_ne_zero (Nat.pos_iff_ne_zero.1 h)
    rw [hk, List.isChain_range_succ]
    intro i hi
    rw [State.Linked, link?_start, link?_start, if_pos (by omega), if_pos (by omega)]
    exact ⟨congrArg some (by dsimp only; omega), rfl⟩
  remaining := by rw [List.length_range]; rfl
  measured := fun i l hl => by
    rw [link?_start] at hl
    split at hl
    · cases hl
      exact le_of_eq (Nat.zero_add _)
    · cases hl

/-- **At the start** every vertex is left, and the queue tells of every inner one. -/
theorem sound_start (hm : m.IsOrdered) (h : 0 < points.size) :
    (start m points).Sound m points (List.range points.size) [] where
  threads := threads_start h
  queues :=
    { ascending := @List.pairwise_mergeSort _ (Candidate.le m) (fun _ _ _ => Candidate.le_trans hm)
        (fun c d => Bool.or_eq_true_iff.2 (Candidate.le_total hm c d)) _
      inner := fun c hc => by
        obtain ⟨i, hpos, hlt, rfl⟩ := mem_queue_start.1 hc
        exact ⟨hpos, hlt⟩
      measured := fun c hc => by
        obtain ⟨i, -, -, rfl⟩ := mem_queue_start.1 hc
        exact le_of_eq (Nat.zero_add _)
      older := fun c hc l _ => by
        obtain ⟨i, -, -, rfl⟩ := mem_queue_start.1 hc
        exact Nat.zero_le _
      exact := fun c hc l hl _ _ => by
        obtain ⟨i, hpos, hlt, rfl⟩ := mem_queue_start.1 hc
        rw [link?_start, if_pos (by dsimp only; omega)] at hl
        cases hl
        dsimp only
        rw [Nat.min_eq_left (by omega)] }
  covers i l hl hpos hlt _ := by
    rw [link?_start, if_pos (by omega)] at hl
    cases hl
    exact ⟨_, mem_queue_start.2 ⟨i, hpos, hlt, rfl⟩, rfl, rfl⟩

end Thinning
end TileAtlas
