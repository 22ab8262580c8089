import TileAtlas.Proofs.Thinning.Naive
/-!
# The queue of triangles

Whatever is dropped, the vertices left are threaded in ascending order (`Thinning.State.Threads`), and the queue is in
order, with the triangle of every inner vertex as it is now (`Thinning.State.Queues`, `Thinning.State.Covers`).  While
the neighbours of a dropped vertex wait to be measured again, these are not told of: they are due.
-/
namespace TileAtlas

namespace Thinning

variable {A L : Type} {m : ThinningMeasure A L}

/-! ## The order of the queue -/

theorem Candidate.le_total (hm : m.IsOrdered) (c d : Candidate A) : c.le m d = true ∨ d.le m c = true := by
  simp only [le, Bool.and_eq_true, Bool.or_eq_true, Bool.not_eq_true', decide_eq_true_eq]
  have harea := hm.total c.area d.area
  cases hcd : m.areaLE c.area d.area <;> cases hdc : m.areaLE d.area c.area
  · rw [hcd, hdc] at harea
    simp at harea
  · exact .inr ⟨rfl, .inl rfl⟩
  · exact .inl ⟨rfl, .inl rfl⟩
  · exact (Nat.le_total c.index d.index).imp (fun h => ⟨rfl, .inr h⟩) fun h => ⟨rfl, .inr h⟩

theorem Candidate.le_trans (hm : m.IsOrdered) {c d e : Candidate A} (hcd : c.le m d = true) (hde : d.le m e = true) :
    c.le m e = true := by
  simp only [le, Bool.and_eq_true, Bool.or_eq_true, Bool.not_eq_true', decide_eq_true_eq] at hcd hde ⊢
  refine ⟨hm.trans hcd.1 hde.1, ?_⟩
  cases hec : m.areaLE e.area c.area with
  | false => exact .inl rfl
  | true =>
    -- all three areas are as small as one another
    have hdc : m.areaLE d.area c.area = true := hm.trans hde.1 hec
    have hed : m.areaLE e.area d.area = true := hm.trans hec hcd.1
    have h₁ : c.index ≤ d.index := hcd.2.resolve_left (by rw [hdc]; exact Bool.noConfusion)
    have h₂ : d.index ≤ e.index := hde.2.resolve_left (by rw [hed]; exact Bool.noConfusion)
    exact .inr (h₁.trans h₂)

theorem Candidate.areaLE_of_le {c d : Candidate A} (h : c.le m d = true) : m.areaLE c.area d.area = true := by
  rw [le, Bool.and_eq_true] at h
  exact h.1

theorem Candidate.not_areaLE_of_le {c d : Candidate A} (h : c.le m d = true) (hindex : d.index < c.index) :
    m.areaLE d.area c.area = false := by
  simp only [le, Bool.and_eq_true, Bool.or_eq_true, Bool.not_eq_true', decide_eq_true_eq] at h
  exact h.2.resolve_right (Nat.not_le.2 hindex)

theorem mem_enqueue {c d : Candidate A} : ∀ {queue : List (Candidate A)}, d ∈ enqueue m c queue ↔ d = c ∨ d ∈ queue
  | [] => by rw [enqueue, List.mem_singleton]; simp
  | e :: queue => by
    rw [enqueue]
    split
    · exact List.mem_cons
    · rw [List.mem_cons, mem_enqueue, List.mem_cons]
      exact or_left_comm

/-- **Enqueueing keeps the order.** -/
theorem pairwise_enqueue (hm : m.IsOrdered) {c : Candidate A} : ∀ {queue : List (Candidate A)},
    (queue.Pairwise fun d e => d.le m e = true) → (enqueue m c queue).Pairwise fun d e => d.le m e = true
  | [], _ => List.pairwise_singleton _ c
  | d :: queue, h => by
    obtain ⟨hd, hqueue⟩ := List.pairwise_cons.1 h
    rw [enqueue]
    split
    · rename_i hcd
      refine List.pairwise_cons.2 ⟨fun e he => ?_, h⟩
      rcases List.mem_cons.1 he with rfl | he
      · exact hcd
      · exact Candidate.le_trans hm hcd (hd e he)
    · rename_i hcd
      refine List.pairwise_cons.2 ⟨fun e he => ?_, pairwise_enqueue hm hqueue⟩
      rcases mem_enqueue.1 he with rfl | he
      · exact (Candidate.le_total hm d e).resolve_right hcd
      · exact hd e he

/-! ## Links -/

/-- Two vertices are threaded to one another. -/
def State.Linked (s : State A L) (i j : Nat) : Prop :=
  (s.link? i).map (·.after) = some j ∧ (s.link? j).map (·.before) = some i

/-- The vertices left are threaded in ascending order, from one end of the line to the other.  None has been measured
again more often than others were dropped, and those that are due not even that often. -/
structure State.Threads (s : State A L) (n : Nat) (vs due : List Nat) : Prop where
  size : s.links.size = n
  ascending : vs.Pairwise (· < ·)
  left : ∀ i, i ∈ vs ↔ (s.link? i).isSome = true
  first : vs.head? = some 0
  last : vs.getLast? = some (n - 1)
  chain : vs.IsChain s.Linked
  remaining : s.remaining = vs.length
  measured : ∀ i l, s.link? i = some l → l.generation + s.remaining + due.count i ≤ n

/-- The point of a vertex. -/
def vertex (points : Array Point) (i : Nat) : Point := points[i]?.getD ⟨0, 0⟩

theorem getElem?_vertex {points : Array Point} {i : Nat} (h : i < points.size) : points[i]? = some (vertex points i) := by
  rw [vertex, Array.getElem?_eq_getElem h]
  rfl

/-- The queue is in order.  It tells of inner vertices only, of none more than is known of it, and where it tells what
is known the triangle is that of the vertex with its neighbours. -/
structure State.Queues (m : ThinningMeasure A L) (points : Array Point) (s : State A L) (due : List Nat) : Prop where
  ascending : s.queue.Pairwise fun c d => c.le m d = true
  inner : ∀ c ∈ s.queue, 0 < c.index ∧ c.index + 1 < points.size
  measured : ∀ c ∈ s.queue, c.generation + s.remaining ≤ points.size
  older : ∀ c ∈ s.queue, ∀ l, s.link? c.index = some l → c.generation ≤ l.generation
  exact : ∀ c ∈ s.queue, ∀ l, s.link? c.index = some l → c.index ∉ due → c.generation = l.generation →
    c.area = m.area (vertex points l.before) (vertex points c.index) (vertex points l.after)

/-- The queue tells of every inner vertex that is left and not due. -/
def State.Covers (s : State A L) (n : Nat) (due : List Nat) : Prop :=
  ∀ i l, s.link? i = some l → 0 < i → i + 1 < n → i ∉ due → ∃ c ∈ s.queue, c.index = i ∧ c.generation = l.generation

/-- What holds between two drops, and between a drop and measuring those that are due because of it. -/
structure State.Sound (m : ThinningMeasure A L) (points : Array Point) (s : State A L) (vs due : List Nat) : Prop where
  threads : s.Threads points.size vs due
  queues : s.Queues m points due
  covers : s.Covers points.size due

variable {points : Array Point} {s : State A L} {n : Nat} {vs due : List Nat}

theorem State.Threads.lt (h : s.Threads n vs due) {i : Nat} (hi : i ∈ vs) : i < n := by
  have hsome := (h.left i).1 hi
  rw [State.link?] at hsome
  by_contra hn
  rw [Array.getElem?_eq_none (by rw [h.size]; omega)] at hsome
  cases hsome

/-- **An inner vertex stands between its neighbours.** -/
theorem State.Threads.exists_split (h : s.Threads n vs due) {i : Nat} {l : Link} (hl : s.link? i = some l) (hpos : 0 < i)
    (hlt : i + 1 < n) : ∃ pre post, vs = pre ++ l.before :: i :: l.after :: post := by
  obtain ⟨p, q, rfl⟩ := List.append_of_mem ((h.left i).2 (by rw [hl]; rfl))
  obtain ⟨pre, b, rfl⟩ : ∃ pre b, p = pre ++ [b] := by
    refine (List.eq_nil_or_concat' p).resolve_left ?_
    rintro rfl
    have hzero : i = 0 := Option.some.inj h.first
    omega
  obtain ⟨a, post, rfl⟩ : ∃ a post, q = a :: post := by
    refine List.exists_cons_of_ne_nil ?_
    rintro rfl
    have hend : i = n - 1 := by simpa using h.last
    omega
  have hchain := h.chain
  rw [List.append_assoc, List.singleton_append, List.isChain_append_cons_cons] at hchain
  obtain ⟨-, ⟨-, hbefore⟩, hrest⟩ := hchain
  have hafter := (List.isChain_cons_cons.1 hrest).1.1
  rw [hl] at hbefore hafter
  obtain rfl : l.before = b := Option.some.inj hbefore
  obtain rfl : l.after = a := Option.some.inj hafter
  exact ⟨pre, post, by rw [List.append_assoc]; rfl⟩

theorem State.Queues.sublist (h : s.Queues m points due) {queue : List (Candidate A)} (hsub : queue.Sublist s.queue) :
    ({ s with queue := queue } : State A L).Queues m points due where
  ascending := h.ascending.sublist hsub
  inner c hc := h.inner c (hsub.subset hc)
  measured c hc := h.measured c (hsub.subset hc)
  older c hc := h.older c (hsub.subset hc)
  exact c hc := h.exact c (hsub.subset hc)

/-! ## Measuring again -/

theorem State.link?_of_set {s' : State A L} {i : Nat} {o : Option Link} (h : s'.links = s.links.setIfInBounds i o)
    (hi : i < s.links.size) (j : Nat) : s'.link? j = if j = i then o else s.link? j := by
  rw [State.link?, h, State.link?, Array.getElem?_setIfInBounds]
  split
  · rename_i hij
    rw [if_pos hij.symm]
    rfl
  · rename_i hij
    rw [if_neg (Ne.symm hij)]

theorem State.remeasure_of_end {i : Nat} (h : i = 0 ∨ i + 1 = points.size) : s.remeasure m points i = s := by
  rw [State.remeasure, if_pos (by simpa using h)]

/-- A vertex with this link was measured once more, and nothing else happened. -/
structure State.Remeasures (m : ThinningMeasure A L) (points : Array Point) (s : State A L) (i : Nat) (l : Link)
    (s' : State A L) : Prop where
  size : s'.links.size = s.links.size
  link : ∀ j, s'.link? j = if j = i then some { l with generation := l.generation + 1 } else s.link? j
  queue : s'.queue = enqueue m
    ⟨m.area (vertex points l.before) (vertex points i) (vertex points l.after), i, l.generation + 1⟩ s.queue
  remaining : s'.remaining = s.remaining
  length : s'.length = s.length

theorem State.remeasures {i : Nat} {l : Link} (hsize : s.links.size = points.size) (hpos : 0 < i)
    (hlt : i + 1 < points.size) (hl : s.link? i = some l) (hb : l.before < points.size) (ha : l.after < points.size) :
    s.Remeasures m points i l (s.remeasure m points i) := by
  have hinner : ¬ (i = 0 || i + 1 = points.size) = true := by
    simp only [Bool.or_eq_true, decide_eq_true_eq]
    omega
  rw [State.remeasure, if_neg hinner, hl]
  dsimp only
  rw [getElem?_vertex hb, getElem?_vertex ha, getElem?_vertex (by omega : i < points.size)]
  exact ⟨Array.size_setIfInBounds .., State.link?_of_set rfl (by omega), rfl, rfl, rfl⟩

section Remeasures

variable {i : Nat} {l : Link} {s' : State A L}

theorem State.Remeasures.threads (h : s.Remeasures m points i l s') (hl : s.link? i = some l)
    (ht : s.Threads n vs (i :: due)) : s'.Threads n vs due where
  size := h.size.trans ht.size
  ascending := ht.ascending
  left j := by
    rw [ht.left, h.link]
    split
    · rename_i hji
      rw [hji, hl]
      rfl
    · rfl
  first := ht.first
  last := ht.last
  chain := ht.chain.imp fun x y hxy => by
    -- the vertex keeps both its neighbours
    rw [State.Linked, h.link, h.link]
    constructor
    · split
      · rename_i hx
        have := hxy.1
        rwa [hx, hl] at this
      · exact hxy.1
    · split
      · rename_i hy
        have := hxy.2
        rwa [hy, hl] at this
      · exact hxy.2
  remaining := h.remaining.trans ht.remaining
  measured j k hk := by
    rw [h.link] at hk
    rw [h.remaining]
    split at hk
    · rename_i hji
      cases hk
      have := ht.measured i l hl
      rw [List.count_cons_self] at this
      rw [hji]
      dsimp only
      omega
    · have := ht.measured j k hk
      rw [List.count_cons] at this
      omega

theorem State.Remeasures.queues (hm : m.IsOrdered) (h : s.Remeasures m points i l s') (hl : s.link? i = some l)
    (hpos : 0 < i) (hlt : i + 1 < points.size) (hmeasured : l.generation + 1 + s.remaining ≤ points.size)
    (hq : s.Queues m points (i :: due)) : s'.Queues m points due where
  ascending := by
    rw [h.queue]
    exact pairwise_enqueue hm hq.ascending
  inner c hc := by
    rw [h.queue] at hc
    rcases mem_enqueue.1 hc with rfl | hc
    · exact ⟨hpos, hlt⟩
    · exact hq.inner c hc
  measured c hc := by
    rw [h.queue] at hc
    rw [h.remaining]
    rcases mem_enqueue.1 hc with rfl | hc
    · exact hmeasured
    · exact hq.measured c hc
  older c hc k hk := by
    rw [h.queue] at hc
    rw [h.link] at hk
    rcases mem_enqueue.1 hc with rfl | hc
    · rw [if_pos rfl] at hk
      cases hk
      exact le_rfl
    · split at hk
      · rename_i hci
        cases hk
        exact (hq.older c hc l (by rw [hci]; exact hl)).trans (Nat.le_succ _)
      · exact hq.older c hc k hk
  exact c hc k hk hdue hfresh := by
    rw [h.queue] at hc
    rw [h.link] at hk
    rcases mem_enqueue.1 hc with rfl | hc
    · rw [if_pos rfl] at hk
      cases hk
      rfl
    · split at hk
      · -- what the queue told of this vertex before is stale
        rename_i hci
        cases hk
        have := hq.older c hc l (by rw [hci]; exact hl)
        dsimp only at hfresh
        omega
      · rename_i hci
        exact hq.exact c hc k hk (List.not_mem_cons_of_ne_of_not_mem hci hdue) hfresh

theorem State.Remeasures.covers (h : s.Remeasures m points i l s') (hc : s.Covers n (i :: due)) : s'.Covers n due := by
  intro j k hk hjpos hjlt hdue
  rw [h.link] at hk
  rw [h.queue]
  split at hk
  · rename_i hji
    cases hk
    exact ⟨_, mem_enqueue.2 (.inl rfl), hji.symm, rfl⟩
  · rename_i hji
    obtain ⟨c, hmem, hindex, hfresh⟩ := hc j k hk hjpos hjlt (List.not_mem_cons_of_ne_of_not_mem hji hdue)
    exact ⟨c, mem_enqueue.2 (.inr hmem), hindex, hfresh⟩

end Remeasures

/-- One that need not be measured again after all. -/
theorem State.Threads.of_due {i : Nat} (h : s.Threads n vs (i :: due)) : s.Threads n vs due :=
  { h with
    measured := fun j l hl => by
      have := h.measured j l hl
      rw [List.count_cons] at this
      omega }

theorem State.Threads.exists_remeasures {i : Nat} (h : s.Threads points.size vs due) (hi : i ∈ vs)
    (hinner : ¬ (i = 0 ∨ i + 1 = points.size)) :
    ∃ l, s.link? i = some l ∧ s.Remeasures m points i l (s.remeasure m points i) := by
  have hlt := h.lt hi
  obtain ⟨l, hl⟩ := Option.isSome_iff_exists.1 ((h.left i).1 hi)
  obtain ⟨pre, post, hsplit⟩ := h.exists_split hl (by omega) (by omega)
  have hb : l.before < points.size := h.lt (by rw [hsplit]; simp)
  have ha : l.after < points.size := h.lt (by rw [hsplit]; simp)
  exact ⟨l, hl, State.remeasures h.size (by omega) (by omega) hl hb ha⟩

theorem State.Sound.of_end {i : Nat} (h : s.Sound m points vs (i :: due)) (hend : i = 0 ∨ i + 1 = points.size) :
    s.Sound m points vs due where
  threads := h.threads.of_due
  queues := { h.queues with
    exact := fun c hc l hl hdue hfresh => by
      -- the queue tells of inner vertices only, so that nothing was excused
      have hinner := h.queues.inner c hc
      exact h.queues.exact c hc l hl (List.not_mem_cons_of_ne_of_not_mem (by omega) hdue) hfresh }
  covers j l hl hpos hlt hdue := h.covers j l hl hpos hlt (List.not_mem_cons_of_ne_of_not_mem (by omega) hdue)

/-- **A vertex that is measured again is not due any more.** -/
theorem State.Sound.remeasure (hm : m.IsOrdered) {i : Nat} (h : s.Sound m points vs (i :: due)) (hi : i ∈ vs) :
    (s.remeasure m points i).Sound m points vs due ∧ (s.remeasure m points i).length = s.length := by
  by_cases hend : i = 0 ∨ i + 1 = points.size
  · rw [State.remeasure_of_end hend]
    exact ⟨h.of_end hend, rfl⟩
  · have hlt := h.threads.lt hi
    obtain ⟨l, hl, hagain⟩ := h.threads.exists_remeasures (m := m) hi hend
    have hmeasured := h.threads.measured i l hl
    rw [List.count_cons_self] at hmeasured
    exact ⟨⟨hagain.threads hl h.threads, hagain.queues hm hl (by omega) (by omega) (by omega) h.queues,
      hagain.covers h.covers⟩, hagain.length⟩

end Thinning
end TileAtlas
