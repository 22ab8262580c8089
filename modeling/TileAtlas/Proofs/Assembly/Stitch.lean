import Mathlib.Algebra.BigOperators.Group.List.Basic
import Mathlib.Algebra.Ring.Parity
import Mathlib.Data.List.Flatten
import Mathlib.Data.List.Forall2
import Mathlib.Data.Sym.Sym2
import TileAtlas.Assembly.Stitch
/-!
# Stitching never gets stuck

If paths can be put together to closed ones at all, an even number of their ends meets everywhere.  A path that is
extended keeps that up, and so does taking out one that has closed; while it is open, an odd number of the other ends
meets at its end, so that one of them is there (`Stitch.exists_takeMeeting`).  So it does not matter which of several
paths is taken where they meet: all of them are used, each once (`Stitch.closeAll_eq_some`), and nothing is lost
(`Stitch.rings_complete`).
-/
namespace TileAtlas

namespace Path

/-- What a path is made of, whichever way one goes. -/
def segments : Path → List (Sym2 Point)
  | a :: b :: ps => s(a, b) :: segments (b :: ps)
  | _ => []

/-- A path is another one, or that one turned around. -/
def IsTurned (p q : Path) : Prop := p = q ∨ p = q.reverse

/-- A path ends where another one begins. -/
def Meets (p q : Path) : Prop := p.getLast? = q.head?

instance : DecidableRel IsTurned := fun p q => inferInstanceAs (Decidable (p = q ∨ p = q.reverse))

instance : DecidableRel Meets := fun p q => inferInstanceAs (Decidable (p.getLast? = q.head?))

/-- Paths that meet one after another as one path. -/
def join : List Path → Path
  | [] => []
  | p :: ps => p ++ ps.flatMap List.tail

/-- How many of its two ends a path has at a place. -/
def endsAt (place : Point) (p : Path) : Nat :=
  (if p.head? = some place then 1 else 0) + if p.getLast? = some place then 1 else 0

variable {p q : Path} {t x : Point}

theorem isTurned_startingAt (t : Point) (p : Path) : (p.startingAt t).IsTurned p := by
  unfold startingAt
  split
  · exact .inl rfl
  · exact .inr rfl

theorem head?_startingAt (h : p.hasEnd t = true) : (p.startingAt t).head? = some t := by
  unfold hasEnd at h
  unfold startingAt
  rw [Bool.or_eq_true, beq_iff_eq, beq_iff_eq] at h
  split
  · assumption
  · rename_i hhead
    rw [List.head?_reverse]
    exact h.resolve_left hhead

theorem IsTurned.length (h : p.IsTurned q) : p.length = q.length := by
  rcases h with rfl | rfl
  · rfl
  · exact List.length_reverse

theorem IsTurned.endsAt (h : p.IsTurned q) (x : Point) : p.endsAt x = q.endsAt x := by
  rcases h with rfl | rfl
  · rfl
  · unfold Path.endsAt
    rw [List.head?_reverse, List.getLast?_reverse, Nat.add_comm]

theorem isClosed_iff : p.isClosed = true ↔ 1 < p.length ∧ p.head? = p.getLast? := by
  unfold isClosed
  simp

/-- **Both ends of a closed path meet.** -/
theorem even_endsAt_of_isClosed (h : p.isClosed = true) (x : Point) : Even (p.endsAt x) := by
  obtain ⟨-, hends⟩ := isClosed_iff.1 h
  unfold endsAt
  rw [hends]
  exact ⟨_, rfl⟩

theorem exists_head? (h : 2 ≤ p.length) : ∃ t, p.head? = some t := by
  match p, h with
  | a :: _, _ => exact ⟨a, rfl⟩

/-! ## Two paths that meet -/

theorem head?_append_tail (hp : p.getLast? = some t) : (p ++ q.tail).head? = p.head? := by
  rw [List.head?_append_of_ne_nil]
  rintro rfl
  cases hp

theorem getLast?_append_tail (hq : 2 ≤ q.length) : (p ++ q.tail).getLast? = q.getLast? := by
  match q, hq with
  | a :: b :: q, _ =>
    rw [List.tail_cons, List.getLast?_append_of_ne_nil _ (List.cons_ne_nil b q), List.getLast?_cons_cons]

/-- **The two ends at which paths meet** are not ends any more, and it stays even or odd how many there are. -/
theorem even_endsAt_append_tail (hp : p.getLast? = some t) (hq : q.head? = some t) (hlong : 2 ≤ q.length) (x : Point)
    (n : Nat) : Even ((p ++ q.tail).endsAt x + n) ↔ Even (p.endsAt x + (q.endsAt x + n)) := by
  unfold endsAt
  rw [head?_append_tail hp, getLast?_append_tail hlong, hp, hq]
  simp only [Option.some.injEq, Nat.even_iff]
  omega

theorem segments_append_tail : ∀ {p : Path}, p.getLast? = some t → q.head? = some t →
    (p ++ q.tail).segments = p.segments ++ q.segments
  | [a], hp, hq => by
    obtain rfl : a = t := Option.some.inj hp
    match q, hq with
    | b :: q, hq =>
      obtain rfl : b = a := Option.some.inj hq
      rfl
  | a :: b :: p, hp, hq => by
    have ih := segments_append_tail (p := b :: p) (by rwa [List.getLast?_cons_cons] at hp) hq
    exact congrArg (s(a, b) :: ·) ih

theorem segments_reverse : ∀ p : Path, (segments p.reverse).Perm p.segments
  | [] => .refl _
  | [_] => .refl _
  | a :: b :: p => by
    have hlast : (b :: p).reverse.getLast? = some b := by rw [List.getLast?_reverse, List.head?_cons]
    have hsplit : segments (a :: b :: p).reverse = segments (b :: p).reverse ++ [s(a, b)] := by
      rw [List.reverse_cons, Sym2.eq_swap]
      exact segments_append_tail (q := [b, a]) hlast rfl
    rw [hsplit]
    exact (List.perm_append_singleton ..).trans ((segments_reverse (b :: p)).cons _)

theorem IsTurned.segments (h : p.IsTurned q) : p.segments.Perm q.segments := by
  rcases h with rfl | rfl
  · exact .refl _
  · exact segments_reverse q

/-! ## Paths that meet one after another -/

/-- Two that meet may be taken for one. -/
theorem join_cons_cons (p q : Path) (ps : List Path) : join (p :: q :: ps) = join ((p ++ q.tail) :: ps) := by
  rw [join, join, List.flatMap_cons, List.append_assoc]

theorem isChain_append_tail {ps : List Path} (hlong : 2 ≤ q.length) :
    ((p ++ q.tail) :: ps).IsChain Meets ↔ (q :: ps).IsChain Meets := by
  cases ps with
  | nil => exact iff_of_true (.singleton _) (.singleton _)
  | cons r ps =>
    rw [List.isChain_cons_cons, List.isChain_cons_cons]
    unfold Meets
    rw [getLast?_append_tail hlong]

end Path

namespace Stitch

/-! ## Ends -/

/-- How many ends of some paths meet at a place. -/
def endsAt (place : Point) (parts : List Path) : Nat := (parts.map (Path.endsAt place)).sum

variable {parts rest : List Path} {chain ring next : Path} {x tail : Point}

theorem endsAt_cons (x : Point) (p : Path) (parts : List Path) : endsAt x (p :: parts) = p.endsAt x + endsAt x parts := by
  unfold endsAt
  rw [List.map_cons, List.sum_cons]

theorem endsAt_append (x : Point) (as bs : List Path) : endsAt x (as ++ bs) = endsAt x as + endsAt x bs := by
  unfold endsAt
  rw [List.map_append, List.sum_append]

theorem endsAt_perm {as bs : List Path} (h : as.Perm bs) (x : Point) : endsAt x as = endsAt x bs :=
  (h.map _).sum_eq

theorem endsAt_turned {as bs : List Path} (h : List.Forall₂ Path.IsTurned as bs) (x : Point) :
    endsAt x as = endsAt x bs := by
  induction h with
  | nil => rfl
  | cons hab _ ih => rw [endsAt_cons, endsAt_cons, hab.endsAt, ih]

theorem length_of_turned {as bs : List Path} (h : List.Forall₂ Path.IsTurned as bs) (hbs : ∀ q ∈ bs, 2 ≤ q.length) :
    ∀ p ∈ as, 2 ≤ p.length := by
  induction h with
  | nil => exact nofun
  | cons hab _ ih =>
    rw [List.forall_mem_cons] at hbs ⊢
    exact ⟨by rw [hab.length]; exact hbs.1, ih hbs.2⟩

/-- The first two of some paths that meet, taken for one. -/
theorem exists_meeting {p q : Path} {ps : List Path} (hlong : ∀ r ∈ p :: q :: ps, 2 ≤ r.length)
    (h : (p :: q :: ps).IsChain Path.Meets) : ∃ t, p.getLast? = some t ∧ q.head? = some t ∧ 2 ≤ q.length ∧
      (∀ r ∈ (p ++ q.tail) :: ps, 2 ≤ r.length) ∧ ((p ++ q.tail) :: ps).IsChain Path.Meets := by
  obtain ⟨hmeets, hrest⟩ := List.isChain_cons_cons.1 h
  rw [List.forall_mem_cons, List.forall_mem_cons] at hlong
  obtain ⟨hp, hq, hps⟩ := hlong
  obtain ⟨t, ht⟩ := Path.exists_head? hq
  refine ⟨t, hmeets.trans ht, ht, hq, List.forall_mem_cons.2 ⟨?_, hps⟩, (Path.isChain_append_tail hq).2 hrest⟩
  rw [List.length_append]
  omega

/-- **Where paths are put together, it stays even or odd how many ends meet.** -/
theorem even_endsAt_join (x : Point) : ∀ (ps : List Path) {p : Path}, (∀ q ∈ p :: ps, 2 ≤ q.length) →
    (p :: ps).IsChain Path.Meets → (Even (endsAt x (p :: ps)) ↔ Even ((Path.join (p :: ps)).endsAt x))
  | [], p, _, _ => by
    unfold Path.join endsAt
    simp
  | q :: ps, p, hlong, h => by
    obtain ⟨t, hlast, hhead, hq, hlong', h'⟩ := exists_meeting hlong h
    rw [Path.join_cons_cons, ← even_endsAt_join x ps hlong' h', endsAt_cons, endsAt_cons, endsAt_cons]
    exact (Path.even_endsAt_append_tail hlast hhead hq x _).symm

/-- Nor is anything lost. -/
theorem segments_join : ∀ (ps : List Path) {p : Path}, (∀ q ∈ p :: ps, 2 ≤ q.length) → (p :: ps).IsChain Path.Meets →
    (Path.join (p :: ps)).segments = (p :: ps).flatMap Path.segments
  | [], p, _, _ => by
    unfold Path.join
    simp
  | q :: ps, p, hlong, h => by
    obtain ⟨t, hlast, hhead, -, hlong', h'⟩ := exists_meeting hlong h
    rw [Path.join_cons_cons, segments_join ps hlong' h', List.flatMap_cons, Path.segments_append_tail hlast hhead,
      List.flatMap_cons, List.flatMap_cons, List.append_assoc]

/-! ## Taking out -/

/-- Nothing is lost when the last item moves to the place of the one taken out. -/
theorem perm_of_takeAt {α : Type} {as rest : List α} {a : α} {i : Nat} (h : takeAt as i = some (a, rest)) :
    (a :: rest).Perm as := by
  unfold takeAt at h
  split at h
  · rename_i b last hb hlast
    cases h
    obtain ⟨init, rfl⟩ := List.getLast?_eq_some_iff.1 hlast
    rcases Nat.lt_or_ge i init.length with hi | hi
    · rw [List.getElem?_append_left hi, List.getElem?_eq_getElem hi] at hb
      obtain rfl := Option.some.inj hb
      rw [List.set_append_left _ _ hi, List.dropLast_concat]
      have hinit : init = init.take i ++ init[i] :: init.drop (i + 1) := by
        rw [List.getElem_cons_drop, List.take_append_drop]
      have hset : init.set i last = init.take i ++ last :: init.drop (i + 1) := by
        rw [List.set_eq_take_append_cons_drop, if_pos hi]
      calc (init[i] :: init.set i last).Perm (init[i] :: last :: (init.take i ++ init.drop (i + 1))) := by
            rw [hset]
            exact List.perm_middle.cons _
        _ |>.Perm (last :: init[i] :: (init.take i ++ init.drop (i + 1))) := .swap _ _ _
        _ |>.Perm (last :: init) := by
            conv => rhs; rw [hinit]
            exact List.perm_middle.symm.cons _
        _ |>.Perm (init ++ [last]) := (List.perm_append_singleton ..).symm
    · rw [List.getElem?_append_right hi] at hb
      obtain ⟨hlt, hlast⟩ := List.getElem?_eq_some_iff.1 hb
      obtain rfl : i = init.length := by
        rw [List.length_singleton] at hlt
        omega
      obtain rfl : last = a := by simpa using hlast
      rw [List.set_append_right _ _ le_rfl, Nat.sub_self, List.set_cons_zero, List.dropLast_concat]
      exact (List.perm_append_singleton ..).symm
  · cases h

theorem takeMeeting_eq_some (h : takeMeeting tail parts = some (next, rest)) :
    (next :: rest).Perm parts ∧ next.hasEnd tail = true := by
  unfold takeMeeting at h
  split at h
  · rename_i i hi
    refine ⟨perm_of_takeAt h, ?_⟩
    obtain ⟨hlt, hend, -⟩ := List.findIdx?_eq_some_iff_getElem.1 hi
    unfold takeAt at h
    rw [List.getElem?_eq_getElem hlt] at h
    split at h
    · rename_i ha _
      cases h
      cases ha
      exact hend
    · cases h
  · cases h

/-- What is taken goes on from there, one way or the other. -/
theorem takeMeeting_spec (hparts : ∀ p ∈ parts, 2 ≤ p.length) (h : takeMeeting tail parts = some (next, rest)) :
    (next :: rest).Perm parts ∧ (next.startingAt tail).head? = some tail ∧ 2 ≤ (next.startingAt tail).length ∧
      ∀ p ∈ rest, 2 ≤ p.length := by
  obtain ⟨hperm, hend⟩ := takeMeeting_eq_some h
  obtain ⟨hnext, hrest⟩ := List.forall_mem_cons.1 fun p hp => hparts p (hperm.subset hp)
  exact ⟨hperm, Path.head?_startingAt hend, by rwa [(Path.isTurned_startingAt tail next).length], hrest⟩

/-- **Where some end meets there is a path.** -/
theorem exists_takeMeeting (h : endsAt tail parts ≠ 0) : ∃ next rest, takeMeeting tail parts = some (next, rest) := by
  have hany : ∃ p ∈ parts, p.hasEnd tail = true := by
    by_contra hnone
    refine h (List.sum_eq_zero fun n hn => ?_)
    obtain ⟨p, hp, rfl⟩ := List.mem_map.1 hn
    have hp' : ¬ p.hasEnd tail = true := fun hend => hnone ⟨p, hp, hend⟩
    unfold Path.hasEnd at hp'
    unfold Path.endsAt
    simp only [Bool.or_eq_true, beq_iff_eq, not_or] at hp'
    rw [if_neg hp'.1, if_neg hp'.2, Nat.add_zero]
  unfold takeMeeting
  cases hi : parts.findIdx? (Path.hasEnd tail) with
  | none =>
    obtain ⟨p, hp, hend⟩ := hany
    have := List.findIdx?_eq_none_iff.1 hi p hp
    rw [hend] at this
    cases this
  | some i =>
    obtain ⟨hlt, -, -⟩ := List.findIdx?_eq_some_iff_getElem.1 hi
    dsimp only
    unfold takeAt
    rw [List.getElem?_eq_getElem hlt]
    cases hlast : parts.getLast? with
    | none =>
      rw [List.getLast?_eq_none_iff.1 hlast] at hlt
      cases hlt
    | some last => exact ⟨_, _, rfl⟩

/-! ## Closing one path -/

/-- **Nothing is lost.**  What was taken is put together with the path, and the others are left. -/
theorem closeUp_eq_some (hchain : 2 ≤ chain.length) (hparts : ∀ p ∈ parts, 2 ≤ p.length)
    (h : closeUp chain parts = some (ring, rest)) : ∃ used taken : List Path,
      (taken ++ rest).Perm parts ∧ List.Forall₂ Path.IsTurned used taken ∧ (chain :: used).IsChain Path.Meets ∧
      ring = Path.join (chain :: used) ∧ ring.isClosed = true := by
  fun_induction closeUp chain parts with
  | case1 chain parts hclosed =>
    cases h
    exact ⟨[], [], .refl _, .nil, .singleton _, (List.append_nil _).symm, hclosed⟩
  | case2 => cases h
  | case3 => cases h
  | case4 chain parts _ tail htail next others hm ih =>
    obtain ⟨hperm, hhead, hnext, hothers⟩ := takeMeeting_spec hparts hm
    have hlong : 2 ≤ (chain ++ (next.startingAt tail).tail).length := by
      rw [List.length_append]
      omega
    obtain ⟨used, taken, hperm', hturned, hmeets, hring, hclosed⟩ := ih hlong hothers h
    refine ⟨next.startingAt tail :: used, next :: taken, (hperm'.cons next).trans hperm,
      .cons (Path.isTurned_startingAt tail next) hturned, List.isChain_cons_cons.2 ⟨htail.trans hhead.symm, ?_⟩, ?_, hclosed⟩
    · exact (Path.isChain_append_tail hnext).1 hmeets
    · rw [hring, Path.join_cons_cons]

/-- **A path that an even number of ends goes with closes.** -/
theorem exists_closeUp (hchain : 2 ≤ chain.length) (hparts : ∀ p ∈ parts, 2 ≤ p.length)
    (heven : ∀ x, Even (chain.endsAt x + endsAt x parts)) : ∃ ring rest, closeUp chain parts = some (ring, rest) := by
  fun_induction closeUp chain parts with
  | case1 chain parts hclosed => exact ⟨chain, parts, rfl⟩
  | case2 chain parts _ hnone =>
    rw [List.getLast?_eq_none_iff.1 hnone] at hchain
    cases hchain
  | case3 chain parts hopen tail htail hnone =>
    -- the path has one end there, so that the others do not have none
    have hhead : chain.head? ≠ some tail := fun hhead =>
      hopen (Path.isClosed_iff.2 ⟨hchain, hhead.trans htail.symm⟩)
    have hone : chain.endsAt tail = 1 := by
      unfold Path.endsAt
      rw [if_neg hhead, if_pos htail]
    have hsome : endsAt tail parts ≠ 0 := by
      intro hzero
      have := heven tail
      rw [hone, hzero] at this
      exact absurd this (by decide)
    obtain ⟨next, rest, hm⟩ := exists_takeMeeting hsome
    rw [hnone] at hm
    cases hm
  | case4 chain parts _ tail htail next others hm ih =>
    obtain ⟨hperm, hhead, hnext, hothers⟩ := takeMeeting_spec hparts hm
    have hlong : 2 ≤ (chain ++ (next.startingAt tail).tail).length := by
      rw [List.length_append]
      omega
    refine ih hlong hothers fun x => ?_
    rw [Path.even_endsAt_append_tail htail hhead hnext, (Path.isTurned_startingAt tail next).endsAt, ← endsAt_cons,
      endsAt_perm hperm]
    exact heven x

/-- What is left when a path has closed goes on as before. -/
theorem even_endsAt_rest (hchain : 2 ≤ chain.length) (hparts : ∀ p ∈ parts, 2 ≤ p.length)
    (h : closeUp chain parts = some (ring, rest)) (x : Point) :
    Even (chain.endsAt x + endsAt x parts) ↔ Even (endsAt x rest) := by
  obtain ⟨used, taken, hperm, hturned, hmeets, rfl, hclosed⟩ := closeUp_eq_some hchain hparts h
  have htaken := length_of_turned hturned fun q hq => hparts q (hperm.subset (List.mem_append_left _ hq))
  have hlong : ∀ p ∈ chain :: used, 2 ≤ p.length := List.forall_mem_cons.2 ⟨hchain, htaken⟩
  have heven := (even_endsAt_join x used hlong hmeets).2 (Path.even_endsAt_of_isClosed hclosed x)
  rw [← endsAt_perm hperm, endsAt_append, ← endsAt_turned hturned, ← Nat.add_assoc, ← endsAt_cons, Nat.even_add,
    iff_true_left heven]

/-! ## Closing all -/

/-- Some paths put together to closed ones: each is used once, the one way or the other. -/
structure Arranges (uses : List (List Path)) (parts : List Path) : Prop where
  used : ∃ taken, taken.Perm parts ∧ List.Forall₂ Path.IsTurned uses.flatten taken
  meets : ∀ use ∈ uses, use.IsChain Path.Meets
  closed : ∀ use ∈ uses, (Path.join use).isClosed = true

theorem arranges_nil : Arranges [] [] := ⟨⟨[], .nil, .nil⟩, nofun, nofun⟩

section Arranges

variable {uses : List (List Path)}

theorem Arranges.exists_cons (h : Arranges uses parts) (hparts : ∀ p ∈ parts, 2 ≤ p.length) {use : List Path}
    (huse : use ∈ uses) : ∃ p ps, use = p :: ps ∧ (∀ q ∈ p :: ps, 2 ≤ q.length) ∧ (p :: ps).IsChain Path.Meets := by
  obtain ⟨⟨taken, hperm, hturned⟩, hmeets, hclosed⟩ := h
  have hlong := length_of_turned hturned fun q hq => hparts q (hperm.subset hq)
  match use, huse, hclosed use huse with
  | p :: ps, huse, _ => exact ⟨p, ps, rfl, fun q hq => hlong q (List.mem_flatten_of_mem huse hq), hmeets _ huse⟩

theorem even_endsAt_flatten {x : Point} (h : ∀ use ∈ uses, Even (endsAt x use)) : Even (endsAt x uses.flatten) := by
  induction uses with
  | nil => exact ⟨0, rfl⟩
  | cons use uses ih =>
    rw [List.forall_mem_cons] at h
    rw [List.flatten_cons, endsAt_append]
    exact h.1.add (ih h.2)

/-- **If paths can be put together, an even number of their ends meets everywhere.** -/
theorem Arranges.even (h : Arranges uses parts) (hparts : ∀ p ∈ parts, 2 ≤ p.length) (x : Point) :
    Even (endsAt x parts) := by
  obtain ⟨taken, hperm, hturned⟩ := h.used
  rw [← endsAt_perm hperm, ← endsAt_turned hturned]
  refine even_endsAt_flatten fun use huse => ?_
  obtain ⟨p, ps, rfl, hlong, hmeets⟩ := h.exists_cons hparts huse
  exact (even_endsAt_join x ps hlong hmeets).2 (Path.even_endsAt_of_isClosed (h.closed _ huse) x)

theorem segments_turned {as bs : List Path} (h : List.Forall₂ Path.IsTurned as bs) :
    (as.flatMap Path.segments).Perm (bs.flatMap Path.segments) := by
  induction h with
  | nil => exact .refl _
  | cons hab _ ih => exact hab.segments.append ih

/-- **The segments are those of the parts.** -/
theorem Arranges.segments (h : Arranges uses parts) (hparts : ∀ p ∈ parts, 2 ≤ p.length) :
    ((uses.map Path.join).flatMap Path.segments).Perm (parts.flatMap Path.segments) := by
  obtain ⟨taken, hperm, hturned⟩ := h.used
  have hjoin : (uses.map Path.join).flatMap Path.segments = uses.flatten.flatMap Path.segments := by
    rw [List.flatMap_map, ← List.flatMap_id, List.flatMap_assoc]
    refine List.flatMap_congr fun use huse => ?_
    obtain ⟨p, ps, rfl, hlong, hmeets⟩ := h.exists_cons hparts huse
    exact segments_join ps hlong hmeets
  rw [hjoin]
  exact (segments_turned hturned).trans (hperm.flatMap_right _)

end Arranges

/-- The last path and those before it. -/
theorem perm_of_getLast? (h : parts.getLast? = some chain) : (chain :: parts.dropLast).Perm parts := by
  obtain ⟨init, rfl⟩ := List.getLast?_eq_some_iff.1 h
  rw [List.dropLast_concat]
  exact (List.perm_append_singleton ..).symm

theorem closeAll_eq_some {rings : List Path} (hparts : ∀ p ∈ parts, 2 ≤ p.length) (h : closeAll parts = some rings) :
    ∃ uses, Arranges uses parts ∧ rings = uses.map Path.join := by
  fun_induction closeAll parts generalizing rings with
  | case1 parts hnone =>
    cases h
    rw [List.getLast?_eq_none_iff.1 hnone]
    exact ⟨[], arranges_nil, rfl⟩
  | case2 => cases h
  | case3 parts chain hlast ring rest hring ih =>
    have hall := perm_of_getLast? hlast
    obtain ⟨hchain, hothers⟩ := List.forall_mem_cons.1 fun p hp => hparts p (hall.subset hp)
    obtain ⟨used, taken, hperm, hturned, hmeets, rfl, hclosed⟩ := closeUp_eq_some hchain hothers hring
    have hrest : ∀ p ∈ rest, 2 ≤ p.length := fun p hp => hothers p (hperm.subset (List.mem_append_right _ hp))
    obtain ⟨rings', hrings', rfl⟩ := Option.map_eq_some_iff.1 h
    obtain ⟨uses, ⟨⟨taken', hperm', hturned'⟩, hmeets', hclosed'⟩, rfl⟩ := ih hrest hrings'
    have htaken : (chain :: (taken ++ taken')).Perm parts := calc
      (chain :: (taken ++ taken')).Perm (chain :: (taken ++ rest)) := (hperm'.append_left taken).cons chain
      _ |>.Perm (chain :: parts.dropLast) := hperm.cons chain
      _ |>.Perm parts := hall
    exact ⟨(chain :: used) :: uses, ⟨⟨_, htaken, .cons (.inl rfl) (List.rel_append hturned hturned')⟩,
      List.forall_mem_cons.2 ⟨hmeets, hmeets'⟩, List.forall_mem_cons.2 ⟨hclosed, hclosed'⟩⟩, rfl⟩

/-- **Whatever path is taken where several meet, all of them close** if an even number of ends meets everywhere. -/
theorem exists_closeAll (hparts : ∀ p ∈ parts, 2 ≤ p.length) (heven : ∀ x, Even (endsAt x parts)) :
    ∃ rings, closeAll parts = some rings := by
  fun_induction closeAll parts with
  | case1 => exact ⟨[], rfl⟩
  | case2 parts chain hlast hnone =>
    have hall := perm_of_getLast? hlast
    obtain ⟨hchain, hothers⟩ := List.forall_mem_cons.1 fun p hp => hparts p (hall.subset hp)
    obtain ⟨ring, rest, hring⟩ := exists_closeUp hchain hothers fun x => by
      rw [← endsAt_cons, endsAt_perm hall]
      exact heven x
    rw [hnone] at hring
    cases hring
  | case3 parts chain hlast ring rest hring ih =>
    have hall := perm_of_getLast? hlast
    obtain ⟨hchain, hothers⟩ := List.forall_mem_cons.1 fun p hp => hparts p (hall.subset hp)
    obtain ⟨used, taken, hperm, -⟩ := closeUp_eq_some hchain hothers hring
    have hrest : ∀ p ∈ rest, 2 ≤ p.length := fun p hp => hothers p (hperm.subset (List.mem_append_right _ hp))
    obtain ⟨rings, hrings⟩ := ih hrest fun x => by
      rw [← even_endsAt_rest hchain hothers hring, ← endsAt_cons, endsAt_perm hall]
      exact heven x
    exact ⟨ring :: rings, by rw [hrings]; rfl⟩

/-! ## Rings -/

theorem rings?_eq_some_iff {rings : List Path} : rings? parts = some rings ↔ (∀ p ∈ parts, 2 ≤ p.length) ∧
    ∃ stitched, closeAll (parts.filter (!·.isClosed)) = some stitched ∧
      rings = parts.filter Path.isClosed ++ stitched ∧ ∀ ring ∈ rings, 4 ≤ ring.length := by
  have hshort : parts.any (·.length < 2) = true ↔ ¬ ∀ p ∈ parts, 2 ≤ p.length := by
    rw [List.any_eq_true]
    push Not
    exact exists_congr fun p => and_congr_right fun _ => decide_eq_true_iff
  unfold rings?
  by_cases hlong : ∀ p ∈ parts, 2 ≤ p.length
  · rw [if_neg fun hany => hshort.1 hany hlong]
    cases closeAll (parts.filter (!·.isClosed)) with
    | none => simp
    | some stitched =>
      have hfour : (parts.filter Path.isClosed ++ stitched).all (4 ≤ ·.length) = true ↔
          ∀ ring ∈ parts.filter Path.isClosed ++ stitched, 4 ≤ ring.length := by
        rw [List.all_eq_true]
        exact forall₂_congr fun ring _ => decide_eq_true_iff
      dsimp only
      constructor
      · intro h
        split at h
        · rename_i hall
          cases h
          exact ⟨hlong, stitched, rfl, rfl, hfour.1 hall⟩
        · cases h
      · rintro ⟨-, stitched', hstitched, rfl, hall⟩
        cases hstitched
        rw [if_pos (hfour.2 hall)]
  · rw [if_pos (hshort.2 hlong)]
    exact iff_of_false nofun fun h => hlong h.1

/-- **Paths are stitched whenever they can be.**  There are no rings exactly when a path is too short, or when somewhere
an odd number of ends of open paths meets, or when a ring comes out too short.  Otherwise the rings are the paths that
are closed, and all others put together. -/
theorem rings_complete (parts : List Path) :
    let opens := parts.filter (!·.isClosed)
    (rings? parts = none ↔ (∃ p ∈ parts, p.length < 2) ∨ (∃ place, Odd (endsAt place opens)) ∨
      ∃ stitched, closeAll opens = some stitched ∧ ∃ ring ∈ parts.filter Path.isClosed ++ stitched, ring.length < 4) ∧
    (∀ {rings}, rings? parts = some rings → ∃ uses, Arranges uses opens ∧
      rings = parts.filter Path.isClosed ++ uses.map Path.join ∧ (∀ ring ∈ rings, ring.isClosed = true) ∧
      (rings.flatMap Path.segments).Perm (parts.flatMap Path.segments)) ∧
    ((∀ p ∈ parts, 2 ≤ p.length) → ∀ {uses}, Arranges uses opens → ∃ stitched, closeAll opens = some stitched) := by
  intro opens
  have hopens : (∀ p ∈ parts, 2 ≤ p.length) → ∀ p ∈ opens, 2 ≤ p.length := fun h p hp => h p (List.mem_filter.1 hp).1
  refine ⟨⟨fun h => ?_, fun h => ?_⟩, fun {rings} h => ?_, fun hlong uses huses => ?_⟩
  · by_contra hnot
    push Not at hnot
    obtain ⟨hlong, heven, hfour⟩ := hnot
    obtain ⟨stitched, hstitched⟩ := exists_closeAll (hopens hlong) fun x => Nat.not_odd_iff_even.1 (heven x)
    have hsome := rings?_eq_some_iff.2 ⟨hlong, stitched, hstitched, rfl, hfour stitched hstitched⟩
    rw [h] at hsome
    cases hsome
  · rw [Option.eq_none_iff_forall_not_mem]
    intro rings hrings
    obtain ⟨hlong, stitched, hstitched, rfl, hfour⟩ := rings?_eq_some_iff.1 hrings
    rcases h with ⟨p, hp, hshort⟩ | ⟨place, hodd⟩ | ⟨stitched', hstitched', ring, hring, hshort⟩
    · exact absurd (hlong p hp) (Nat.not_le.2 hshort)
    · obtain ⟨uses, huses, -⟩ := closeAll_eq_some (hopens hlong) hstitched
      exact Nat.not_odd_iff_even.2 (huses.even (hopens hlong) place) hodd
    · cases hstitched.symm.trans hstitched'
      exact absurd (hfour ring hring) (Nat.not_le.2 hshort)
  · obtain ⟨hlong, stitched, hstitched, rfl, -⟩ := rings?_eq_some_iff.1 h
    obtain ⟨uses, huses, rfl⟩ := closeAll_eq_some (hopens hlong) hstitched
    refine ⟨uses, huses, rfl, fun ring hring => ?_, ?_⟩
    · rcases List.mem_append.1 hring with hring | hring
      · exact (List.mem_filter.1 hring).2
      · obtain ⟨use, huse, rfl⟩ := List.mem_map.1 hring
        exact huses.closed use huse
    · rw [List.flatMap_append]
      refine ((huses.segments (hopens hlong)).append_left _).trans ?_
      rw [← List.flatMap_append]
      exact (List.filter_append_perm Path.isClosed parts).flatMap_right _
  · exact exists_closeAll (hopens hlong) (huses.even (hopens hlong))

/-- Four paths between two places, and a ring that is there already.  They are not put together in pairs as they come:
the last one goes with the first. -/
theorem rings_complete_crossing :
    let p : Path := [⟨0, 0⟩, ⟨5, 1⟩, ⟨9, 0⟩]
    let q : Path := [⟨0, 0⟩, ⟨5, 2⟩, ⟨9, 0⟩]
    let r : Path := [⟨9, 0⟩, ⟨5, 3⟩, ⟨0, 0⟩]
    let s : Path := [⟨0, 0⟩, ⟨5, 4⟩, ⟨9, 0⟩]
    let ring : Path := [⟨1, 1⟩, ⟨2, 1⟩, ⟨2, 2⟩, ⟨1, 1⟩]
    let parts := [p, ring, q, r, s]
    let rings := [ring, [⟨0, 0⟩, ⟨5, 4⟩, ⟨9, 0⟩, ⟨5, 1⟩, ⟨0, 0⟩], [⟨0, 0⟩, ⟨5, 2⟩, ⟨9, 0⟩, ⟨5, 3⟩, ⟨0, 0⟩]]
    rings? parts = some rings ∧ (rings.flatMap Path.segments).Perm (parts.flatMap Path.segments) ∧
      Arranges [[p, q.reverse], [r, s]] (parts.filter (!·.isClosed)) ∧
      ∃ stitched, closeAll (parts.filter (!·.isClosed)) = some stitched := by
  intro p q r s ring parts rings
  obtain ⟨-, hsome, hstuck⟩ := rings_complete parts
  have hrings : rings? parts = some rings := by decide +kernel
  have hpairs : Arranges [[p, q.reverse], [r, s]] (parts.filter (!·.isClosed)) :=
    ⟨⟨[p, q, r, s], by decide, by decide⟩, by decide, by decide⟩
  obtain ⟨uses, -, -, -, hsegments⟩ := hsome hrings
  exact ⟨hrings, hsegments, hpairs, hstuck (by decide) hpairs⟩

end Stitch
end TileAtlas
