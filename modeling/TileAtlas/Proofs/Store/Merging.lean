import Mathlib.Algebra.BigOperators.Group.List.Basic
import Mathlib.Algebra.Ring.Int.Defs
import TileAtlas.Proofs.Merge
/-!
# Merges in any order

Both operators add up: a counter its operands, a set of references the counts of each element by itself.  What an
operand does to the count of one element (`ReferenceCounts.adjust`) does not depend on when it comes, although a
count that reaches zero is dropped and may come back, so operands may change places (`apply_right_comm`).  From
nothing, merging leaves the one listing of what was added less what was removed, and a counter is the sum of its
operands modulo two to the sixty-fourth (`Column.mergeAll_totals`).
-/
namespace TileAtlas

/-! ## Sets of references, element by element -/

namespace ReferenceCounts

/-- The records that some bytes hold. -/
def records (bs : Bytes) : List (ElementId × Int64) := (Bytes.pieces 16 (bs.length / 16) bs).map decodeRecord

/-- What some records add to the count of an element, less what they remove. -/
def net (rs : List (ElementId × Int64)) (k : ElementId) : Int := ((rs.filter (·.1 = k)).map (·.2.toInt)).sum

/-- A count of zero is not kept. -/
def settle (n : Int64) : Option Int64 := if n = 0 then none else some n

/-- What an operand makes of the count of one element. -/
def adjust (old : Option Int64) : Option Int64 → Option Int64
  | none => old
  | some d => settle (old.getD 0 + d)

@[simp] theorem getD_settle (n : Int64) : (settle n).getD 0 = n := by
  unfold settle
  split
  · rename_i h; exact h.symm
  · rfl

theorem settle_ne_zero (n : Int64) : settle n ≠ some 0 := by
  unfold settle
  split
  · exact nofun
  · rename_i h; exact fun heq => h (Option.some.inj heq)

theorem adjust_right_comm (old d d' : Option Int64) : adjust (adjust old d) d' = adjust (adjust old d') d := by
  cases d with
  | none => rfl
  | some d =>
    cases d' with
    | none => rfl
    | some d' =>
      simp only [adjust, getD_settle]
      rw [Int64.add_assoc, Int64.add_comm d d', ← Int64.add_assoc]

theorem getD_adjust (old d : Option Int64) : (adjust old d).getD 0 = old.getD 0 + d.getD 0 := by
  cases d <;> simp [adjust]

theorem getElem?_change (counts : ReferenceCounts) (r : ElementId × Int64) (k : ElementId) :
    (counts.change r)[k]? = if r.1 = k then settle (counts[k]?.getD 0 + r.2) else counts[k]? := by
  unfold change settle
  rw [Std.ExtTreeMap.getD_eq_getD_getElem?]
  by_cases hk : r.1 = k
  · subst hk
    by_cases hn : counts[r.1]?.getD 0 + r.2 = 0 <;> simp [hn]
  · have hne : ¬ compare r.1 k = .eq := fun hc => hk (Std.LawfulEqOrd.eq_of_compare hc)
    by_cases hn : counts[r.1]?.getD 0 + r.2 = 0
    · simp only [hn, if_true, if_neg hk, Std.ExtTreeMap.getElem?_erase, if_neg hne]
    · simp only [hn, if_false, if_neg hk, Std.ExtTreeMap.getElem?_insert, if_neg hne]

theorem getElem?_foldl_change : ∀ {l : List (ElementId × Int64)} (_ : Ascending l) (counts : ReferenceCounts)
    (k : ElementId) (d : Option Int64), (∀ n, d = some n ↔ (k, n) ∈ l) →
    (l.foldl change counts)[k]? = adjust counts[k]? d
  | [], _, counts, k, d, hd => by
    obtain rfl : d = none := Option.eq_none_iff_forall_ne_some.2 fun n hn => List.not_mem_nil ((hd n).1 hn)
    rfl
  | r :: l, h, counts, k, d, hd => by
    rw [List.foldl_cons]
    by_cases hk : r.1 = k
    · subst hk
      have hrest : ∀ n, (none : Option Int64) = some n ↔ (r.1, n) ∈ l := fun n =>
        ⟨nofun, fun hn => absurd (h.lt_of_cons _ hn) (compare_irrefl r.1)⟩
      obtain rfl : d = some r.2 := (hd r.2).2 List.mem_cons_self
      rw [getElem?_foldl_change h.tail _ _ none hrest, getElem?_change, if_pos rfl]; rfl
    · have hrest : ∀ n, d = some n ↔ (k, n) ∈ l := fun n => by
        rw [hd, List.mem_cons]
        exact ⟨fun hn => hn.resolve_left fun heq => hk (congrArg Prod.fst heq).symm, .inr⟩
      rw [getElem?_foldl_change h.tail _ _ d hrest, getElem?_change, if_neg hk]

/-- **An operand adjusts the count of each element by itself.** -/
theorem getElem?_apply (counts delta : ReferenceCounts) (k : ElementId) :
    (counts.apply delta)[k]? = adjust counts[k]? delta[k]? :=
  getElem?_foldl_change (Ascending.toList delta) counts k _ fun _ =>
    Std.ExtTreeMap.mem_toList_iff_getElem?_eq_some.symm

theorem apply_right_comm (counts delta delta' : ReferenceCounts) :
    (counts.apply delta).apply delta' = (counts.apply delta').apply delta :=
  Std.ExtTreeMap.ext_getElem? fun {k} => by simp only [getElem?_apply, adjust_right_comm counts[k]? delta[k]?]

/-! ### What is added less what is removed -/

@[simp] theorem net_nil (k : ElementId) : net [] k = 0 := rfl

theorem net_cons (r : ElementId × Int64) (rs : List (ElementId × Int64)) (k : ElementId) :
    net (r :: rs) k = (if r.1 = k then r.2.toInt else 0) + net rs k := by
  unfold net
  by_cases hk : r.1 = k <;> simp [hk]

theorem net_append (rs rs' : List (ElementId × Int64)) (k : ElementId) : net (rs ++ rs') k = net rs k + net rs' k := by
  simp [net]

theorem net_of_not_mem {rs : List (ElementId × Int64)} {k : ElementId} (h : ∀ n, (k, n) ∉ rs) : net rs k = 0 := by
  have hnil : rs.filter (·.1 = k) = [] := List.filter_eq_nil_iff.2 fun r hr hk => by
    simp only [decide_eq_true_eq] at hk
    exact h r.2 (hk ▸ hr)
  rw [net, hnil]; rfl

theorem net_of_mem : ∀ {rs : List (ElementId × Int64)} (_ : Ascending rs) {k : ElementId} {n : Int64},
    (k, n) ∈ rs → net rs k = n.toInt
  | r :: rs, h, k, _, hn => by
    rw [net_cons]
    rcases List.mem_cons.1 hn with rfl | hn
    · rw [if_pos rfl, net_of_not_mem fun _ hn' => compare_irrefl k (h.lt_of_cons _ hn'), Int.add_zero]
    · have hne : r.1 ≠ k := by
        rintro rfl
        have hlt := h.lt_of_cons _ hn
        exact compare_irrefl r.1 hlt
      rw [if_neg hne, net_of_mem h.tail hn, Int.zero_add]

theorem getD_foldl_add (k : ElementId) : ∀ (rs : List (ElementId × Int64)) (counts : ReferenceCounts),
    (rs.foldl add counts)[k]?.getD 0 = counts[k]?.getD 0 + Int64.ofInt (net rs k)
  | [], counts => by simp [net]
  | r :: rs, counts => by
    have hadd : (add counts r)[k]?.getD 0 = counts[k]?.getD 0 + Int64.ofInt (if r.1 = k then r.2.toInt else 0) := by
      rw [add, Std.ExtTreeMap.getElem?_insert, Std.ExtTreeMap.getD_eq_getD_getElem?]
      by_cases hk : r.1 = k
      · subst hk; simp
      · rw [if_neg fun hc => hk (Std.LawfulEqOrd.eq_of_compare hc), if_neg hk]; simp
    rw [List.foldl_cons, getD_foldl_add k rs, hadd, net_cons, Int64.ofInt_add, Int64.add_assoc]

theorem eq_of_decode {what : MergePart} {bs : Bytes} {counts : ReferenceCounts} (h : decode what bs = .ok counts) :
    counts = (records bs).foldl add ∅ := by
  unfold decode at h
  split at h
  · cases h
  · cases h; rfl

/-- Bytes that list some totals: each element whose total is not zero, once, in ascending order. -/
def Lists (bytes : Bytes) (total : ElementId → Int) : Prop :=
  ∃ rs : List (ElementId × Int64), bytes = rs.flatMap encodeRecord ∧ Ascending rs ∧ (∀ r ∈ rs, r.2 ≠ 0) ∧
    ∀ k, net rs k = total k

/-- In such a listing an element stands with its total. -/
theorem mem_iff_net {rs : List (ElementId × Int64)} (h : Ascending rs) (hrs : ∀ r ∈ rs, r.2 ≠ 0) (k : ElementId)
    (n : Int64) : (k, n) ∈ rs ↔ n ≠ 0 ∧ net rs k = n.toInt := by
  constructor
  · exact fun hn => ⟨hrs _ hn, net_of_mem h hn⟩
  · rintro ⟨hne, hnet⟩
    by_contra hno
    by_cases hk : ∃ n', (k, n') ∈ rs
    · obtain ⟨n', hn'⟩ := hk
      rw [net_of_mem h hn', Int64.toInt_inj] at hnet
      exact hno (hnet ▸ hn')
    · rw [net_of_not_mem fun n' hn' => hk ⟨n', hn'⟩] at hnet
      exact hne (Int64.toInt_inj.1 hnet.symm)

/-- **There is one listing of given totals.** -/
theorem Lists.unique {bytes bytes' : Bytes} {total : ElementId → Int} (h : Lists bytes total)
    (h' : Lists bytes' total) : bytes = bytes' := by
  obtain ⟨rs, rfl, hasc, hrs, htotal⟩ := h
  obtain ⟨rs', rfl, hasc', hrs', htotal'⟩ := h'
  rw [hasc.eq_of_mem_iff hasc' fun k n => by
    rw [mem_iff_net hasc hrs, mem_iff_net hasc' hrs', htotal, htotal']]

/-! ### Many operands -/

theorem getD_foldl_apply (k : ElementId) : ∀ (ds : List Bytes) {change : Bytes → ReferenceCounts},
    (∀ d ∈ ds, decode .referenceOperand d = .ok (change d)) → ∀ counts : ReferenceCounts,
    ((ds.map change).foldl apply counts)[k]?.getD 0 = counts[k]?.getD 0 + Int64.ofInt (net (ds.flatMap records) k)
  | [], _, _, counts => by simp
  | d :: ds, change, h, counts => by
    have hchange : (change d)[k]?.getD 0 = Int64.ofInt (net (records d) k) := by
      rw [eq_of_decode (h d List.mem_cons_self), getD_foldl_add]
      simp
    rw [List.map_cons, List.foldl_cons, getD_foldl_apply k ds fun x hx => h x (List.mem_cons_of_mem _ hx), getElem?_apply,
      getD_adjust, hchange, List.flatMap_cons, net_append, Int64.ofInt_add, Int64.add_assoc]

/-- From nothing, no count of zero is ever kept. -/
theorem foldl_apply_ne_zero (k : ElementId) : ∀ (deltas : List ReferenceCounts) {counts : ReferenceCounts},
    counts[k]? ≠ some 0 → (deltas.foldl apply counts)[k]? ≠ some 0
  | [], _, h => h
  | delta :: deltas, counts, h => by
    refine foldl_apply_ne_zero k deltas ?_
    rw [getElem?_apply]
    cases delta[k]? with
    | none => exact h
    | some d => exact settle_ne_zero _

/-- **Merged into nothing, operands leave the listing of what they add up to.** -/
theorem lists_foldl_apply {ds : List Bytes} {change : Bytes → ReferenceCounts}
    (h : ∀ d ∈ ds, decode .referenceOperand d = .ok (change d))
    (hrange : ∀ k, -2 ^ 63 ≤ net (ds.flatMap records) k ∧ net (ds.flatMap records) k < 2 ^ 63) :
    Lists ((ds.map change).foldl apply ∅).encode (net (ds.flatMap records)) ∧
      ∀ k, k ∈ ((ds.map change).foldl apply ∅).members ↔ 0 < net (ds.flatMap records) k := by
  have hcount : ∀ k, (((ds.map change).foldl apply ∅)[k]?.getD 0).toInt = net (ds.flatMap records) k := fun k => by
    rw [getD_foldl_apply k ds h, Std.ExtTreeMap.getElem?_empty, Option.getD_none, Int64.zero_add,
      Int64.toInt_ofInt_of_le (hrange k).1 (hrange k).2]
  have hzero : ∀ k : ElementId, ((ds.map change).foldl apply ∅)[k]? ≠ some 0 := fun k =>
    foldl_apply_ne_zero k _ (by rw [Std.ExtTreeMap.getElem?_empty]; exact nofun)
  generalize (ds.map change).foldl apply ∅ = counts at hcount hzero
  have hmem : ∀ {k n}, (k, n) ∈ counts.toList ↔ counts[k]? = some n :=
    Std.ExtTreeMap.mem_toList_iff_getElem?_eq_some
  refine ⟨⟨counts.toList, rfl, Ascending.toList counts, fun r hr hn => hzero r.1 (hn ▸ hmem.1 hr), fun k => ?_⟩,
    fun k => ?_⟩
  · rw [← hcount]
    cases hk : counts[k]? with
    | none => exact net_of_not_mem fun n hn => by rw [hmem, hk] at hn; cases hn
    | some n => exact net_of_mem (Ascending.toList counts) (hmem.2 hk)
  · rw [mem_members, ← hcount]
    cases hk : counts[k]? with
    | none => simp
    | some n => simp [Int64.lt_iff_toInt_lt]

end ReferenceCounts

/-! ## Operators on what values and operands stand for -/

namespace MergeOperator

/-- A merge reads what is stored, reads the operand, and writes the value that follows. -/
structure Reading (m : MergeOperator) (σ : Type) where
  start : σ
  value : Bytes → Except MergeError σ
  operand : Bytes → Except MergeError σ
  apply : σ → σ → σ
  encode : σ → Bytes
  value_encode : ∀ s, value (encode s) = .ok s
  merge_none : ∀ d, m.merge none d = (operand d).bind fun x => .ok (encode (apply start x))
  merge_some : ∀ b d, m.merge (some b) d =
    (value b).bind fun s => (operand d).bind fun x => .ok (encode (apply s x))
  right_comm : ∀ s x y, apply (apply s x) y = apply (apply s y) x

def referenceReading : Reading .referenceSet ReferenceCounts where
  start := ∅
  value := ReferenceCounts.decode .referenceSet
  operand := ReferenceCounts.decode .referenceOperand
  apply := ReferenceCounts.apply
  encode := ReferenceCounts.encode
  value_encode := ReferenceCounts.decode_encode .referenceSet
  merge_none := ReferenceCounts.merge_none_eq
  merge_some := ReferenceCounts.merge_some_eq
  right_comm := ReferenceCounts.apply_right_comm

def counterReading : Reading .counter UInt64 where
  start := 0
  value := Counter.decode .counterValue
  operand := Counter.decode .counterOperand
  apply := (· + ·)
  encode := Counter.encode
  value_encode := Counter.decode_encode .counterValue
  merge_none := Counter.merge_none_eq
  merge_some := Counter.merge_some_eq
  right_comm s x y := by rw [UInt64.add_assoc, UInt64.add_comm x, ← UInt64.add_assoc]

/-- Bytes that an operator can read where a value is stored. -/
def IsValue : MergeOperator → Bytes → Prop
  | referenceSet, b => (ReferenceCounts.decode .referenceSet b).isOk = true
  | counter, b => (Counter.decode .counterValue b).isOk = true

/-- Bytes that an operator can read as an operand. -/
def IsOperand : MergeOperator → Bytes → Prop
  | referenceSet, d => (ReferenceCounts.decode .referenceOperand d).isOk = true
  | counter, d => (Counter.decode .counterOperand d).isOk = true

instance : (m : MergeOperator) → (b : Bytes) → Decidable (m.IsValue b)
  | referenceSet, _ => inferInstanceAs (Decidable (_ = true))
  | counter, _ => inferInstanceAs (Decidable (_ = true))

instance : (m : MergeOperator) → (d : Bytes) → Decidable (m.IsOperand d)
  | referenceSet, _ => inferInstanceAs (Decidable (_ = true))
  | counter, _ => inferInstanceAs (Decidable (_ = true))

namespace Reading

variable {m : MergeOperator} {σ : Type} (t : m.Reading σ)

/-- What is stored, read. -/
def stored : Option Bytes → Except MergeError σ
  | none => .ok t.start
  | some b => t.value b

def change (d : Bytes) : σ := ((t.operand d).toOption).getD t.start

theorem operand_eq {d : Bytes} (h : (t.operand d).isOk = true) : t.operand d = .ok (t.change d) := by
  unfold change
  cases hd : t.operand d with
  | error e => rw [hd] at h; cases h
  | ok x => rfl

theorem merge_eq {v : Option Bytes} {s : σ} (hv : t.stored v = .ok s) {d : Bytes} (hd : (t.operand d).isOk = true) :
    m.merge v d = .ok (t.encode (t.apply s (t.change d))) := by
  cases v with
  | none =>
    cases hv
    rw [t.merge_none, t.operand_eq hd]; rfl
  | some b =>
    have hb : t.value b = .ok s := hv
    rw [t.merge_some, hb, t.operand_eq hd]; rfl

/-- **Merging operands one after another writes what they lead to.** -/
theorem mergeAll_eq {c : Column} (hc : c.mergeOperator? = some m) : ∀ (ds : List Bytes) {v : Option Bytes} {s : σ},
    t.stored v = .ok s → (∀ d ∈ ds, (t.operand d).isOk = true) →
    c.mergeAll v ds = .ok (if ds = [] then v else some (t.encode ((ds.map t.change).foldl t.apply s)))
  | [], _, _, _, _ => rfl
  | d :: ds, v, s, hv, hds => by
    have hmerge : c.merge v d = .ok (t.encode (t.apply s (t.change d))) := by
      rw [Column.merge, hc]
      simp only [t.merge_eq hv (hds d List.mem_cons_self)]
    rw [Column.mergeAll, hmerge]
    have hrest := mergeAll_eq hc ds (v := some (t.encode (t.apply s (t.change d)))) (t.value_encode _)
      fun x hx => hds x (List.mem_cons_of_mem _ hx)
    simp only [hrest, List.map_cons, List.foldl_cons]
    cases ds <;> simp

/-- **Operands may change places.** -/
theorem mergeAll_perm {c : Column} (hc : c.mergeOperator? = some m) {v : Option Bytes} {ds : List Bytes}
    (hv : (t.stored v).isOk = true) (hds : ∀ d ∈ ds, (t.operand d).isOk = true) :
    ∃ out, c.mergeAll v ds = .ok out ∧ ∀ ds', ds'.Perm ds → c.mergeAll v ds' = .ok out := by
  cases hs : t.stored v with
  | error e => rw [hs] at hv; cases hv
  | ok s =>
    refine ⟨_, t.mergeAll_eq hc ds hs hds, fun ds' hperm => ?_⟩
    have hfold : (ds'.map t.change).foldl t.apply s = (ds.map t.change).foldl t.apply s :=
      (hperm.map t.change).foldl_eq' (fun x _ y _ z => t.right_comm z x y) s
    have hnil : ds' = [] ↔ ds = [] := by rw [← List.length_eq_zero_iff, ← List.length_eq_zero_iff, hperm.length_eq]
    rw [t.mergeAll_eq hc ds' hs fun d hd => hds d (hperm.mem_iff.1 hd), hfold]
    simp only [hnil]

end Reading

theorem stored_referenceReading {v : Option Bytes} (h : ∀ b, v = some b → referenceSet.IsValue b) :
    (referenceReading.stored v).isOk = true := by
  cases v with
  | none => rfl
  | some b => exact h b rfl

theorem stored_counterReading {v : Option Bytes} (h : ∀ b, v = some b → counter.IsValue b) :
    (counterReading.stored v).isOk = true := by
  cases v with
  | none => rfl
  | some b => exact h b rfl

end MergeOperator

/-! ## Counters -/

namespace Counter

theorem eq_of_decode {what : MergePart} {bs : Bytes} {n : UInt64} (h : decode what bs = .ok n) :
    bs.length = 8 ∧ n = UInt64.ofNat (Bytes.toNatLE bs) := by
  unfold decode at h
  split at h
  · cases h; exact ⟨‹_›, rfl⟩
  · cases h

theorem eq_ofNatLE {bs : Bytes} (h : bs.length = 8) : bs = Bytes.ofNatLE 8 (Bytes.toNatLE bs % 2 ^ 64) := by
  have hlt : Bytes.toNatLE bs < 2 ^ 64 := by
    have := Bytes.toNatLE_lt bs
    rwa [h] at this
  have hword := Bytes.ofNatLE_toNatLE bs
  rw [h] at hword
  rw [Nat.mod_eq_of_lt hlt, hword]

theorem foldl_add : ∀ (ds : List Bytes) {change : Bytes → UInt64},
    (∀ d ∈ ds, decode .counterOperand d = .ok (change d)) → ∀ n : UInt64,
    (ds.map change).foldl (· + ·) n = n + UInt64.ofNat (ds.map Bytes.toNatLE).sum
  | [], _, _, n => (UInt64.add_zero n).symm
  | d :: ds, change, h, n => by
    have hd := (eq_of_decode (h d List.mem_cons_self)).2
    rw [List.map_cons, List.foldl_cons, foldl_add ds fun x hx => h x (List.mem_cons_of_mem _ hx), hd, List.map_cons,
      List.sum_cons, UInt64.ofNat_add, UInt64.add_assoc]

theorem encode_ofNat (n : Nat) : encode (UInt64.ofNat n) = Bytes.ofNatLE 8 (n % 2 ^ 64) := by
  rw [encode, UInt64.toNat_ofNat']

end Counter

/-! ## Columns that merge -/

namespace Column

open MergeOperator ReferenceCounts

theorem mergeAll_perm {c : Column} {m : MergeOperator} (hc : c.mergeOperator? = some m) {v : Option Bytes}
    {ds : List Bytes} (hv : ∀ b, v = some b → m.IsValue b) (hds : ∀ d ∈ ds, m.IsOperand d) :
    ∃ out, c.mergeAll v ds = .ok out ∧ ∀ ds', ds'.Perm ds → c.mergeAll v ds' = .ok out := by
  cases m with
  | referenceSet => exact referenceReading.mergeAll_perm hc (stored_referenceReading hv) hds
  | counter => exact counterReading.mergeAll_perm hc (stored_counterReading hv) hds

/-- What merging into no references leaves: the one listing of the totals, and the elements whose total is positive. -/
structure Totals (ds : List Bytes) (out : Option Bytes) (counts : ReferenceCounts) : Prop where
  nothing : out = none ↔ ds = []
  listing : ∀ bytes, Lists bytes (net (ds.flatMap records)) ↔ bytes = out.getD []
  decoded : ReferenceCounts.decode .referenceSet (out.getD []) = .ok counts
  ascending : counts.members.Pairwise fun a b => compare a b = .lt
  members : ∀ k, k ∈ counts.members ↔ 0 < net (ds.flatMap records) k

theorem mergeAll_references {ds : List Bytes} (hds : ∀ d ∈ ds, referenceSet.IsOperand d)
    (hrange : ∀ k, -2 ^ 63 ≤ net (ds.flatMap records) k ∧ net (ds.flatMap records) k < 2 ^ 63) :
    ∃ out counts, Column.references.mergeAll none ds = .ok out ∧ Totals ds out counts := by
  have hread : ∀ d ∈ ds, ReferenceCounts.decode .referenceOperand d = .ok (referenceReading.change d) :=
    fun d hd => referenceReading.operand_eq (hds d hd)
  obtain ⟨hlists, hmembers⟩ := lists_foldl_apply hread hrange
  let counts := (ds.map referenceReading.change).foldl ReferenceCounts.apply ∅
  have hout : (if ds = [] then none else some counts.encode).getD [] = counts.encode := by
    cases ds with
    | nil => simp [counts, ReferenceCounts.encode, Std.ExtTreeMap.toList_eq_nil_iff.2]
    | cons d ds => rfl
  refine ⟨_, counts, referenceReading.mergeAll_eq rfl ds (v := none) rfl hds, ?_, fun bytes => ?_, ?_,
    counts.ascending_members, hmembers⟩
  · simp
  · change _ ↔ bytes = (if ds = [] then none else some counts.encode).getD []
    rw [hout]
    exact ⟨fun h => h.unique hlists, fun h => h ▸ hlists⟩
  · change ReferenceCounts.decode .referenceSet ((if ds = [] then none else some counts.encode).getD []) = _
    rw [hout, ReferenceCounts.decode_encode]

theorem mergeAll_counter {v : Option Bytes} {ds : List Bytes} (hv : ∀ b, v = some b → counter.IsValue b)
    (hds : ∀ d ∈ ds, counter.IsOperand d) :
    ∃ out, Column.tileCounts.mergeAll v ds = .ok out ∧ (out = none ↔ v = none ∧ ds = []) ∧
      ∀ b, out = some b →
        b = Bytes.ofNatLE 8 ((v.elim 0 Bytes.toNatLE + (ds.map Bytes.toNatLE).sum) % 2 ^ 64) := by
  have hread : ∀ d ∈ ds, Counter.decode .counterOperand d = .ok (counterReading.change d) :=
    fun d hd => counterReading.operand_eq (hds d hd)
  cases hs : counterReading.stored v with
  | error e =>
    have hok := stored_counterReading hv
    rw [hs] at hok; cases hok
  | ok n =>
    refine ⟨_, counterReading.mergeAll_eq rfl ds hs hds, by cases ds <;> simp, fun b hb => ?_⟩
    have hn : n = UInt64.ofNat (v.elim 0 Bytes.toNatLE) := by
      cases v with
      | none => cases hs; rfl
      | some b => exact (Counter.eq_of_decode hs).2
    split at hb
    · rename_i hnil
      subst hnil hb
      exact Counter.eq_ofNatLE (Counter.eq_of_decode hs).1
    · cases hb
      change Counter.encode ((ds.map counterReading.change).foldl (· + ·) n) = _
      rw [Counter.foldl_add ds hread, hn, ← UInt64.ofNat_add, Counter.encode_ofNat]

/-- **Merges may come in any order, and settle on what they add up to.**  Whatever is stored and whatever is merged into
it, as long as it can be read, the same bytes come out in every order.  References that start from nothing become the
one listing of what was added less what was removed, and count as referring where that is positive; a counter becomes
the sum modulo two to the sixty-fourth. -/
theorem mergeAll_totals :
    (∀ (c : Column) (m : MergeOperator), c.mergeOperator? = some m → ∀ (v : Option Bytes) (ds : List Bytes),
      (∀ b, v = some b → m.IsValue b) → (∀ d ∈ ds, m.IsOperand d) →
      ∃ out, c.mergeAll v ds = .ok out ∧ ∀ ds', ds'.Perm ds → c.mergeAll v ds' = .ok out) ∧
    (∀ ds : List Bytes, (∀ d ∈ ds, referenceSet.IsOperand d) →
      (∀ k, -2 ^ 63 ≤ net (ds.flatMap records) k ∧ net (ds.flatMap records) k < 2 ^ 63) →
      ∃ out counts, Column.references.mergeAll none ds = .ok out ∧ Totals ds out counts) ∧
    ∀ (v : Option Bytes) (ds : List Bytes), (∀ b, v = some b → counter.IsValue b) → (∀ d ∈ ds, counter.IsOperand d) →
      ∃ out, Column.tileCounts.mergeAll v ds = .ok out ∧ (out = none ↔ v = none ∧ ds = []) ∧
        ∀ b, out = some b →
          b = Bytes.ofNatLE 8 ((v.elim 0 Bytes.toNatLE + (ds.map Bytes.toNatLE).sum) % 2 ^ 64) :=
  ⟨fun _ _ hc _ _ hv hds => mergeAll_perm hc hv hds, fun _ hds hrange => mergeAll_references hds hrange,
    fun _ _ hv hds => mergeAll_counter hv hds⟩

/-- A stored set that names an element twice and another one with no count; an element that is removed before it is
added, among others; and a counter that wraps around. -/
theorem mergeAll_totals_mixed :
    let stored := encodeRecord (⟨5⟩, 2) ++ encodeRecord (⟨5⟩, -2) ++ encodeRecord (⟨7⟩, 0)
    let ds := [removing ⟨5⟩, adding ⟨9⟩, encodeRecord (⟨5⟩, 3) ++ encodeRecord (⟨5⟩, -2), removing ⟨7⟩]
    let full := Bytes.ofNatLE 8 (2 ^ 64 - 1)
    (∃ out, Column.references.mergeAll (some stored) ds = .ok out ∧
      ∀ ds', ds'.Perm ds → Column.references.mergeAll (some stored) ds' = .ok out) ∧
    (∃ out counts, Column.references.mergeAll none ds = .ok out ∧ Totals ds out counts) ∧
    ∃ out, Column.tileCounts.mergeAll (some full) [Counter.operand 3, Counter.operand (-1)] = .ok out ∧
      ∀ b, out = some b → b = Bytes.ofNatLE 8 1 := by
  intro stored ds full
  have hvalue : ∀ b, some stored = some b → referenceSet.IsValue b := fun b hb => by
    cases hb; decide +kernel
  have hds : ∀ d ∈ ds, referenceSet.IsOperand d := by decide +kernel
  have hfull : ∀ b, some full = some b → counter.IsValue b := fun b hb => by
    cases hb; decide +kernel
  have hcounts : ∀ d ∈ [Counter.operand 3, Counter.operand (-1)], counter.IsOperand d := by decide +kernel
  have hrecords : ds.flatMap records = [(⟨5⟩, -1), (⟨9⟩, 1), (⟨5⟩, 3), (⟨5⟩, -2), (⟨7⟩, -1)] := by decide +kernel
  have hrange : ∀ k, -2 ^ 63 ≤ net (ds.flatMap records) k ∧ net (ds.flatMap records) k < 2 ^ 63 := fun k => by
    rw [hrecords]
    simp only [net_cons, net_nil]
    constructor <;> split_ifs <;> decide
  obtain ⟨out, hout, -, hwrapped⟩ := mergeAll_totals.2.2 (some full) _ hfull hcounts
  exact ⟨mergeAll_totals.1 .references .referenceSet rfl (some stored) ds hvalue hds,
    mergeAll_totals.2.1 ds hds hrange, out, hout, fun b hb => (hwrapped b hb).trans (by decide +kernel)⟩

end Column
end TileAtlas
