import TileAtlas.Proofs.Merge
import TileAtlas.Proofs.Store.Contents
/-!
# Writes that are not refused

A batch is refused when one of its merges is: the column does not merge, or the value or the operand is not made of
records.  Into columns whose values are made of records (`Contents.Fits`), and a column that was emptied is one of
them, writes that are themselves so (`Op.Fits`) are never refused (`Contents.exists_apply_of_fits`), and they leave
these columns so (`Contents.Fits.apply`).
-/
namespace TileAtlas

/-- The bytes are made of the records that merging reads. -/
def MergeOperator.Fits : MergeOperator → Bytes → Prop
  | referenceSet, bs => bs.length % 16 = 0
  | counter, bs => bs.length = 8

theorem ReferenceCounts.fits_encode (counts : ReferenceCounts) : MergeOperator.referenceSet.Fits counts.encode := by
  rw [MergeOperator.Fits, encode, Bytes.length_flatMap length_encodeRecord]
  exact Nat.mul_mod_left _ _

theorem ReferenceCounts.exists_decode {bs : Bytes} (h : MergeOperator.referenceSet.Fits bs) (what : MergePart) :
    ∃ counts, decode what bs = .ok counts := ⟨_, if_neg (not_not.2 h)⟩

theorem Counter.fits_encode (n : UInt64) : MergeOperator.counter.Fits (encode n) := length_encode n

theorem Counter.exists_decode {bs : Bytes} (h : MergeOperator.counter.Fits bs) (what : MergePart) :
    ∃ n, decode what bs = .ok n := ⟨_, if_pos h⟩

/-- **Records merge into records.** -/
theorem MergeOperator.Fits.merge {m : MergeOperator} {existing : Option Bytes} {operand : Bytes}
    (hvalue : ∀ v, existing = some v → m.Fits v) (h : m.Fits operand) :
    ∃ v, m.merge existing operand = .ok v ∧ m.Fits v := by
  cases m with
  | referenceSet =>
    obtain ⟨delta, hdelta⟩ := ReferenceCounts.exists_decode h .referenceOperand
    cases existing with
    | none =>
      refine ⟨_, ?_, ReferenceCounts.fits_encode (.apply ∅ delta)⟩
      rw [MergeOperator.merge, ReferenceCounts.merge_none_eq, hdelta]; rfl
    | some bs =>
      obtain ⟨counts, hcounts⟩ := ReferenceCounts.exists_decode (hvalue bs rfl) .referenceSet
      refine ⟨_, ?_, ReferenceCounts.fits_encode (counts.apply delta)⟩
      rw [MergeOperator.merge, ReferenceCounts.merge_some_eq, hcounts, hdelta]; rfl
  | counter =>
    obtain ⟨d, hd⟩ := Counter.exists_decode h .counterOperand
    cases existing with
    | none =>
      refine ⟨_, ?_, Counter.fits_encode (0 + d)⟩
      rw [MergeOperator.merge, Counter.merge_none_eq, hd]; rfl
    | some bs =>
      obtain ⟨n, hn⟩ := Counter.exists_decode (hvalue bs rfl) .counterValue
      refine ⟨_, ?_, Counter.fits_encode (n + d)⟩
      rw [MergeOperator.merge, Counter.merge_some_eq, hn, hd]; rfl

/-- If the column merges at all, it can merge into these bytes. -/
def Column.Fits (c : Column) (bs : Bytes) : Prop := ∀ m, c.mergeOperator? = some m → m.Fits bs

/-- A column that does not merge takes any bytes. -/
theorem Column.fits_of_none {c : Column} (h : c.mergeOperator? = none) (bs : Bytes) : c.Fits bs :=
  fun m hm => by rw [h] at hm; cases hm

/-- What a write leaves can be merged into, and what it merges can be merged. -/
def Op.Fits : Op → Prop
  | put c _ v => c.Fits v
  | merge c _ d => ∃ m, c.mergeOperator? = some m ∧ m.Fits d
  | _ => True

namespace Contents

variable {s s' : Contents} {c : Column}

/-- Every value of a column can be merged into. -/
def Fits (s : Contents) (c : Column) : Prop := ∀ k v, s.get c k = some v → c.Fits v

theorem fits_of_none (h : c.mergeOperator? = none) : s.Fits c := fun _ v _ => Column.fits_of_none h v

theorem fits_of_empty (h : ∀ k, s.get c k = none) : s.Fits c := fun k v hv => by rw [h] at hv; cases hv

theorem Fits.of_sub (h : s.Fits c) (hsub : ∀ k v, s'.get c k = some v → s.get c k = some v) : s'.Fits c :=
  fun k v hv => h k v (hsub k v hv)

theorem Fits.put (h : s.Fits c) {d : Column} (l : Bytes) {x : Bytes} (hx : c = d → c.Fits x) :
    (s.put d l x).Fits c := by
  intro k v hv
  rw [get_put] at hv
  split at hv
  · rename_i heq
    cases hv
    exact hx heq.1
  · exact h k v hv

/-- **A column that fits does not refuse a merge that fits.** -/
theorem Fits.merge (h : s.Fits c) {m : MergeOperator} (hm : c.mergeOperator? = some m) {d : Bytes} (hd : m.Fits d)
    (k : Bytes) : ∃ v, c.merge (s.get c k) d = .ok v ∧ c.Fits v := by
  obtain ⟨v, hv, hfits⟩ := MergeOperator.Fits.merge (fun v hv => h k v hv m hm) hd
  refine ⟨v, ?_, fun m' hm' => Option.some.inj (hm.symm.trans hm') ▸ hfits⟩
  simp only [Column.merge, hm, hv]

theorem Fits.exists_applyOp {op : Op} (h : s.Fits op.column) (hop : op.Fits) : ∃ s', s.applyOp op = .ok s' := by
  cases op with
  | put c k v => exact ⟨_, rfl⟩
  | delete c k => exact ⟨_, rfl⟩
  | deleteRange c r => exact ⟨_, rfl⟩
  | merge c k d =>
    obtain ⟨m, hm, hd⟩ := hop
    obtain ⟨v, hv, -⟩ := h.merge hm hd k
    exact ⟨_, applyOp_merge hv⟩

theorem Fits.applyOp (h : s.Fits c) {op : Op} (hop : op.Fits) (hs : s.applyOp op = .ok s') : s'.Fits c := by
  cases op with
  | put d l x => cases hs; exact h.put l fun hc => hc ▸ hop
  | delete d l =>
    rw [applyOp_delete] at hs
    cases hs
    refine h.of_sub fun k v hv => ?_
    rw [get_erase] at hv
    split at hv
    · cases hv
    · exact hv
  | deleteRange d r =>
    cases hs
    refine h.of_sub fun k v hv => ?_
    rw [get_deleteRange] at hv
    split at hv
    · cases hv
    · exact hv
  | merge d l x =>
    cases hx : d.merge (s.get d l) x with
    | error e => rw [applyOp_merge_error hx] at hs; cases hs
    | ok v =>
      rw [applyOp_merge hx] at hs
      cases hs
      refine h.put l fun hc => ?_
      subst hc
      obtain ⟨m, hm, hd⟩ := hop
      obtain ⟨v', hv', hfits⟩ := h.merge hm hd l
      exact Except.ok.inj (hv'.symm.trans hx) ▸ hfits

theorem Fits.apply : ∀ {b : Batch} {s s' : Contents}, s.Fits c → (∀ op ∈ b, op.Fits) → s.apply b = .ok s' → s'.Fits c
  | [], s, s', h, _, hs => by cases hs; exact h
  | op :: b, s, s', h, hops, hs => by
    cases h₁ : s.applyOp op with
    | error e => rw [apply_cons_error h₁] at hs; cases hs
    | ok s₁ =>
      rw [apply_cons h₁] at hs
      exact Fits.apply (h.applyOp (hops op List.mem_cons_self) h₁) (fun x hx => hops x (List.mem_cons_of_mem _ hx)) hs

/-- **Writes that fit are not refused by columns that fit.** -/
theorem exists_apply_of_fits : ∀ {b : Batch} {s : Contents}, (∀ op ∈ b, op.Fits ∧ s.Fits op.column) →
    ∃ s', s.apply b = .ok s'
  | [], s, _ => ⟨s, rfl⟩
  | op :: b, s, h => by
    obtain ⟨hop, hcolumn⟩ := h op List.mem_cons_self
    obtain ⟨s₁, h₁⟩ := hcolumn.exists_applyOp hop
    obtain ⟨s', h'⟩ := exists_apply_of_fits (s := s₁) fun x hx =>
      (h x (List.mem_cons_of_mem _ hx)).imp_right fun hfits => hfits.applyOp hop h₁
    exact ⟨s', by rw [apply_cons h₁, h']⟩

end Contents
end TileAtlas
