import TileAtlas.Proofs.Store.Meaning
/-!
# A transaction reads what its store will hold

What a transaction knows of a key is the last thing that happened to it: a value, a deletion, or
operands on top of either or of the value below.  A deleted range takes such knowledge along, so what
is left is younger than every range that holds the key, and only keys of which nothing is known have
to be held against the ranges.  One write therefore does the same to what the transaction answers as to
the contents it is replayed on (`Transaction.Shows.observe`), and a commit changes no answer
(`Store.commit_answers`).
-/
namespace TileAtlas

/-! ## Merging one operand after others -/

namespace Column

theorem mergeAll_snoc_ok (c : Column) (d : Bytes) : ∀ {ds : List Bytes} {o w : Option Bytes} {v : Bytes},
    c.mergeAll o ds = .ok w → c.merge w d = .ok v → c.mergeAll o (ds ++ [d]) = .ok (some v)
  | [], o, w, v, hw, hv => by
    cases hw
    rw [List.nil_append, mergeAll, hv]; rfl
  | e :: ds, o, w, v, hw, hv => by
    rw [mergeAll] at hw
    rw [List.cons_append, mergeAll]
    cases he : c.merge o e with
    | error x => rw [he] at hw; cases hw
    | ok u =>
      rw [he] at hw
      exact mergeAll_snoc_ok c d hw hv

theorem admit_of_merge {c : Column} {o : Option Bytes} {k d v : Bytes} (h : c.merge o d = .ok v) :
    Op.admit (.merge c k d) = .ok () := by
  unfold merge at h
  cases hm : c.mergeOperator? with
  | none => rw [hm] at h; cases h
  | some m => simp [ Op.admit, hm]

end Column

theorem Contents.admit_of_applyOp {s s' : Contents} {op : Op} (h : s.applyOp op = .ok s') : op.admit = .ok () := by
  cases op with
  | put | delete | deleteRange => rfl
  | merge c k d =>
    cases hm : c.merge (s.get c k) d with
    | error e => rw [applyOp_merge_error hm] at h; cases h
    | ok v => exact Column.admit_of_merge hm

namespace Transaction

/-! ## One write -/

/-- The transaction answers every key as the contents do. -/
def Shows (t : Transaction) (s : Contents) : Prop := ∀ c k, t.get c k = .ok (s.get c k)

theorem get_known {t : Transaction} {c : Column} {k : Bytes} {p : Pending} (h : (t.overlay.get c)[k]? = some p) :
    t.get c k = t.resolve c k p := by
  rw [get, h]

theorem get_unknown {t : Transaction} {c : Column} {k : Bytes} (h : (t.overlay.get c)[k]? = none) :
    t.get c k = t.inherited c k := by
  rw [get, h]

theorem getElem?_pend (t : Transaction) (c d : Column) (k l : Bytes) (p : Pending) :
    ((t.pend c k p).overlay.get d)[l]? = if d = c ∧ l = k then some p else (t.overlay.get d)[l]? := by
  rw [pend, Columns.get_modify]
  by_cases hd : d = c
  · subst hd
    rw [if_pos rfl, Std.ExtTreeMap.getElem?_insert]
    by_cases hl : l = k
    · subst hl; simp
    · simp [hl, Ne.symm hl]
  · simp [hd]

/-- What becomes known of one key changes no other answer. -/
theorem get_pend_of_ne (t : Transaction) {c d : Column} {k l : Bytes} (p : Pending) (h : ¬ (d = c ∧ l = k)) :
    (t.pend c k p).get d l = t.get d l := by
  rw [get, getElem?_pend, if_neg h]; rfl

theorem get_pend_self (t : Transaction) (c : Column) (k : Bytes) (p : Pending) :
    (t.pend c k p).get c k = t.resolve c k p := by
  rw [get_known ((getElem?_pend ..).trans (if_pos ⟨rfl, rfl⟩))]; rfl

/-- One more operand is merged into what the transaction answered. -/
theorem resolve_merge {t : Transaction} {c : Column} {k d v : Bytes} {w : Option Bytes} {p : Pending}
    (hw : t.resolve c k p = .ok w) (hv : c.merge w d = .ok v) :
    t.resolve c k { p with operands := p.operands ++ [d] } = .ok (some v) := by
  obtain ⟨base, operands⟩ := p
  cases base with
  | value x => exact c.mergeAll_snoc_ok d hw hv
  | deleted => exact c.mergeAll_snoc_ok d hw hv
  | inherit =>
    simp only [resolve] at hw ⊢
    cases hb : t.inherited c k with
    | error e => rw [hb] at hw; cases hw
    | ok b => rw [hb] at hw; exact c.mergeAll_snoc_ok d hw hv

theorem get_pendMerge_self {t : Transaction} {c : Column} {k d v : Bytes} {w : Option Bytes}
    (hw : t.get c k = .ok w) (hv : c.merge w d = .ok v) : (t.pendMerge c k d).get c k = .ok (some v) := by
  rw [pendMerge, get_pend_self]
  refine resolve_merge ?_ hv
  rw [Std.ExtTreeMap.getD_eq_getD_getElem?]
  cases hk : (t.overlay.get c)[k]? with
  | some p => rw [← hw, get_known hk]; rfl
  | none =>
    rw [get_unknown hk] at hw
    simp only [Option.getD_none, resolve, hw, Column.mergeAll]

theorem getElem?_pendRange (t : Transaction) (c d : Column) (r : KeyRange) (l : Bytes) :
    ((t.pendRange c r).overlay.get d)[l]? =
      if d = c ∧ r.contains l = true then none else (t.overlay.get d)[l]? := by
  rw [pendRange, Columns.get_modify]
  by_cases hd : d = c
  · subst hd
    rw [if_pos rfl, Std.ExtTreeMap.getElem?_filter']
    cases (t.overlay.get d)[l]? <;> cases r.contains l <;> simp
  · simp [hd]

theorem isDeleted_pendRange (t : Transaction) (c d : Column) (r : KeyRange) (l : Bytes) :
    (t.pendRange c r).isDeleted d l = ((decide (d = c) && r.contains l) || t.isDeleted d l) := by
  rw [isDeleted, pendRange, Columns.get_modify]
  by_cases hd : d = c
  · subst hd; simp [isDeleted]
  · simp [hd, isDeleted]

/-- Nothing is left in a range once it is deleted, and nothing changes outside. -/
theorem get_pendRange (t : Transaction) (c d : Column) (r : KeyRange) (l : Bytes) :
    (t.pendRange c r).get d l = if d = c ∧ r.contains l = true then .ok none else t.get d l := by
  have hdel := isDeleted_pendRange t c d r l
  by_cases h : d = c ∧ r.contains l = true
  · have hk := (getElem?_pendRange t c d r l).trans (if_pos h)
    rw [if_pos h, get_unknown hk, inherited, hdel, h.2, decide_eq_true h.1]; rfl
  · have hin : (decide (d = c) && r.contains l) = false := by
      cases hb : decide (d = c) && r.contains l with
      | false => rfl
      | true =>
        rw [Bool.and_eq_true, decide_eq_true_eq] at hb
        exact absurd hb h
    rw [hin, Bool.false_or] at hdel
    have hinh : (t.pendRange c r).inherited d l = t.inherited d l := by simp only [inherited, hdel]; rfl
    rw [if_neg h, get, getElem?_pendRange, if_neg h, hinh, get]
    cases (t.overlay.get d)[l]? with
    | none => rfl
    | some p => simp only [resolve, hinh]

/-- **A write does the same to the answers of a transaction as to the contents.** -/
theorem Shows.observe {t : Transaction} {s s' : Contents} (h : t.Shows s) {op : Op} (hop : s.applyOp op = .ok s') :
    (t.observe op).Shows s' := fun d l => by
  cases op with
  | put c k v =>
    rw [Contents.applyOp_put] at hop
    cases hop
    rw [Transaction.observe, Contents.get_put]
    split
    · rename_i hk; obtain ⟨rfl, rfl⟩ := hk; exact get_pend_self ..
    · rename_i hk; rw [get_pend_of_ne _ _ hk]; exact h d l
  | delete c k =>
    rw [Contents.applyOp_delete] at hop
    cases hop
    rw [Transaction.observe, Contents.get_erase]
    split
    · rename_i hk; obtain ⟨rfl, rfl⟩ := hk; exact get_pend_self ..
    · rename_i hk; rw [get_pend_of_ne _ _ hk]; exact h d l
  | deleteRange c r =>
    cases hop
    rw [Transaction.observe, Contents.get_deleteRange, get_pendRange]
    split
    · rfl
    · exact h d l
  | merge c k x =>
    cases hm : c.merge (s.get c k) x with
    | error e => rw [Contents.applyOp_merge_error hm] at hop; cases hop
    | ok v =>
      rw [Contents.applyOp_merge hm] at hop
      cases hop
      rw [Transaction.observe, Contents.get_put]
      split
      · rename_i hk; obtain ⟨rfl, rfl⟩ := hk; exact get_pendMerge_self (h _ _) hm
      · rename_i hk; rw [pendMerge, get_pend_of_ne _ _ hk]; exact h d l

/-! ## Listing -/

theorem foldlM_overlayOne {t : Transaction} {c : Column} (val : Bytes → Option Bytes) :
    ∀ (known : List (Bytes × Pending)) (kept : Table),
      (∀ kp ∈ known, t.resolve c kp.1 kp.2 = .ok (val kp.1)) →
      ∃ found, known.foldlM (t.overlayOne c) kept = .ok found ∧
        ∀ k, (k ∈ known.map (·.1) → found[k]? = val k) ∧ (k ∉ known.map (·.1) → found[k]? = kept[k]?)
  | [], kept, _ => ⟨kept, rfl, fun k => ⟨fun h => absurd h List.not_mem_nil, fun _ => rfl⟩⟩
  | kp :: known, kept, h => by
    have hstep : ∃ kept', t.overlayOne c kept kp = .ok kept' ∧
        ∀ k, kept'[k]? = if k = kp.1 then val k else kept[k]? := by
      rw [overlayOne, h kp List.mem_cons_self]
      cases hv : val kp.1 with
      | none =>
        refine ⟨_, rfl, fun k => ?_⟩
        rw [Std.ExtTreeMap.getElem?_erase]
        by_cases hk : k = kp.1
        · subst hk; simp [hv]
        · simp [hk, Ne.symm hk]
      | some v =>
        refine ⟨_, rfl, fun k => ?_⟩
        rw [Std.ExtTreeMap.getElem?_insert]
        by_cases hk : k = kp.1
        · subst hk; simp [hv]
        · simp [hk, Ne.symm hk]
    obtain ⟨kept', hk', hget'⟩ := hstep
    obtain ⟨found, hf, hget⟩ := foldlM_overlayOne val known kept' fun x hx => h x (List.mem_cons_of_mem _ hx)
    refine ⟨found, by rw [List.foldlM_cons, hk']; exact hf, fun k => ?_⟩
    rw [List.map_cons, List.mem_cons]
    constructor
    · intro hk
      by_cases hin : k ∈ known.map (·.1)
      · exact (hget k).1 hin
      · rw [(hget k).2 hin, hget', if_pos (hk.resolve_right hin)]
    · intro hk
      rw [not_or] at hk
      rw [(hget k).2 hk.2, hget', if_neg hk.1]

theorem mem_known (t : Transaction) (c : Column) (r : KeyRange) (k : Bytes) :
    k ∈ ((t.overlay.get c).toList.filter fun kp => r.contains kp.1).map (·.1) ↔
      (∃ p, (t.overlay.get c)[k]? = some p) ∧ r.contains k = true := by
  simp only [List.mem_map, List.mem_filter, Prod.exists, Std.ExtTreeMap.mem_toList_iff_getElem?_eq_some]
  constructor
  · rintro ⟨k', p, ⟨hp, hr⟩, rfl⟩; exact ⟨⟨p, hp⟩, hr⟩
  · rintro ⟨⟨p, hp⟩, hr⟩; exact ⟨k, p, ⟨hp, hr⟩, rfl⟩

theorem getElem?_kept (t : Transaction) (base : Contents) (c : Column) (r : KeyRange) (k : Bytes) :
    (Std.ExtTreeMap.ofList (((Columns.get base c).scan r).filter fun p => !t.isDeleted c p.1) : Table)[k]? =
      if r.contains k = true ∧ t.isDeleted c k = false then base.get c k else none := by
  have hasc := ((Columns.get base c).ascending_scan r).filter fun p => !t.isDeleted c p.1
  refine Option.ext fun v => ?_
  rw [hasc.getElem?_ofList, List.mem_filter, Table.mem_scan]
  by_cases h : r.contains k = true ∧ t.isDeleted c k = false
  · simp [h, Contents.get_eq]
  · rw [if_neg h]
    simp only [Bool.not_eq_true', reduceCtorEq, iff_false]
    exact fun hk => h ⟨hk.1.2, hk.2⟩

/-- **A transaction that answers every key as the contents do lists every range as they do.** -/
theorem Shows.reader {t : Transaction} {base s : Contents} (hbelow : t.below = base.reader) (h : t.Shows s) :
    t.reader = s.reader := by
  refine Reader.eq_contents h fun c r o => ?_
  have hval : ∀ kp ∈ (t.overlay.get c).toList.filter fun kp => r.contains kp.1,
      t.resolve c kp.1 kp.2 = .ok (s.get c kp.1) := fun kp hkp => by
    have hmem := Std.ExtTreeMap.mem_toList_iff_getElem?_eq_some.1 (List.mem_filter.1 hkp).1
    rw [← get_known hmem]
    exact h c kp.1
  obtain ⟨found, hfound, hget⟩ := foldlM_overlayOne (s.get c) _
    (.ofList (((Columns.get base c).scan r).filter fun p => !t.isDeleted c p.1)) hval
  -- a key that the overlay knows is answered by it; any other comes from below, unless it was deleted
  have htab : found.toList = (Columns.get s c).scan r := by
    refine Table.eq_scan (Ascending.toList found) fun k v => ?_
    rw [Std.ExtTreeMap.mem_toList_iff_getElem?_eq_some, ← Contents.get_eq]
    by_cases hk : (∃ p, (t.overlay.get c)[k]? = some p) ∧ r.contains k = true
    · rw [(hget k).1 ((mem_known ..).2 hk)]
      simp [hk.2]
    · rw [(hget k).2 fun hmem => hk ((mem_known ..).1 hmem), getElem?_kept]
      by_cases hr : r.contains k = true
      · have hnone : (t.overlay.get c)[k]? = none :=
          Option.eq_none_iff_forall_ne_some.2 fun p hp => hk ⟨⟨p, hp⟩, hr⟩
        have hs := h c k
        rw [get_unknown hnone, inherited, hbelow] at hs
        cases hd : t.isDeleted c k with
        | true =>
          rw [hd] at hs
          have hsk : none = s.get c k := by injection hs
          simp [← hsk]
        | false =>
          rw [hd] at hs
          have hsk : base.get c k = s.get c k := by injection hs
          simp [hr, hsk]
      · simp [hr]
  have hscan : t.reader.scan c r o = t.scan c r o := rfl
  rw [hscan, scan, hbelow]
  change ((((t.overlay.get c).toList.filter fun kp => r.contains kp.1).foldlM (t.overlayOne c)
    (.ofList (((Columns.get base c).scan r).filter fun p => !t.isDeleted c p.1))).bind
      fun found => .ok (o.arrange found.toList)) = _
  rw [hfound, ← htab]; rfl

/-! ## From the beginning to the commit -/

/-- What a transaction answers is what its writes make of the contents below, once they can be made. -/
structure Follows (base : Contents) (t : Transaction) : Prop where
  below : t.below = base.reader
  shows : ∀ {s}, base.apply t.batch = .ok s → t.Shows s

theorem Follows.begin (base : Contents) : Follows base (.begin base.reader) where
  below := rfl
  shows := fun h c k => by
    cases h
    rw [get_unknown (by rw [Transaction.begin, Columns.get_const]; exact Std.ExtTreeMap.getElem?_empty), inherited,
      isDeleted, Transaction.begin, Columns.get_const]
    rfl

theorem batch_record {t t' : Transaction} {op : Op} (h : t.record op = .ok t') : t'.batch = t.batch ++ [op] := by
  rw [record] at h
  split at h
  · cases h; simp [batch]
  · cases h

theorem below_observe (t : Transaction) (op : Op) : (t.observe op).below = t.below := by cases op <;> rfl

theorem Follows.record {base : Contents} {t t' : Transaction} (h : Follows base t) {op : Op}
    (hop : t.record op = .ok t') : Follows base t' where
  below := by
    rw [Transaction.record] at hop
    split at hop
    · cases hop; exact (below_observe t op).trans h.below
    · cases hop
  shows := fun {s'} hs' => by
    rw [batch_record hop] at hs'
    cases hs : base.apply t.batch with
    | error e => rw [Contents.apply_append_error hs] at hs'; cases hs'
    | ok s =>
      rw [Contents.apply_append hs] at hs'
      have hone : s.applyOp op = .ok s' := by
        cases hx : s.applyOp op with
        | error e => rw [Contents.apply_cons_error hx] at hs'; cases hs'
        | ok s'' => rw [Contents.apply_cons hx] at hs'; exact hs'
      have hobs := (h.shows hs).observe hone
      rw [Transaction.record, Contents.admit_of_applyOp hone] at hop
      cases hop
      exact hobs

/-- A transaction over some contents, and the contents that its writes make of them. -/
structure Over (base : Contents) (t : Transaction) (s : Contents) : Prop extends Follows base t where
  replay : base.apply t.batch = .ok s

namespace Over

variable {base s : Contents} {t : Transaction}

theorem begin (base : Contents) : Over base (.begin base.reader) base := { Follows.begin base with replay := rfl }

theorem reader (h : Over base t s) : t.reader = s.reader := Shows.reader h.below (h.shows h.replay)

/-- **A write that the contents take is recorded, and the transaction answers as they then do.** -/
theorem record (h : Over base t s) {s' : Contents} {op : Op} (hop : s.applyOp op = .ok s') :
    ∃ t', t.record op = .ok t' ∧ Over base t' s' := by
  refine ⟨{ t.observe op with recorded := op :: t.recorded }, ?_, ?_⟩
  · rw [Transaction.record, Contents.admit_of_applyOp hop]
  · have hrec : t.record op = .ok { t.observe op with recorded := op :: t.recorded } := by
      rw [Transaction.record, Contents.admit_of_applyOp hop]
    refine { h.toFollows.record hrec with replay := ?_ }
    rw [batch_record hrec, Contents.apply_append h.replay, Contents.apply_cons hop]; rfl

theorem recordAll : ∀ {ops : List Op} {t : Transaction} {s s' : Contents}, Over base t s → s.apply ops = .ok s' →
    ∃ t', t.recordAll ops = .ok t' ∧ Over base t' s'
  | [], t, s, s', h, hops => by cases hops; exact ⟨t, rfl, h⟩
  | op :: ops, t, s, s', h, hops => by
    cases hop : s.applyOp op with
    | error e => rw [Contents.apply_cons_error hop] at hops; cases hops
    | ok s₁ =>
      rw [Contents.apply_cons hop] at hops
      obtain ⟨t₁, ht₁, h₁⟩ := h.record hop
      obtain ⟨t', ht', h'⟩ := recordAll h₁ hops
      refine ⟨t', ?_, h'⟩
      rw [Transaction.recordAll, List.foldlM_cons, ht₁]
      exact ht'

end Over

/-- Make a write, or go on without it when it is refused. -/
def call (t : Transaction) (op : Op) : Transaction :=
  match t.record op with
  | .ok t' => t'
  | .error _ => t

theorem Follows.call {base : Contents} {t : Transaction} (h : Follows base t) (op : Op) :
    Follows base (t.call op) := by
  rw [Transaction.call]
  split
  · rename_i t' hop; exact h.record hop
  · exact h

theorem Follows.calls {base : Contents} : ∀ {t : Transaction} (_ : Follows base t) (ops : List Op),
    Follows base (ops.foldl Transaction.call t)
  | _, h, [] => h
  | _, h, op :: ops => calls (h.call op) ops

end Transaction

namespace Store

theorem contents_commit (s : Store) (t : Transaction) : (s.commit t).map contents = s.contents.apply t.batch := by
  rw [commit]
  split
  · rename_i h
    rw [Transaction.batch, List.isEmpty_iff.1 h]; rfl
  · exact s.contents_write t.batch

/-- **What a transaction made of the contents is what they are once it is committed.** -/
theorem commit_over {s : Store} {t : Transaction} {c : Contents} (h : t.Over s.contents c) :
    ∃ s', s.commit t = .ok s' ∧ s'.contents = c := by
  have hcontents := s.contents_commit t
  rw [h.replay] at hcontents
  cases hs : s.commit t with
  | error e => rw [hs] at hcontents; cases hcontents
  | ok s' => rw [hs] at hcontents; exact ⟨s', rfl, Except.ok.inj hcontents⟩

/-- The store after a commit that may have failed. -/
def afterCommit (s : Store) (t : Transaction) : Store :=
  match s.commit t with
  | .ok s' => s'
  | .error _ => s

/-- **A commit changes no answer.**  Whatever was written in a transaction, once it is committed the store answers
every key, every list of keys and every range as the transaction did.  When the commit fails one of the writes cannot
be made, and the store answers as before. -/
theorem commit_answers (s : Store) (calls : List Op) :
    let t := calls.foldl Transaction.call (.begin s.reader)
    match s.commit t with
    | .ok s' =>
      (∀ c k, ∃ v, t.get c k = .ok v ∧ s'.reader.get c k = .ok v) ∧
      (∀ c ks, ∃ vs, t.reader.getMany c ks = .ok vs ∧ s'.reader.getMany c ks = .ok vs) ∧
      (∀ c r o, ∃ ps, t.scan c r o = .ok ps ∧ s'.reader.scan c r o = .ok ps)
    | .error e => s.contents.apply t.batch = .error e ∧ (s.afterCommit t).reader = s.reader := by
  intro t
  have hfollows : t.Follows s.contents := by
    have h := (Transaction.Follows.begin s.contents).calls calls
    rwa [← s.reader_eq] at h
  have hcontents := s.contents_commit t
  cases hc : s.commit t with
  | ok s' =>
    rw [hc] at hcontents
    have hreader : t.reader = s'.contents.reader :=
      Transaction.Shows.reader hfollows.below (hfollows.shows hcontents.symm)
    rw [← s'.reader_eq] at hreader
    refine ⟨fun c k => ⟨s'.contents.get c k, ?_, ?_⟩, fun c ks => ⟨ks.map (s'.contents.get c), ?_, ?_⟩,
      fun c r o => ⟨o.arrange ((Columns.get s'.contents c).scan r), ?_, ?_⟩⟩
    · change t.reader.get c k = _
      rw [hreader, s'.reader_eq]; rfl
    · rw [s'.reader_eq]; rfl
    · rw [hreader, s'.reader_eq, Contents.reader_getMany]
    · rw [s'.reader_eq, Contents.reader_getMany]
    · change t.reader.scan c r o = _
      rw [hreader, s'.reader_eq]; rfl
    · rw [s'.reader_eq]; rfl
  | error e =>
    rw [hc] at hcontents
    exact ⟨hcontents.symm, by rw [afterCommit, hc]⟩

end Store
end TileAtlas
