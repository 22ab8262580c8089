import TileAtlas.Proofs.Store.Rows
/-!
# The plain meaning of writes, key by key

`Contents.apply` makes writes one after another; here is what a key of a column holds after each kind
of write, and that a write touches its own column only.  Contents that hold the same under every key
are equal (`Contents.ext_get`), so these facts are all there is to know about a write.
-/
namespace TileAtlas

theorem Columns.get_modify {α : Type} (cs : Columns α) (c d : Column) (f : α → α) :
    (cs.modify c f).get d = if d = c then f (cs.get c) else cs.get d := Columns.get_set ..

/-- Whether a write leaves a value under a key. -/
def Op.Fills (op : Op) (c : Column) (k : Bytes) : Prop :=
  match op with
  | .put d l _ => d = c ∧ l = k
  | .merge d l _ => d = c ∧ l = k
  | _ => False

namespace Contents

theorem columns_get_eq {s t : Contents} {c : Column} (h : ∀ k, s.get c k = t.get c k) :
    Columns.get s c = Columns.get t c := Std.ExtTreeMap.ext_getElem? fun {k} => h k

theorem ext_get {s t : Contents} (h : ∀ c k, s.get c k = t.get c k) : s = t :=
  Columns.ext_get fun c => columns_get_eq (h c)

theorem get_eq (s : Contents) (c : Column) (k : Bytes) : s.get c k = (Columns.get s c)[k]? := rfl

@[simp] theorem get_empty (c : Column) (k : Bytes) : empty.get c k = none := by
  rw [get, empty, Columns.get_const]; exact Std.ExtTreeMap.getElem?_empty

/-! ## One write -/

/-- The contents after one key was set. -/
def put (s : Contents) (c : Column) (k v : Bytes) : Contents := s.modify c (·.insert k v)

/-- The contents after one key was taken out. -/
def erase (s : Contents) (c : Column) (k : Bytes) : Contents := s.modify c (·.erase k)

theorem get_put (s : Contents) (c d : Column) (k l v : Bytes) :
    (s.put c k v).get d l = if d = c ∧ l = k then some v else s.get d l := by
  rw [get, put, Columns.get_modify]
  by_cases hd : d = c
  · subst hd
    rw [if_pos rfl, Std.ExtTreeMap.getElem?_insert]
    by_cases hl : l = k
    · subst hl; simp
    · simp [hl, Ne.symm hl, get]
  · simp [hd, get]

theorem get_erase (s : Contents) (c d : Column) (k l : Bytes) :
    (s.erase c k).get d l = if d = c ∧ l = k then none else s.get d l := by
  rw [get, erase, Columns.get_modify]
  by_cases hd : d = c
  · subst hd
    rw [if_pos rfl, Std.ExtTreeMap.getElem?_erase]
    by_cases hl : l = k
    · subst hl; simp
    · simp [hl, Ne.symm hl, get]
  · simp [hd, get]

theorem get_deleteRange (s : Contents) (c d : Column) (r : KeyRange) (l : Bytes) :
    get (s.modify c (·.deleteRange r)) d l = if d = c ∧ r.contains l = true then none else s.get d l := by
  rw [get, Columns.get_modify]
  by_cases hd : d = c
  · subst hd; simp [Table.getElem?_deleteRange, get]
  · simp [hd, get]

/-- The contents after one key was set or taken out. -/
def assign (s : Contents) (c : Column) (k : Bytes) : Option Bytes → Contents
  | some v => s.put c k v
  | none => s.erase c k

theorem get_assign (s : Contents) (c d : Column) (k l : Bytes) (o : Option Bytes) :
    (s.assign c k o).get d l = if d = c ∧ l = k then o else s.get d l := by
  cases o with
  | none => exact get_erase ..
  | some v => exact get_put ..

@[simp] theorem applyOp_put (s : Contents) (c : Column) (k v : Bytes) :
    s.applyOp (.put c k v) = .ok (s.put c k v) := rfl

@[simp] theorem applyOp_delete (s : Contents) (c : Column) (k : Bytes) :
    s.applyOp (.delete c k) = .ok (s.erase c k) := rfl

/-- A merge sets the key to the merged value. -/
theorem applyOp_merge {s : Contents} {c : Column} {k d v : Bytes} (h : c.merge (s.get c k) d = .ok v) :
    s.applyOp (.merge c k d) = .ok (s.put c k v) := by
  simp only [applyOp, h]; rfl

theorem applyOp_merge_error {s : Contents} {c : Column} {k d : Bytes} {e : StoreError}
    (h : c.merge (s.get c k) d = .error e) : s.applyOp (.merge c k d) = .error e := by
  simp only [applyOp, h]

/-- **A write touches its own column only.** -/
theorem get_applyOp_of_ne {s s' : Contents} {op : Op} (h : s.applyOp op = .ok s') {d : Column} (hd : d ≠ op.column)
    (k : Bytes) : s'.get d k = s.get d k := by
  cases op with
  | put c l v => cases h; exact (get_put ..).trans (if_neg fun hk => hd hk.1)
  | delete c l => cases h; exact (get_erase ..).trans (if_neg fun hk => hd hk.1)
  | deleteRange c r => cases h; exact (get_deleteRange ..).trans (if_neg fun hk => hd hk.1)
  | merge c l x =>
    cases hm : c.merge (s.get c l) x with
    | error e => rw [applyOp_merge_error hm] at h; cases h
    | ok v => rw [applyOp_merge hm] at h; cases h; exact (get_put ..).trans (if_neg fun hk => hd hk.1)

/-! ## Several writes -/

theorem apply_cons {s s₁ : Contents} {op : Op} (h : s.applyOp op = .ok s₁) (b : Batch) :
    s.apply (op :: b) = s₁.apply b := by
  rw [apply, List.foldlM_cons, h]; rfl

theorem apply_cons_error {s : Contents} {op : Op} {e : StoreError} (h : s.applyOp op = .error e) (b : Batch) :
    s.apply (op :: b) = .error e := by
  rw [apply, List.foldlM_cons, h]; rfl

theorem apply_append {s s₁ : Contents} {b : Batch} (h : s.apply b = .ok s₁) (b' : Batch) :
    s.apply (b ++ b') = s₁.apply b' := by
  rw [apply] at h ⊢
  rw [List.foldlM_append, h]; rfl

theorem apply_append_error {s : Contents} {b : Batch} {e : StoreError} (h : s.apply b = .error e) (b' : Batch) :
    s.apply (b ++ b') = .error e := by
  rw [apply] at h ⊢
  rw [List.foldlM_append, h]; rfl

theorem get_apply_of_ne : ∀ {b : Batch} {s s' : Contents}, s.apply b = .ok s' → ∀ {d : Column},
    (∀ op ∈ b, d ≠ op.column) → ∀ k, s'.get d k = s.get d k
  | [], s, s', h, d, _, k => by cases h; rfl
  | op :: b, s, s', h, d, hd, k => by
    cases h₁ : s.applyOp op with
    | error e => rw [apply_cons_error h₁] at h; cases h
    | ok s₁ =>
      rw [apply_cons h₁] at h
      rw [get_apply_of_ne h (fun op' hop' => hd op' (List.mem_cons_of_mem _ hop')) k,
        get_applyOp_of_ne h₁ (hd op List.mem_cons_self) k]

theorem exists_of_applyOp {s s' : Contents} {op : Op} (h : s.applyOp op = .ok s') {c : Column} {k v : Bytes}
    (hv : s'.get c k = some v) : op.Fills c k ∨ ∃ w, s.get c k = some w := by
  cases op with
  | put d l x =>
    rw [applyOp_put] at h
    cases h
    rw [get_put] at hv
    split at hv
    · rename_i heq; exact .inl ⟨heq.1.symm, heq.2.symm⟩
    · exact .inr ⟨v, hv⟩
  | delete d l =>
    rw [applyOp_delete] at h
    cases h
    rw [get_erase] at hv
    split at hv
    · cases hv
    · exact .inr ⟨v, hv⟩
  | deleteRange d r =>
    cases h
    rw [get_deleteRange] at hv
    split at hv
    · cases hv
    · exact .inr ⟨v, hv⟩
  | merge d l x =>
    cases hm : d.merge (s.get d l) x with
    | error e => rw [applyOp_merge_error hm] at h; cases h
    | ok w =>
      rw [applyOp_merge hm] at h
      cases h
      rw [get_put] at hv
      split at hv
      · rename_i heq; exact .inl ⟨heq.1.symm, heq.2.symm⟩
      · exact .inr ⟨v, hv⟩

/-- **A key that holds something held something before or was filled by a write.** -/
theorem exists_of_apply : ∀ {b : Batch} {s s' : Contents}, s.apply b = .ok s' → ∀ {c : Column} {k v : Bytes},
    s'.get c k = some v → (∃ op ∈ b, op.Fills c k) ∨ ∃ w, s.get c k = some w
  | [], s, s', h, c, k, v, hv => by cases h; exact .inr ⟨v, hv⟩
  | op :: b, s, s', h, c, k, v, hv => by
    cases h₁ : s.applyOp op with
    | error e => rw [apply_cons_error h₁] at h; cases h
    | ok s₁ =>
      rw [apply_cons h₁] at h
      rcases exists_of_apply h hv with ⟨op', hop', hf⟩ | ⟨w, hw⟩
      · exact .inl ⟨op', List.mem_cons_of_mem _ hop', hf⟩
      · rcases exists_of_applyOp h₁ hw with hf | hw'
        · exact .inl ⟨op, List.mem_cons_self, hf⟩
        · exact .inr hw'

/-! ## What a reader of the contents answers -/

@[simp] theorem reader_get (s : Contents) (c : Column) (k : Bytes) : s.reader.get c k = .ok (s.get c k) := rfl

@[simp] theorem reader_scan (s : Contents) (c : Column) (r : KeyRange) (o : ScanOrder) :
    s.reader.scan c r o = .ok (o.arrange ((Columns.get s c).scan r)) := rfl

@[simp] theorem reader_getMany (s : Contents) (c : Column) (ks : List Bytes) :
    s.reader.getMany c ks = .ok (ks.map (s.get c)) := by
  rw [Reader.getMany]
  exact List.mapM_pure (m := Except StoreError)

end Contents

/-- A reader that answers every key and every range like the contents is the reader of the contents. -/
theorem Reader.eq_contents {r : Reader} {s : Contents} (hget : ∀ c k, r.get c k = .ok (s.get c k))
    (hscan : ∀ c range o, r.scan c range o = .ok (o.arrange ((Columns.get s c).scan range))) : r = s.reader := by
  cases r
  simp only [Contents.reader, mk.injEq]
  exact ⟨funext fun c => funext (hget c), funext fun c => funext fun range => funext (hscan c range)⟩

end TileAtlas
