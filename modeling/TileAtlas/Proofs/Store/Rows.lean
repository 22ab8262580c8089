import TileAtlas.Proofs.Bytes
import TileAtlas.Store.Op
/-!
# Rows in the order of their keys

What a store lists is ascending: in the order of keys, each key once.  Two ascending lists with the
same rows are equal (`Ascending.eq_of_mem_iff`), so that a listing is known once its rows are, and a
table is the list of its rows (`Ascending.toList_ofList`).
-/
namespace TileAtlas

section Ordered

variable {α β γ : Type} [Ord α]

/-- Rows in the order of their keys, each key once. -/
def Ascending (l : List (α × β)) : Prop := l.Pairwise fun a b => compare a.1 b.1 = .lt

namespace Ascending

theorem filter {l : List (α × β)} (h : Ascending l) (p : α × β → Bool) : Ascending (l.filter p) :=
  List.Pairwise.filter p h

theorem lt_of_cons {x : α × β} {l : List (α × β)} (h : Ascending (x :: l)) : ∀ y ∈ l, compare x.1 y.1 = .lt :=
  fun _ hy => List.rel_of_pairwise_cons h hy

theorem tail {x : α × β} {l : List (α × β)} (h : Ascending (x :: l)) : Ascending l := List.Pairwise.of_cons h

theorem toList [Std.TransOrd α] (m : Std.ExtTreeMap α β) : Ascending m.toList :=
  Std.ExtTreeMap.ordered_keys_toList

end Ascending

variable [Std.TransOrd α]

theorem compare_irrefl (a : α) : ¬ compare a a = .lt := by rw [Std.compare_self]; exact nofun

theorem nodup_of_ascending {l : List α} (h : l.Pairwise fun a b => compare a b = .lt) : l.Nodup :=
  h.imp fun {a b} hab heq => by
    rw [heq] at hab
    exact compare_irrefl _ hab

/-- Lists that are strictly ascending by some measure are equal when they have the same items. -/
theorem eq_of_ascending_by (f : γ → α) {l l' : List γ} (hl : l.Pairwise fun a b => compare (f a) (f b) = .lt)
    (hl' : l'.Pairwise fun a b => compare (f a) (f b) = .lt) (hmem : ∀ x, x ∈ l ↔ x ∈ l') : l = l' := by
  have hnd : ∀ {l : List γ}, l.Pairwise (fun a b => compare (f a) (f b) = .lt) → l.Nodup := fun h =>
    h.imp fun {a b} hab heq => by subst heq; exact compare_irrefl _ hab
  refine ((List.perm_ext_iff_of_nodup (hnd hl) (hnd hl')).2 hmem).eq_of_pairwise (fun a b _ _ hab hba => ?_) hl hl'
  rw [@Std.OrientedCmp.eq_swap _ compare, hba] at hab
  cases hab

theorem eq_of_ascending {l l' : List α} (hl : l.Pairwise fun a b => compare a b = .lt)
    (hl' : l'.Pairwise fun a b => compare a b = .lt) (hmem : ∀ x, x ∈ l ↔ x ∈ l') : l = l' :=
  eq_of_ascending_by id hl hl' hmem

namespace Ascending

/-- **Ascending lists with the same rows are equal.** -/
theorem eq_of_mem_iff {l l' : List (α × β)} (h : Ascending l) (h' : Ascending l')
    (hmem : ∀ k v, (k, v) ∈ l ↔ (k, v) ∈ l') : l = l' :=
  eq_of_ascending_by Prod.fst h h' fun x => hmem x.1 x.2

variable [Std.LawfulEqOrd α]

theorem getElem?_ofList [DecidableEq α] {l : List (α × β)} (h : Ascending l) (k : α) (v : β) :
    (Std.ExtTreeMap.ofList l)[k]? = some v ↔ (k, v) ∈ l := by
  have hd : l.Pairwise fun a b => ¬ compare a.1 b.1 = .eq := h.imp fun hab heq => by rw [hab] at heq; cases heq
  constructor
  · intro hv
    have hk : k ∈ l.map Prod.fst := by
      have hin : (Std.ExtTreeMap.ofList l).contains k = true := by
        rw [Std.ExtTreeMap.contains_eq_isSome_getElem?, hv]; rfl
      rw [Std.ExtTreeMap.contains_ofList] at hin
      exact List.contains_iff_mem.1 hin
    obtain ⟨⟨k', v'⟩, hmem, rfl⟩ := List.mem_map.1 hk
    have hv' := Std.ExtTreeMap.getElem?_ofList_of_mem (Std.compare_self (a := k')) hd hmem
    rw [hv] at hv'
    cases hv'
    exact hmem
  · exact Std.ExtTreeMap.getElem?_ofList_of_mem Std.compare_self hd

theorem toList_ofList [DecidableEq α] {l : List (α × β)} (h : Ascending l) :
    (Std.ExtTreeMap.ofList l).toList = l :=
  (toList _).eq_of_mem_iff h fun k v => by
    rw [Std.ExtTreeMap.mem_toList_iff_getElem?_eq_some, h.getElem?_ofList]

end Ascending

end Ordered

/-! ## Reading rows one by one -/

section Reading

variable {ε α β : Type} {f : α → Except ε β}

@[simp] theorem mapError_ok {δ : Type} (a : α) (g : ε → δ) : (Except.ok a).mapError g = .ok a := rfl

theorem eq_ok_of_mapError {δ : Type} {r : Except ε α} {g : ε → δ} {a : α} (h : r.mapError g = .ok a) : r = .ok a := by
  cases r with
  | error e => cases h
  | ok b => cases h; rfl

theorem eq_error_of_mapError {δ : Type} {r : Except ε α} {g : ε → δ} {e : δ} (h : r.mapError g = .error e) :
    ∃ x, r = .error x ∧ e = g x := by
  cases r with
  | error x => cases h; exact ⟨x, rfl, rfl⟩
  | ok a => cases h

theorem exists_of_bind {r : Except ε α} {b : β} (h : r >>= f = .ok b) : ∃ a, r = .ok a ∧ f a = .ok b := by
  cases r with
  | error e => cases h
  | ok a => exact ⟨a, rfl, h⟩

theorem mapM_cons_ok {a : α} {b : β} (h : f a = .ok b) {l : List α} {bs : List β} (hl : l.mapM f = .ok bs) :
    (a :: l).mapM f = .ok (b :: bs) := by
  rw [List.mapM_cons, h, hl]; rfl

theorem mapM_eq_ok {g : α → β} : ∀ {l : List α}, (∀ a ∈ l, f a = .ok (g a)) → l.mapM f = .ok (l.map g)
  | [], _ => rfl
  | a :: _, h => mapM_cons_ok (h a List.mem_cons_self) (mapM_eq_ok fun x hx => h x (List.mem_cons_of_mem _ hx))

theorem exists_of_mapM_cons {a : α} {l : List α} {bs : List β} (h : (a :: l).mapM f = .ok bs) :
    ∃ b bs', f a = .ok b ∧ l.mapM f = .ok bs' ∧ bs = b :: bs' := by
  rw [List.mapM_cons] at h
  obtain ⟨b, hb, h⟩ := exists_of_bind h
  obtain ⟨bs', hl, h⟩ := exists_of_bind h
  exact ⟨b, bs', hb, hl, (Except.ok.inj h).symm⟩

theorem exists_of_mapM : ∀ {l : List α} {bs : List β}, l.mapM f = .ok bs → ∀ a ∈ l, ∃ b, f a = .ok b
  | [], _, _, a, ha => absurd ha List.not_mem_nil
  | x :: l, bs, h, a, ha => by
    obtain ⟨b, bs', hb, hl, -⟩ := exists_of_mapM_cons h
    rcases List.mem_cons.1 ha with rfl | ha
    · exact ⟨b, hb⟩
    · exact exists_of_mapM hl a ha

/-- The rows before the first that cannot be read are determined. -/
theorem eq_of_first_failure {x x' : ε} {a a' : α} {rest rest' : List α} :
    ∀ {l l' : List α}, (∀ b ∈ l, ∃ c, f b = .ok c) → f a = .error x → (∀ b ∈ l', ∃ c, f b = .ok c) → f a' = .error x' →
      l ++ a :: rest = l' ++ a' :: rest' → l = l' ∧ a = a'
  | [], [], _, _, _, _, heq => ⟨rfl, (List.cons.inj heq).1⟩
  | [], b :: l', _, ha, hl', _, heq => by
    obtain ⟨c, hc⟩ := hl' b List.mem_cons_self
    rw [← (List.cons.inj heq).1, ha] at hc
    cases hc
  | b :: l, [], hl, _, _, ha', heq => by
    obtain ⟨c, hc⟩ := hl b List.mem_cons_self
    rw [(List.cons.inj heq).1, ha'] at hc
    cases hc
  | b :: l, b' :: l', hl, ha, hl', ha', heq => by
    obtain ⟨rfl, htail⟩ := List.cons.inj heq
    obtain ⟨rfl, hlast⟩ := eq_of_first_failure (fun c hc => hl c (List.mem_cons_of_mem _ hc)) ha
      (fun c hc => hl' c (List.mem_cons_of_mem _ hc)) ha' htail
    exact ⟨rfl, hlast⟩

/-- What each row has in common with what it was read as. -/
theorem map_eq_of_mapM {γ : Type} {u : α → γ} {w : β → γ} (hw : ∀ a b, f a = .ok b → u a = w b) :
    ∀ {l : List α} {bs : List β}, l.mapM f = .ok bs → l.map u = bs.map w
  | [], bs, h => by cases h; rfl
  | a :: l, bs, h => by
    obtain ⟨b, bs', hb, hl, rfl⟩ := exists_of_mapM_cons h
    rw [List.map_cons, List.map_cons, hw a b hb, map_eq_of_mapM hw hl]

theorem filterMap_toOption_of_mapM : ∀ {l : List α} {bs : List β}, l.mapM f = .ok bs →
    l.filterMap (fun a => (f a).toOption) = bs
  | [], _, h => by cases h; rfl
  | a :: l, _, h => by
    obtain ⟨b, bs', hb, hl, rfl⟩ := exists_of_mapM_cons h
    rw [List.filterMap_cons_some (by rw [hb]; rfl), filterMap_toOption_of_mapM hl]

theorem mem_mapM_iff {l : List α} {bs : List β} (h : l.mapM f = .ok bs) {b : β} : b ∈ bs ↔ ∃ a ∈ l, f a = .ok b := by
  rw [← filterMap_toOption_of_mapM h, List.mem_filterMap]
  refine exists_congr fun a => and_congr_right fun _ => ?_
  cases f a <;> simp [Except.toOption]

theorem map_mapM {γ : Type} {g : β → γ} : ∀ l : List α, (l.mapM f).map (List.map g) = l.mapM fun a => (f a).map g
  | [] => rfl
  | a :: l => by
    rw [List.mapM_cons, List.mapM_cons, ← map_mapM l]
    cases f a with
    | error e => rfl
    | ok b => cases l.mapM f <;> rfl

theorem mapM_congr {g : α → Except ε β} : ∀ {l : List α}, (∀ a ∈ l, f a = g a) → l.mapM f = l.mapM g
  | [], _ => rfl
  | a :: l, h => by
    rw [List.mapM_cons, List.mapM_cons, h a List.mem_cons_self,
      mapM_congr fun x hx => h x (List.mem_cons_of_mem a hx)]

/-- Rows that were written one by one are read one by one. -/
theorem mapM_map_ok {γ : Type} {w : γ → α} {g : γ → β} {l : List γ} (h : ∀ c ∈ l, f (w c) = .ok (g c)) :
    (l.map w).mapM f = .ok (l.map g) := by
  rw [List.mapM_map]
  exact mapM_eq_ok h

theorem exists_eq_map {w : β → α} : ∀ {l : List α}, (∀ a ∈ l, ∃ b, a = w b) → ∃ bs : List β, l = bs.map w
  | [], _ => ⟨[], rfl⟩
  | a :: l, h => by
    obtain ⟨b, rfl⟩ := h a List.mem_cons_self
    obtain ⟨bs, rfl⟩ := exists_eq_map fun x hx => h x (List.mem_cons_of_mem _ hx)
    exact ⟨b :: bs, rfl⟩

end Reading

/-! ## The rows of a table -/

namespace Table

theorem ascending_scan (t : Table) (r : KeyRange) : Ascending (t.scan r) := (Ascending.toList t).filter _

theorem mem_scan {t : Table} {r : KeyRange} {k v : Bytes} :
    (k, v) ∈ t.scan r ↔ t[k]? = some v ∧ r.contains k = true := by
  rw [scan, List.mem_filter, Std.ExtTreeMap.mem_toList_iff_getElem?_eq_some]

/-- A listing of a range is known once its rows are. -/
theorem eq_scan {t : Table} {r : KeyRange} {l : List Pair} (hl : Ascending l)
    (hmem : ∀ k v, (k, v) ∈ l ↔ t[k]? = some v ∧ r.contains k = true) : l = t.scan r :=
  hl.eq_of_mem_iff (t.ascending_scan r) fun k v => by rw [hmem, mem_scan]

@[simp] theorem scan_all (t : Table) : t.scan .all = t.toList := by
  rw [scan]
  exact List.filter_eq_self.2 fun p _ => KeyRange.contains_all p.1

theorem getElem?_deleteRange (t : Table) (r : KeyRange) (k : Bytes) :
    (t.deleteRange r)[k]? = if r.contains k then none else t[k]? := by
  rw [deleteRange, Std.ExtTreeMap.getElem?_filter']
  cases t[k]? <;> cases r.contains k <;> rfl

end Table
end TileAtlas
