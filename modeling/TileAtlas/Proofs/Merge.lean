import TileAtlas.Proofs.Keys
/-!
# What merges add up to

A counter that was written reads back, and merging an operand adds its number modulo two to the
sixty-fourth.  A set of counted references that was written reads back too (`ReferenceCounts.decode_encode`),
and merging the operand of one referrer changes the count of this referrer by one and no other
(`change_adding`, `change_removing`).
-/
namespace TileAtlas

theorem Bytes.pieces_flatMap {α : Type} {width : Nat} {f : α → Bytes} (hf : ∀ a, (f a).length = width) :
    ∀ as : List α, pieces width as.length (as.flatMap f) = as.map f
  | [] => rfl
  | a :: as => by
    have htake : (f a ++ as.flatMap f).take width = f a := by rw [← hf a, List.take_left]
    have hdrop : (f a ++ as.flatMap f).drop width = as.flatMap f := by rw [← hf a, List.drop_left]
    rw [List.length_cons, List.flatMap_cons, pieces, htake, hdrop, pieces_flatMap hf as, List.map_cons]

theorem Bytes.length_flatMap {α : Type} {width : Nat} {f : α → Bytes} (hf : ∀ a, (f a).length = width) :
    ∀ as : List α, (as.flatMap f).length = as.length * width
  | [] => by simp
  | a :: as => by
    rw [List.flatMap_cons, List.length_append, hf, length_flatMap hf as, List.length_cons, Nat.succ_mul, Nat.add_comm]

/-! ## Counters -/

namespace Counter

@[simp] theorem length_encode (n : UInt64) : (encode n).length = 8 := Bytes.length_ofNatLE 8 _

@[simp] theorem decode_encode (what : MergePart) (n : UInt64) : decode what (encode n) = .ok n := by
  rw [decode, if_pos (length_encode n), encode, Bytes.toNatLE_ofNatLE, Nat.mod_eq_of_lt (Bytes.word_lt n),
    UInt64.ofNat_toNat]

theorem merge_none_eq (bs : Bytes) :
    merge none bs = (decode .counterOperand bs).bind fun d => .ok (encode (0 + d)) := rfl

theorem merge_some_eq (bs bs' : Bytes) : merge (some bs) bs' =
    (decode .counterValue bs).bind fun n => (decode .counterOperand bs').bind fun d => .ok (encode (n + d)) := rfl

theorem merge_none (d : Int) : merge none (operand d) = .ok (encode (UInt64.ofInt d)) := by
  rw [merge_none_eq, operand, decode_encode, Except.bind, UInt64.zero_add]

theorem merge_decoded {bs : Bytes} {n : UInt64} (h : decode .counterValue bs = .ok n) (d : Int) :
    merge (some bs) (operand d) = .ok (encode (n + UInt64.ofInt d)) := by
  rw [merge_some_eq, h, operand, decode_encode]; rfl

theorem ofInt_natCast (n : Nat) : UInt64.ofInt (n : Int) = UInt64.ofNat n := by
  apply UInt64.toNat_inj.1
  have hsize : ((2 ^ 64 : Nat) : Int) = 2 ^ 64 := by decide
  rw [UInt64.ofInt, UInt64.toNat_ofNat', UInt64.toNat_ofNat', ← hsize, ← Int.natCast_emod, Int.toNat_natCast,
    Nat.mod_mod]

theorem ofNat_add_neg (n : Nat) : UInt64.ofNat n + UInt64.ofInt (-(n : Int)) = 0 := by
  rw [UInt64.ofInt_neg, ofInt_natCast]
  exact UInt64.add_right_neg _

end Counter

/-! ## Sets of references -/

namespace ReferenceCounts

@[simp] theorem length_encodeRecord (r : ElementId × Int64) : (encodeRecord r).length = 16 := by
  simp [encodeRecord]

@[simp] theorem decodeRecord_encodeRecord (r : ElementId × Int64) : decodeRecord (encodeRecord r) = r := by
  obtain ⟨id, n⟩ := r
  have hcount := Bytes.ofWord_append n.toUInt64 []
  rw [List.append_nil, List.take_of_length_le (by simp)] at hcount
  rw [decodeRecord, encodeRecord, ElementId.key, Bytes.ofWord_append, drop_word (by simp), hcount]
  simp

theorem decode_flatMap (what : MergePart) (l : List (ElementId × Int64)) :
    decode what (l.flatMap encodeRecord) = .ok (l.foldl add ∅) := by
  have hlen := Bytes.length_flatMap length_encodeRecord l
  rw [decode, if_neg (by rw [hlen]; omega), hlen, Nat.mul_div_cancel _ (by decide),
    Bytes.pieces_flatMap length_encodeRecord, List.map_map,
    show decodeRecord ∘ encodeRecord = id from funext decodeRecord_encodeRecord, List.map_id]

/-- Records of distinct elements are put in as they are. -/
theorem foldl_add : ∀ {l : List (ElementId × Int64)} (_ : Ascending l) (counts : ReferenceCounts),
    (∀ r ∈ l, counts[r.1]? = none) → ∀ (k : ElementId) (n : Int64),
      (l.foldl add counts)[k]? = some n ↔ (k, n) ∈ l ∨ counts[k]? = some n
  | [], _, counts, _, k, n => by simp
  | r :: l, h, counts, hnone, k, n => by
    have hadd : add counts r = counts.insert r.1 r.2 := by
      rw [add, Std.ExtTreeMap.getD_eq_getD_getElem?, hnone r List.mem_cons_self]; simp
    have hne : ∀ x ∈ l, compare r.1 x.1 = .lt := h.lt_of_cons
    have hnone' : ∀ x ∈ l, (counts.insert r.1 r.2)[x.1]? = none := fun x hx => by
      rw [Std.ExtTreeMap.getElem?_insert, if_neg (by rw [hne x hx]; exact nofun)]
      exact hnone x (List.mem_cons_of_mem _ hx)
    rw [List.foldl_cons, hadd, foldl_add h.tail _ hnone', Std.ExtTreeMap.getElem?_insert, List.mem_cons]
    by_cases hk : r.1 = k
    · subst hk
      rw [if_pos Std.compare_self, hnone r List.mem_cons_self]
      constructor
      · rintro (hl | hn)
        · exact .inl (.inr hl)
        · cases hn; exact .inl (.inl rfl)
      · rintro ((hr | hl) | hn)
        · rw [← hr]; exact .inr rfl
        · exact .inl hl
        · cases hn
    · rw [if_neg fun hc => hk (Std.LawfulEqOrd.eq_of_compare hc)]
      constructor
      · rintro (hl | hn)
        · exact .inl (.inr hl)
        · exact .inr hn
      · rintro ((hr | hl) | hn)
        · exact absurd (congrArg Prod.fst hr).symm hk
        · exact .inl hl
        · exact .inr hn

/-- **A set of references reads back.** -/
theorem decode_encode (what : MergePart) (counts : ReferenceCounts) : decode what counts.encode = .ok counts := by
  rw [encode, decode_flatMap]
  congr 1
  refine Std.ExtTreeMap.ext_getElem? fun {k} => Option.ext fun n => ?_
  rw [foldl_add (Ascending.toList counts) ∅ (fun _ _ => Std.ExtTreeMap.getElem?_empty) k n,
    Std.ExtTreeMap.mem_toList_iff_getElem?_eq_some]
  simp

theorem decode_record (what : MergePart) (r : ElementId × Int64) :
    decode what (encodeRecord r) = .ok (Std.ExtTreeMap.ofList [r]) := by
  have h := decode_flatMap what [r]
  rw [List.flatMap_cons, List.flatMap_nil, List.append_nil] at h
  rw [h, List.foldl_cons, List.foldl_nil, add, Std.ExtTreeMap.ofList_singleton]
  simp

theorem apply_record (counts : ReferenceCounts) (r : ElementId × Int64) :
    counts.apply (Std.ExtTreeMap.ofList [r]) = counts.change r := by
  have hasc : Ascending [r] := List.pairwise_singleton _ _
  rw [apply, hasc.toList_ofList]; rfl

theorem merge_none_eq (bs : Bytes) :
    merge none bs = (decode .referenceOperand bs).bind fun d => .ok (apply ∅ d).encode := rfl

theorem merge_some_eq (bs bs' : Bytes) : merge (some bs) bs' =
    (decode .referenceSet bs).bind fun m => (decode .referenceOperand bs').bind fun d => .ok (m.apply d).encode := rfl

theorem merge_record_none (r : ElementId × Int64) : merge none (encodeRecord r) = .ok (change ∅ r).encode := by
  rw [merge_none_eq, decode_record, ← apply_record]; rfl

theorem merge_record_some (counts : ReferenceCounts) (r : ElementId × Int64) :
    merge (some counts.encode) (encodeRecord r) = .ok (counts.change r).encode := by
  rw [merge_some_eq, decode_encode, decode_record, ← apply_record]; rfl

/-- An element that is not counted is counted once. -/
theorem change_adding {counts : ReferenceCounts} {id : ElementId} (h : counts[id]? = none) :
    counts.change (id, 1) = counts.insert id 1 := by
  rw [change, Std.ExtTreeMap.getD_eq_getD_getElem?, h]
  exact if_neg (by decide : ¬ (0 : Int64) + 1 = 0)

/-- An element that is counted once is not counted any more. -/
theorem change_removing {counts : ReferenceCounts} {id : ElementId} (h : counts[id]? = some 1) :
    counts.change (id, -1) = counts.erase id := by
  rw [change, Std.ExtTreeMap.getD_eq_getD_getElem?, h]
  exact if_pos (by decide : (1 : Int64) + -1 = 0)

theorem mem_members {counts : ReferenceCounts} {id : ElementId} :
    id ∈ counts.members ↔ ∃ n, 0 < n ∧ counts[id]? = some n := by
  rw [members, List.mem_filterMap]
  constructor
  · rintro ⟨⟨k, n⟩, hmem, hk⟩
    split at hk
    · rename_i hn
      cases hk
      exact ⟨n, hn, Std.ExtTreeMap.mem_toList_iff_getElem?_eq_some.1 hmem⟩
    · cases hk
  · rintro ⟨n, hn, hget⟩
    exact ⟨(id, n), Std.ExtTreeMap.mem_toList_iff_getElem?_eq_some.2 hget, if_pos hn⟩

theorem ascending_members (counts : ReferenceCounts) :
    counts.members.Pairwise fun a b => compare a b = .lt := by
  rw [members]
  refine List.Pairwise.filterMap _ (fun a a' h b hb b' hb' => ?_) (Ascending.toList counts)
  split at hb
  · split at hb'
    · cases hb; cases hb'; exact h
    · cases hb'
  · cases hb

end ReferenceCounts
end TileAtlas
