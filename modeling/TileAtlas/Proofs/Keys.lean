import TileAtlas.Index.References
import TileAtlas.Index.Tiles
import TileAtlas.Proofs.Bytes
import TileAtlas.Proofs.Store.Rows
/-!
# Keys of elements and tiles

An identifier and a tile are words of sixty-four bits, and their keys are these words: equal keys name
the same thing, keys compare as the things they name, and eight bytes at the front of a key are read
back whatever follows.  A membership and a legacy reference are two such words, so that the keys that
begin with the first word are told apart, and sorted, by the second.
-/
namespace TileAtlas

/-! ## Words -/

namespace Bytes

theorem word_lt (a : UInt64) : a.toNat < 256 ^ 8 := by
  have := a.toNat_lt; omega

theorem word_inj {a b : UInt64} (h : ofNatBE 8 a.toNat = ofNatBE 8 b.toNat) : a = b := by
  have hn := congrArg toNatBE h
  rw [toNatBE_ofNatBE, toNatBE_ofNatBE, Nat.mod_eq_of_lt (word_lt a), Nat.mod_eq_of_lt (word_lt b)] at hn
  exact UInt64.toNat_inj.1 hn

theorem word_lt_iff {a b : UInt64} : ofNatBE 8 a.toNat < ofNatBE 8 b.toNat ↔ compare a b = .lt := by
  rw [ofNatBE_lt_iff (word_lt a) (word_lt b), ← UInt64.lt_iff_toNat_lt, Std.compare_eq_lt]

theorem ofWord_append (a : UInt64) (rest : Bytes) :
    UInt64.ofNat (toNatBE ((ofNatBE 8 a.toNat ++ rest).take 8)) = a := by
  rw [List.take_append_of_le_length (by simp), List.take_of_length_le (by simp), toNatBE_ofNatBE,
    Nat.mod_eq_of_lt (word_lt a), UInt64.ofNat_toNat]

/-- Words of one width that spell the same number are the same. -/
theorem toNatBE_inj {a b : Bytes} (hlen : a.length = b.length) (h : toNatBE a = toNatBE b) : a = b := by
  have hab := lt_iff_toNatBE_lt hlen
  have hba := lt_iff_toNatBE_lt hlen.symm
  cases hc : compare a b with
  | lt => exact absurd (hab.1 (compare_eq_lt.1 hc)) (by omega)
  | eq => exact Std.LawfulEqOrd.eq_of_compare hc
  | gt =>
    have hlt : compare b a = .lt := by rw [@Std.OrientedCmp.eq_swap _ compare, hc]; rfl
    exact absurd (hba.1 (compare_eq_lt.1 hlt)) (by omega)

theorem word_ofNat {bs : Bytes} (h : bs.length = 8) : ofNatBE 8 (UInt64.ofNat (toNatBE bs)).toNat = bs := by
  have hlt : toNatBE bs < 256 ^ 8 := h ▸ toNatBE_lt bs
  refine toNatBE_inj (by rw [length_ofNatBE, h]) ?_
  rw [toNatBE_ofNatBE, UInt64.toNat_ofNat', Nat.mod_eq_of_lt (show toNatBE bs < 2 ^ 64 from hlt), Nat.mod_eq_of_lt hlt]

theorem append_lt_append_iff : ∀ {p a b : Bytes}, p ++ a < p ++ b ↔ a < b
  | [], _, _ => Iff.rfl
  | x :: p, a, b => by
    rw [List.cons_append, List.cons_append, List.cons_lt_cons_iff, append_lt_append_iff]
    simp [UInt8.lt_irrefl]

end Bytes

/-! ## Elements -/

namespace ElementId

@[simp] theorem length_key (id : ElementId) : id.key.length = 8 := Bytes.length_ofNatBE 8 _

theorem key_inj {a b : ElementId} (h : a.key = b.key) : a = b := congrArg mk (Bytes.word_inj h)

@[simp] theorem key_eq_iff {a b : ElementId} : a.key = b.key ↔ a = b := ⟨key_inj, congrArg key⟩

theorem key_lt_iff {a b : ElementId} : a.key < b.key ↔ compare a b = .lt := Bytes.word_lt_iff

@[simp] theorem ofKey?_append (id : ElementId) (rest : Bytes) : ofKey? (id.key ++ rest) = some id := by
  rw [ofKey?, if_neg (by simp), key, Bytes.ofWord_append]

@[simp] theorem ofKey?_key (id : ElementId) : ofKey? id.key = some id := by
  have h := ofKey?_append id []
  rwa [List.append_nil] at h

theorem key_of_ofKey? {k : Bytes} {id : ElementId} (h : ofKey? k = some id) : id.key = k.take 8 := by
  unfold ofKey? at h
  split at h
  · cases h
  · cases h
    exact Bytes.word_ofNat (by rw [List.length_take]; omega)

theorem prefix_key_append_iff {a b : ElementId} {rest : Bytes} : a.key <+: b.key ++ rest ↔ a = b := by
  constructor
  · intro h
    have h' := List.prefix_of_prefix_length_le h (List.prefix_append b.key rest) (by simp)
    exact key_inj (List.IsPrefix.eq_of_length h' (by simp))
  · rintro rfl; exact List.prefix_append _ _

end ElementId

@[simp] theorem Column.elementOf_key (c : Column) (id : ElementId) : c.elementOf id.key = .ok id := by
  rw [elementOf, ElementId.ofKey?_key]

/-! ## Tiles -/

namespace TilePosition

@[simp] theorem length_key (t : TilePosition) : t.key.length = 8 := Bytes.length_ofNatBE 8 _

theorem key_inj {a b : TilePosition} (h : a.key = b.key) : a = b := congrArg mk (Bytes.word_inj h)

theorem key_lt_iff {a b : TilePosition} : a.key < b.key ↔ compare a b = .lt := Bytes.word_lt_iff

@[simp] theorem ofKey?_append (t : TilePosition) (rest : Bytes) : ofKey? (t.key ++ rest) = some t := by
  rw [ofKey?, if_neg (by simp), key, Bytes.ofWord_append]

theorem key_of_ofKey? {k : Bytes} {t : TilePosition} (h : ofKey? k = some t) : t.key = k.take 8 := by
  unfold ofKey? at h
  split at h
  · cases h
  · cases h
    exact Bytes.word_ofNat (by rw [List.length_take]; omega)

theorem prefix_key_append_iff {a b : TilePosition} {rest : Bytes} : a.key <+: b.key ++ rest ↔ a = b := by
  constructor
  · intro h
    have h' := List.prefix_of_prefix_length_le h (List.prefix_append b.key rest) (by simp)
    exact key_inj (List.IsPrefix.eq_of_length h' (by simp))
  · rintro rfl; exact List.prefix_append _ _

end TilePosition

@[simp] theorem Column.tileOf_key (c : Column) (t : TilePosition) : c.tileOf t.key = .ok t := by
  have h := TilePosition.ofKey?_append t []
  rw [List.append_nil] at h
  rw [tileOf, h]

/-! ## Keys of two words -/

theorem Membership.key_inj {a b : Membership} (h : a.key = b.key) : a = b := by
  obtain ⟨ht, hid⟩ := List.append_inj h (by simp)
  cases a; cases b
  rw [mk.injEq]
  exact ⟨TilePosition.key_inj ht, ElementId.key_inj hid⟩

theorem Membership.key_eq_iff {t u : TilePosition} {a b : ElementId} :
    key ⟨t, a⟩ = key ⟨u, b⟩ ↔ t = u ∧ a = b := by
  constructor
  · intro h
    have := key_inj h
    rwa [mk.injEq] at this
  · rintro ⟨rfl, rfl⟩; rfl

/-- **The keys that name memberships are those of memberships.** -/
theorem Membership.ofKey_eq_ok {k : Bytes} {m : Membership} : ofKey k = .ok m ↔ k = m.key := by
  constructor
  · intro h
    unfold ofKey at h
    split at h
    · cases h
    · rename_i hlen
      cases ht : TilePosition.ofKey? (k.take 8) with
      | none => simp [Column.tileOf, ht, bind, Except.bind] at h
      | some t =>
        cases hid : ElementId.ofKey? (k.drop 8) with
        | none => simp [Column.tileOf, Column.elementOf, ht, hid, bind, Except.bind] at h
        | some id =>
          simp only [Column.tileOf, Column.elementOf, ht, hid, bind, Except.bind, pure, Except.pure,
            Except.ok.injEq] at h
          have hlen' : k.length = 16 := by omega
          have htile := TilePosition.key_of_ofKey? ht
          have helement := ElementId.key_of_ofKey? hid
          rw [List.take_of_length_le (by rw [List.length_take]; omega)] at htile
          rw [List.take_of_length_le (by rw [List.length_drop]; omega)] at helement
          rw [← h, key, htile, helement, List.take_append_drop]
  · rintro rfl
    have hdrop : (key m).drop 8 = m.id.key := List.drop_left' (by simp)
    have htake : (key m).take 8 = m.tile.key := List.take_left' (by simp)
    have hlen : ¬ (key m).length ≠ 16 := by simp [key]
    have htile : Column.tiles.tileOf m.tile.key = .ok m.tile := Column.tileOf_key ..
    unfold ofKey
    rw [if_neg hlen, hdrop, htake]
    simp only [htile, Column.elementOf_key, bind, Except.bind, pure, Except.pure]

theorem referenceKey_inj {r s e f : ElementId} (h : referenceKey r e = referenceKey s f) : r = s ∧ e = f := by
  obtain ⟨hr, he⟩ := List.append_inj h (by simp)
  exact ⟨ElementId.key_inj hr, ElementId.key_inj he⟩

theorem drop_word {w rest : Bytes} (h : w.length = 8) : (w ++ rest).drop 8 = rest := by
  rw [← h, List.drop_left]

/-- **The rows under a word**: the rest of their keys names elements, and they are sorted by these. -/
theorem Table.scan_word (t : Table) {w : Bytes}
    (h : ∀ {k v}, t[k]? = some v → w <+: k → ∃ id : ElementId, k = w ++ id.key) :
    ∃ rows : List (ElementId × Bytes), t.scan (.beginningWith w) = rows.map (fun e => (w ++ e.1.key, e.2)) ∧
      (rows.map (·.1)).Pairwise (fun a b => compare a b = .lt) ∧
      ∀ id v, (id, v) ∈ rows ↔ t[w ++ id.key]? = some v := by
  have hrows : ∀ p ∈ t.scan (.beginningWith w), ∃ e : ElementId × Bytes, p = (w ++ e.1.key, e.2) := fun p hp => by
    obtain ⟨k, v⟩ := p
    obtain ⟨hk, hr⟩ := mem_scan.1 hp
    obtain ⟨id, rfl⟩ := h hk (KeyRange.contains_beginningWith.1 hr)
    exact ⟨(id, v), rfl⟩
  obtain ⟨rows, hrows⟩ := exists_eq_map hrows
  refine ⟨rows, hrows, ?_, fun id v => ?_⟩
  · have hasc := t.ascending_scan (.beginningWith w)
    rw [hrows, Ascending, List.pairwise_map] at hasc
    rw [List.pairwise_map]
    refine hasc.imp fun {a b} hab => ?_
    rw [Bytes.compare_eq_lt, Bytes.append_lt_append_iff] at hab
    exact ElementId.key_lt_iff.1 hab
  · have hmem : (id, v) ∈ rows ↔ (w ++ id.key, v) ∈ t.scan (.beginningWith w) := by
      rw [hrows, List.mem_map]
      constructor
      · intro he; exact ⟨(id, v), he, rfl⟩
      · rintro ⟨⟨x, u⟩, he, heq⟩
        obtain ⟨hk, rfl⟩ := Prod.mk.inj heq
        obtain rfl := ElementId.key_inj (List.append_cancel_left hk)
        exact he
    rw [hmem, mem_scan, KeyRange.contains_beginningWith]
    exact and_iff_left (List.prefix_append _ _)

end TileAtlas
