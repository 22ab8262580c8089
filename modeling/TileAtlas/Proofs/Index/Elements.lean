import Mathlib.Data.List.Basic
import TileAtlas.Index.Bookkeeping
import TileAtlas.Index.Elements
import TileAtlas.Proofs.Keys
import TileAtlas.Proofs.Record
import TileAtlas.Proofs.Store.Contents
/-!
# Records and properties as they are stored

The column of elements holds a map of records as they are written (`Records.StoredIn`), and writing a record
is an insertion.  Reading needs less: bytes that anyone may have put there, as long as each of them tells the
record of its own key (`Records.ReadIn`).  Then every record reads back, and a listing of the column is a
listing of the map.  The column of properties holds how far the index has come.
-/
namespace TileAtlas

/-- The records of elements. -/
abbrev Records := Std.ExtTreeMap ElementId Element

/-- Which elements are made of which: the first is named by the second. -/
abbrev Links := ElementId → ElementId → Prop

/-- The row of the column of elements under an identifier that has one. -/
def Contents.rowOf (s : Contents) (id : ElementId) : Pair := (id.key, (s.get .elements id.key).getD [])

/-- The elements whose records some contents list, in the order of keys. -/
def Contents.elements (s : Contents) : List Element :=
  (Columns.get s .elements).toList.filterMap fun p => (Element.decode p.2).toOption

/-- Every key of the column of elements is that of the record under it. -/
def Contents.IsKeyed (s : Contents) : Prop :=
  ∀ k v, s.get .elements k = some v → ∃ e, Element.decode v = .ok e ∧ k = e.id.key

namespace Records

/-- What every record keeps to: it stands under its own identifier, it has a record that can be counted,
and a deleted element names no others. -/
structure Valid (records : Records) : Prop where
  id_eq : ∀ {id : ElementId} {e : Element}, records[id]? = some e → e.id = id
  storable : ∀ {id : ElementId} {e : Element}, records[id]? = some e → e.IsStorable
  deleted : ∀ {id : ElementId} {e : Element}, records[id]? = some e → e.visible = false → e.body.memberIds = []

theorem valid_empty : Valid ∅ := by
  constructor <;> intro id e h <;> simp at h

theorem Valid.insert {records : Records} (h : records.Valid) {e : Element} (hs : e.IsStorable)
    (hd : e.visible = false → e.body.memberIds = []) : Valid (records.insert e.id e) := by
  have hget : ∀ {id x}, (records.insert e.id e)[id]? = some x → x = e ∧ e.id = id ∨ records[id]? = some x :=
    fun {id x} hx => by
      rw [Std.ExtTreeMap.getElem?_insert] at hx
      split at hx
      · rename_i hc; cases hx; exact .inl ⟨rfl, Std.LawfulEqOrd.eq_of_compare hc⟩
      · exact .inr hx
  constructor
  · intro id x hx
    rcases hget hx with ⟨rfl, hid⟩ | hx
    · exact hid
    · exact h.id_eq hx
  · intro id x hx
    rcases hget hx with ⟨rfl, -⟩ | hx
    · exact hs
    · exact h.storable hx
  · intro id x hx
    rcases hget hx with ⟨rfl, -⟩ | hx
    · exact hd
    · exact h.deleted hx

/-- The column of elements holds exactly these records. -/
structure StoredIn (records : Records) (s : Contents) : Prop where
  get : ∀ id : ElementId, s.get .elements id.key = (records[id]?).map Element.encode
  keys : ∀ {k v}, s.get .elements k = some v → ∃ id : ElementId, k = id.key

variable {records : Records} {s s' : Contents}

theorem StoredIn.of_column (h : records.StoredIn s) (hs : ∀ k, s'.get .elements k = s.get .elements k) :
    records.StoredIn s' where
  get id := by rw [hs, h.get]
  keys hk := h.keys (by rwa [← hs])

theorem storedIn_empty (h : ∀ k, s.get .elements k = none) : StoredIn ∅ s where
  get id := by rw [h]; simp
  keys hk := by rw [h] at hk; cases hk

theorem StoredIn.put (h : records.StoredIn s) (e : Element) :
    StoredIn (records.insert e.id e) (s.put .elements e.id.key e.encode) where
  get id := by
    rw [Contents.get_put, Std.ExtTreeMap.getElem?_insert]
    by_cases hid : id = e.id
    · subst hid; simp
    · rw [if_neg fun hk => hid (ElementId.key_inj hk.2),
        if_neg fun hc => hid (Std.LawfulEqOrd.eq_of_compare hc).symm, h.get]
  keys {k v} hk := by
    rw [Contents.get_put] at hk
    split at hk
    · rename_i heq; exact ⟨e.id, heq.2⟩
    · exact h.keys hk

/-! ## Reading -/

/-- Under the key of each element the column reads as its record. -/
structure ReadAt (records : Records) (s : Contents) : Prop where
  read : ∀ id : ElementId, Elements.readStored id (s.get .elements id.key) = .ok records[id]?

/-- The column of elements reads as exactly these records, each under its own identifier. -/
structure ReadIn (records : Records) (s : Contents) : Prop extends ReadAt records s where
  keys : ∀ {k v}, s.get .elements k = some v → ∃ id : ElementId, k = id.key
  id_eq : ∀ {id : ElementId} {e : Element}, records[id]? = some e → e.id = id

theorem ReadAt.of_column (h : records.ReadAt s) (hs : ∀ k, s'.get .elements k = s.get .elements k) :
    records.ReadAt s' := ⟨fun id => by rw [hs, h.read]⟩

theorem ReadIn.of_column (h : records.ReadIn s) (hs : ∀ k, s'.get .elements k = s.get .elements k) :
    records.ReadIn s' where
  read id := by rw [hs, h.read]
  keys hk := h.keys (by rwa [← hs])
  id_eq := h.id_eq

theorem readStored_encode {e : Element} (h : e.IsStorable) (id : ElementId) :
    Elements.readStored id (some e.encode) = .ok (some e) := by
  rw [Elements.readStored, Elements.read, Element.decode_encode h]; rfl

/-- **What is written reads back.** -/
theorem StoredIn.readIn (h : records.StoredIn s) (hv : records.Valid) : records.ReadIn s where
  read id := by
    rw [h.get]
    cases he : records[id]? with
    | none => rfl
    | some e => exact readStored_encode (hv.storable he) id
  keys := h.keys
  id_eq := hv.id_eq

theorem ReadAt.elements_get (h : records.ReadAt s) (id : ElementId) : Elements.get s.reader id = .ok records[id]? := by
  rw [Elements.get, Contents.reader_get]
  exact h.read id

theorem zip_map_self {α β : Type} (f : α → β) : ∀ l : List α, l.zip (l.map f) = l.map fun a => (a, f a)
  | [] => rfl
  | a :: l => by rw [List.map_cons, List.zip_cons_cons, zip_map_self f l, List.map_cons]

theorem ReadAt.elements_getMany (h : records.ReadAt s) (ids : List ElementId) :
    Elements.getMany s.reader ids = .ok (ids.map fun id => records[id]?) := by
  rw [Elements.getMany, Contents.reader_getMany, List.map_map]
  change (ids.zip (ids.map fun id => s.get .elements id.key)).mapM _ = _
  rw [zip_map_self]
  exact mapM_map_ok fun id _ => h.read id

/-- **Every row of the column is the record of its key.** -/
theorem ReadIn.ofPair (h : records.ReadIn s) {id : ElementId} {v : Bytes} (hk : s.get .elements id.key = some v) :
    ∃ e, Elements.ofPair (id.key, v) = .ok e ∧ records[id]? = some e := by
  have hread := h.read id
  rw [hk] at hread
  change some <$> Elements.read id v = _ at hread
  rw [Elements.ofPair, Column.elementOf_key]
  change ∃ e, Elements.read id v = .ok e ∧ _
  cases hv : Elements.read id v with
  | error e => rw [hv] at hread; cases hread
  | ok e => rw [hv] at hread; exact ⟨e, rfl, (Except.ok.inj hread).symm⟩

theorem ReadIn.exists_row (h : records.ReadIn s) {id : ElementId} {e : Element} (he : records[id]? = some e) :
    ∃ v, s.get .elements id.key = some v ∧ Elements.ofPair (id.key, v) = .ok e := by
  cases hk : s.get .elements id.key with
  | none =>
    have hread := h.read id
    rw [hk, he] at hread
    cases hread
  | some v =>
    obtain ⟨e', hpair, he'⟩ := h.ofPair hk
    exact ⟨v, rfl, by rw [hpair, Option.some.inj (he'.symm.trans he)]⟩

/-- **A listing of the column is a listing of the records.** -/
theorem ReadIn.toList_eq (h : records.ReadIn s) :
    (Columns.get s .elements).toList = records.toList.map fun r => s.rowOf r.1 := by
  refine (Ascending.toList _).eq_of_mem_iff ?_ fun k v => ?_
  · rw [Ascending, List.pairwise_map]
    exact (Ascending.toList records).imp fun hab => Bytes.compare_eq_lt.2 (ElementId.key_lt_iff.2 hab)
  · rw [Std.ExtTreeMap.mem_toList_iff_getElem?_eq_some, ← Contents.get_eq, List.mem_map]
    constructor
    · intro hk
      obtain ⟨id, rfl⟩ := h.keys hk
      obtain ⟨e, -, he⟩ := h.ofPair hk
      exact ⟨(id, e), Std.ExtTreeMap.mem_toList_iff_getElem?_eq_some.2 he, by rw [Contents.rowOf, hk]; rfl⟩
    · rintro ⟨⟨id, e⟩, hmem, heq⟩
      cases heq
      obtain ⟨v, hv, -⟩ := h.exists_row (Std.ExtTreeMap.mem_toList_iff_getElem?_eq_some.1 hmem)
      rw [hv]; rfl

theorem ReadIn.ofPair_rowOf (h : records.ReadIn s) {r : ElementId × Element} (hr : r ∈ records.toList) :
    Elements.ofPair (s.rowOf r.1) = .ok r.2 := by
  obtain ⟨v, hv, hpair⟩ := h.exists_row (Std.ExtTreeMap.mem_toList_iff_getElem?_eq_some.1 hr)
  rw [Contents.rowOf, hv]
  exact hpair

/-- The elements, by their identifiers. -/
def elements (records : Records) : List Element := records.toList.map (·.2)

theorem ReadIn.ids_elements (h : records.ReadIn s) : records.elements.map (·.id) = records.toList.map (·.1) := by
  rw [elements, List.map_map]
  exact List.map_congr_left fun r hr => h.id_eq (Std.ExtTreeMap.mem_toList_iff_getElem?_eq_some.1 hr)

theorem ReadIn.ascending_ids (h : records.ReadIn s) :
    (records.elements.map (·.id)).Pairwise fun a b => compare a b = .lt := by
  rw [h.ids_elements, List.pairwise_map]
  exact Ascending.toList records

theorem ReadIn.nodup_ids (h : records.ReadIn s) : (records.elements.map (·.id)).Nodup :=
  nodup_of_ascending h.ascending_ids

theorem ReadIn.mem_elements (h : records.ReadIn s) {e : Element} : e ∈ records.elements ↔ records[e.id]? = some e := by
  rw [elements, List.mem_map]
  constructor
  · rintro ⟨⟨id, e⟩, hmem, rfl⟩
    have hget := Std.ExtTreeMap.mem_toList_iff_getElem?_eq_some.1 hmem
    exact (h.id_eq hget).symm ▸ hget
  · intro he
    exact ⟨(e.id, e), Std.ExtTreeMap.mem_toList_iff_getElem?_eq_some.2 he, rfl⟩

theorem StoredIn.toList_eq (h : records.StoredIn s) (hv : records.Valid) :
    (Columns.get s .elements).toList = records.toList.map fun p => (p.1.key, p.2.encode) := by
  rw [(h.readIn hv).toList_eq]
  refine List.map_congr_left fun r hr => ?_
  rw [Contents.rowOf, h.get, Std.ExtTreeMap.mem_toList_iff_getElem?_eq_some.1 hr]; rfl

theorem ofPair_key_eq_ok {id : ElementId} {v : Bytes} {e : Element} :
    Elements.ofPair (id.key, v) = .ok e ↔ Element.decode v = .ok e := by
  rw [Elements.ofPair, Column.elementOf_key]
  change Elements.read id v = .ok e ↔ _
  rw [Elements.read]
  cases Element.decode v <;> simp [Except.mapError]

theorem ReadIn.elements_eq (h : records.ReadIn s) : s.elements = records.elements := by
  rw [Contents.elements, h.toList_eq, List.filterMap_map, elements, ← List.filterMap_eq_map]
  refine List.filterMap_congr fun r hr => ?_
  have hdecode : Element.decode (s.rowOf r.1).2 = .ok r.2 := ofPair_key_eq_ok.1 (h.ofPair_rowOf hr)
  simp only [Function.comp_apply, hdecode]
  rfl

/-! ## Links of the records -/

/-- What the visible records are made of. -/
def links (records : Records) : Links := fun r e =>
  ∃ x : Element, records[e]? = some x ∧ x.visible = true ∧ r ∈ x.referents

end Records

/-! ## Contents that anyone may have written -/

namespace Contents

variable {s : Contents}

theorem isKeyed_of_one {e : Element} (he : e.IsStorable)
    (hs : ∀ k, s.get .elements k = if k = e.id.key then some e.encode else none) : s.IsKeyed := fun k v hv => by
  rw [hs] at hv
  split at hv
  · cases hv
    exact ⟨e, Element.decode_encode he, ‹_›⟩
  · cases hv

theorem IsKeyed.mem_elements (h : s.IsKeyed) {e : Element} :
    e ∈ s.elements ↔ ∃ v, s.get .elements e.id.key = some v ∧ Element.decode v = .ok e := by
  have hsome : ∀ {v : Bytes}, (Element.decode v).toOption = some e ↔ Element.decode v = .ok e := fun {v} => by
    cases Element.decode v <;> simp [Except.toOption]
  rw [elements, List.mem_filterMap]
  constructor
  · rintro ⟨⟨k, v⟩, hmem, hv⟩
    have hk : s.get .elements k = some v := Std.ExtTreeMap.mem_toList_iff_getElem?_eq_some.1 hmem
    obtain ⟨e', he', rfl⟩ := h k v hk
    obtain rfl := Except.ok.inj ((hsome.1 hv).symm.trans he')
    exact ⟨v, hk, he'⟩
  · rintro ⟨v, hk, hv⟩
    exact ⟨(e.id.key, v), Std.ExtTreeMap.mem_toList_iff_getElem?_eq_some.2 hk, hsome.2 hv⟩

/-- The record in a row whose key is that of an element. -/
def recordOf? (p : Pair) : Option (ElementId × Element) :=
  match ElementId.ofKey? p.1, Element.decode p.2 with
  | some id, .ok e => if id.key = p.1 then some (id, e) else none
  | _, _ => none

theorem recordOf?_eq_some {p : Pair} {id : ElementId} {e : Element} :
    recordOf? p = some (id, e) ↔ p.1 = id.key ∧ Element.decode p.2 = .ok e := by
  unfold recordOf?
  constructor
  · intro h
    split at h
    · rename_i hdecode
      split at h
      · rename_i hkey
        cases h
        exact ⟨hkey.symm, hdecode⟩
      · cases h
    · cases h
  · rintro ⟨hkey, hdecode⟩
    rw [hkey, hdecode, ElementId.ofKey?_key]
    exact if_pos rfl

/-- The records that stand under the keys of elements. -/
def records (s : Contents) : Records := .ofList ((Columns.get s .elements).toList.filterMap recordOf?)

theorem getElem?_records {id : ElementId} {e : Element} :
    s.records[id]? = some e ↔ ∃ v, s.get .elements id.key = some v ∧ Element.decode v = .ok e := by
  have hasc : Ascending ((Columns.get s .elements).toList.filterMap recordOf?) := by
    rw [Ascending, List.pairwise_filterMap]
    refine (Ascending.toList _).imp fun {p q} hlt r hr r' hr' => ?_
    rw [(recordOf?_eq_some.1 hr).1, (recordOf?_eq_some.1 hr').1, Bytes.compare_eq_lt] at hlt
    exact ElementId.key_lt_iff.1 hlt
  rw [records, hasc.getElem?_ofList, List.mem_filterMap]
  constructor
  · rintro ⟨⟨k, v⟩, hmem, hrow⟩
    obtain ⟨rfl, hdecode⟩ := recordOf?_eq_some.1 hrow
    exact ⟨v, Std.ExtTreeMap.mem_toList_iff_getElem?_eq_some.1 hmem, hdecode⟩
  · rintro ⟨v, hk, hdecode⟩
    exact ⟨(id.key, v), Std.ExtTreeMap.mem_toList_iff_getElem?_eq_some.2 hk, recordOf?_eq_some.2 ⟨rfl, hdecode⟩⟩

/-- **Where every element can be read, these are the records that are read.** -/
theorem readAt_records (h : ∀ id : ElementId, ∃ o, Elements.readStored id (s.get .elements id.key) = .ok o) :
    s.records.ReadAt s := by
  refine ⟨fun id => ?_⟩
  obtain ⟨o, ho⟩ := h id
  rw [ho]
  refine congrArg Except.ok (Option.ext fun e => ?_)
  rw [getElem?_records]
  cases hk : s.get .elements id.key with
  | none =>
    rw [hk] at ho
    cases ho
    simp
  | some v =>
    rw [hk, Elements.readStored, Elements.read] at ho
    cases hdecode : Element.decode v with
    | error x => rw [hdecode] at ho; cases ho
    | ok x =>
      rw [hdecode] at ho
      cases ho
      simp [hdecode]

/-- **Contents whose keys are those of their records read as records.** -/
theorem IsKeyed.exists_readIn (h : s.IsKeyed) : ∃ records : Records, records.ReadIn s := by
  have hread : ∀ id : ElementId, ∃ o, Elements.readStored id (s.get .elements id.key) = .ok o := fun id => by
    cases hk : s.get .elements id.key with
    | none => exact ⟨none, rfl⟩
    | some v =>
      obtain ⟨e, he, -⟩ := h _ v hk
      exact ⟨some e, by rw [Elements.readStored, Elements.read, he]; rfl⟩
  refine ⟨s.records, ⟨readAt_records hread, fun hk => ?_, fun {id e} he => ?_⟩⟩
  · obtain ⟨e, -, rfl⟩ := h _ _ hk
    exact ⟨e.id, rfl⟩
  · obtain ⟨v, hk, hdecode⟩ := getElem?_records.1 he
    obtain ⟨e', he', hkey⟩ := h _ v hk
    obtain rfl := Except.ok.inj (hdecode.symm.trans he')
    exact (ElementId.key_inj hkey).symm

end Contents

/-! ## Referents -/

theorem Element.mem_referents {e : Element} {r : ElementId} : r ∈ e.referents ↔ r ∈ e.body.memberIds := by
  rw [referents, Std.ExtTreeSet.mem_toList, Std.ExtTreeSet.mem_ofList, List.contains_iff_mem]

theorem Element.nodup_referents (e : Element) : e.referents.Nodup :=
  nodup_of_ascending Std.ExtTreeSet.ordered_toList

theorem Element.referents_eq_nil {e : Element} (h : e.body.memberIds = []) : e.referents = [] :=
  List.eq_nil_iff_forall_not_mem.2 fun r hr => by rw [mem_referents, h] at hr; cases hr

/-! ## How far the index has come -/

namespace ReplicationState

/-- The column of properties tells this state. -/
structure StoredIn (state : ReplicationState) (s : Contents) : Prop where
  sequence : s.get .properties sequenceKey = state.sequence.map fun n => Bytes.ofNatBE 8 n.toNat
  timestamp : s.get .properties timestampKey = state.timestamp.map fun t => Bytes.ofNatBE 8 t.toUInt64.toNat

theorem sequenceKey_ne_timestampKey : sequenceKey ≠ timestampKey := fun h => by
  have hs := congrArg Bytes.toString? h
  rw [sequenceKey, timestampKey, Bytes.toString?_ofString, Bytes.toString?_ofString] at hs
  exact absurd (Option.some.inj hs) (by decide)

theorem readWord_word (n : UInt64) : readWord (some (Bytes.ofNatBE 8 n.toNat)) = .ok (some n) := by
  have h := Bytes.ofWord_append n []
  rw [List.append_nil, List.take_of_length_le (by simp)] at h
  simp [readWord, h]

variable {state : ReplicationState} {s s' : Contents}

theorem StoredIn.read (h : state.StoredIn s) : ReplicationState.read s.reader = .ok state := by
  have hseq : readWord (s.get .properties sequenceKey) = .ok state.sequence := by
    rw [h.sequence]
    cases state.sequence with
    | none => rfl
    | some n => exact readWord_word n
  have htime : readWord (s.get .properties timestampKey) = .ok (state.timestamp.map (·.toUInt64)) := by
    rw [h.timestamp]
    cases state.timestamp with
    | none => rfl
    | some t => exact readWord_word t.toUInt64
  rw [ReplicationState.read, Contents.reader_get, Contents.reader_get]
  simp only [asking, mapError_ok, bind, Except.bind, hseq, htime]
  obtain ⟨sequence, timestamp⟩ := state
  cases timestamp <;> simp [pure, Except.pure]

theorem StoredIn.of_column (h : state.StoredIn s) (hs : ∀ k, s'.get .properties k = s.get .properties k) :
    state.StoredIn s' where
  sequence := by rw [hs, h.sequence]
  timestamp := by rw [hs, h.timestamp]

theorem storedIn_empty (h : ∀ k, s.get .properties k = none) : StoredIn ⟨none, none⟩ s where
  sequence := h _
  timestamp := h _

theorem StoredIn.setSequence (h : state.StoredIn s) (n : UInt64) :
    StoredIn { state with sequence := some n } (s.put .properties sequenceKey (Bytes.ofNatBE 8 n.toNat)) where
  sequence := by rw [Contents.get_put]; simp
  timestamp := by
    rw [Contents.get_put, if_neg fun hk => sequenceKey_ne_timestampKey hk.2.symm, h.timestamp]

theorem StoredIn.setTimestamp (h : state.StoredIn s) (t : Int64) :
    StoredIn { state with timestamp := some t }
      (s.put .properties timestampKey (Bytes.ofNatBE 8 t.toUInt64.toNat)) where
  sequence := by
    rw [Contents.get_put, if_neg fun hk => sequenceKey_ne_timestampKey hk.2, h.sequence]
  timestamp := by rw [Contents.get_put]; simp

end ReplicationState
end TileAtlas
