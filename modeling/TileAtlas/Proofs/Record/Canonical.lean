import Mathlib.Control.Monad.Basic
import TileAtlas.Proofs.Record
/-!
# One spelling for each value

A format is canonical (`Format.Canonical`) when it reads a value from the bytes that it writes of it and from no
others.  Formats that are built from canonical ones are canonical, and so is every format of the library but that of
tags, which reads its entries in any order, and of entries with one key keeps the last (`GathersTo`).

So bytes that read as an element or a feature are its record with the tags spelled out in some order, and whatever
follows; where the keys ascend they begin with the record itself (`records_canonical`).
-/
namespace TileAtlas

namespace Format

variable {α β : Type}

/-! ## Canonical formats -/

/-- A value is read from the bytes that are written of it, whatever follows, and from no others. -/
structure Canonical (f : Format α) : Prop where
  eq_write : ∀ {bs a rest}, f.read bs = .ok (a, rest) → bs = f.write a ++ rest
  returns : ∀ {bs a rest}, f.read bs = .ok (a, rest) → f.Returns a

theorem exists_of_andThen {r : ReadResult α} {next : α → Bytes → ReadResult β} {b : β} {rest : Bytes}
    (h : r.andThen next = .ok (b, rest)) : ∃ a mid, r = .ok (a, mid) ∧ next a mid = .ok (b, rest) := by
  cases r with
  | error fault => cases h
  | ok found => exact ⟨found.1, found.2, rfl, h⟩

theorem takeBytes_eq_ok : ∀ {n : Nat} {bs ws rest : Bytes}, takeBytes n bs = .ok (ws, rest) →
    ws.length = n ∧ bs = ws ++ rest
  | 0, _, _, _, h => by cases h; exact ⟨rfl, rfl⟩
  | n + 1, [], _, _, h => by cases h
  | n + 1, b :: bs, _, _, h => by
    obtain ⟨ws, mid, hread, hend⟩ := exists_of_andThen h
    obtain ⟨hlen, hbs⟩ := takeBytes_eq_ok hread
    cases hend
    exact ⟨congrArg (· + 1) hlen, congrArg (b :: ·) hbs⟩

theorem word_eq_ok {width n : Nat} {bs rest : Bytes} (h : (word width).read bs = .ok (n, rest)) :
    n < 256 ^ width ∧ bs = (word width).write n ++ rest := by
  obtain ⟨ws, mid, hread, hend⟩ := exists_of_andThen h
  obtain ⟨hlen, hbs⟩ := takeBytes_eq_ok hread
  cases hend
  have hlt := Bytes.toNatLE_lt ws
  have hwrite := Bytes.ofNatLE_toNatLE ws
  rw [hlen] at hlt hwrite
  exact ⟨hlt, hbs.trans (congrArg (· ++ rest) hwrite.symm)⟩

theorem word_canonical (width : Nat) : (word width).Canonical where
  eq_write h := (word_eq_ok h).2
  returns h := word_returns (word_eq_ok h).1

theorem via_eq_ok {f : Format α} {pack : α → β} {unpack : β → α} {b : β} {bs rest : Bytes}
    (h : (f.via pack unpack).read bs = .ok (b, rest)) : ∃ a, f.read bs = .ok (a, rest) ∧ b = pack a := by
  obtain ⟨a, mid, hread, hend⟩ := exists_of_andThen h
  cases hend
  exact ⟨a, hread, rfl⟩

theorem via_canonical {f : Format α} {pack : α → β} {unpack : β → α} (hf : f.Canonical)
    (hpack : ∀ {bs a rest}, f.read bs = .ok (a, rest) → unpack (pack a) = a) : (f.via pack unpack).Canonical where
  eq_write h := by
    obtain ⟨a, hread, rfl⟩ := via_eq_ok h
    simp only [via, hpack hread]
    exact hf.eq_write hread
  returns h := by
    obtain ⟨a, hread, rfl⟩ := via_eq_ok h
    have ha := hpack hread
    exact via_returns (by rw [ha]; exact hf.returns hread) (congrArg pack ha)

theorem pair_eq_ok {f : Format α} {g : Format β} {ab : α × β} {bs rest : Bytes}
    (h : (f.pair g).read bs = .ok (ab, rest)) : ∃ mid, f.read bs = .ok (ab.1, mid) ∧ g.read mid = .ok (ab.2, rest) := by
  obtain ⟨a, mid, ha, hnext⟩ := exists_of_andThen h
  obtain ⟨b, last, hb, hend⟩ := exists_of_andThen hnext
  cases hend
  exact ⟨mid, ha, hb⟩

theorem pair_ok {f : Format α} {g : Format β} {a : α} {b : β} {bs mid rest : Bytes} (ha : f.read bs = .ok (a, mid))
    (hb : g.read mid = .ok (b, rest)) : (f.pair g).read bs = .ok ((a, b), rest) := by
  simp only [pair, ha, hb, ReadResult.andThen]

theorem pair_canonical {f : Format α} {g : Format β} (hf : f.Canonical) (hg : g.Canonical) : (f.pair g).Canonical where
  eq_write h := by
    obtain ⟨mid, ha, hb⟩ := pair_eq_ok h
    rw [hf.eq_write ha, hg.eq_write hb, pair, List.append_assoc]
  returns h := by
    obtain ⟨mid, ha, hb⟩ := pair_eq_ok h
    exact pair_returns (hf.returns ha) (hg.returns hb)

/-- Every byte but 0 and 1 is refused. -/
theorem bit_canonical (fault : RecordFault) : (bit fault).Canonical where
  eq_write {bs a rest} h := by
    cases bs with
    | nil => cases h
    | cons m bs =>
      simp only [bit] at h ⊢
      split at h
      · rename_i hm; cases h; rw [hm]; rfl
      · split at h
        · rename_i hm; cases h; rw [hm]; rfl
        · cases h
  returns _ := bit_returns fault _

theorem option_eq_ok {f : Format α} {o : Option α} {bs rest : Bytes} (h : f.option.read bs = .ok (o, rest)) :
    ∃ mid, bs = (bit .optionMark).write o.isSome ++ mid ∧
      match o with
      | none => mid = rest
      | some a => f.read mid = .ok (a, rest) := by
  obtain ⟨there, mid, hbit, hnext⟩ := exists_of_andThen h
  have hbs := (bit_canonical .optionMark).eq_write hbit
  cases there with
  | false => cases hnext; exact ⟨_, hbs, rfl⟩
  | true =>
    obtain ⟨a, last, ha, hend⟩ := exists_of_andThen hnext
    cases hend
    exact ⟨mid, hbs, ha⟩

theorem option_canonical {f : Format α} (hf : f.Canonical) : f.option.Canonical where
  eq_write {bs o rest} h := by
    obtain ⟨mid, rfl, hrest⟩ := option_eq_ok h
    cases o with
    | none => rw [hrest]; rfl
    | some a => rw [hf.eq_write hrest, option, List.append_assoc]; rfl
  returns {bs o rest} h := by
    obtain ⟨mid, -, hrest⟩ := option_eq_ok h
    refine option_returns fun a ha => ?_
    subst ha
    exact hf.returns hrest

theorem readItems_eq_ok {f : Format α} (hf : f.Canonical) : ∀ {n : Nat} {bs : Bytes} {as : List α} {rest : Bytes},
    readItems f n bs = .ok (as, rest) → as.length = n ∧ bs = as.flatMap f.write ++ rest ∧ ∀ a ∈ as, f.Returns a
  | 0, _, _, _, h => by cases h; exact ⟨rfl, rfl, nofun⟩
  | n + 1, bs, _, _, h => by
    obtain ⟨a, mid, ha, hnext⟩ := exists_of_andThen h
    obtain ⟨as, last, has, hend⟩ := exists_of_andThen hnext
    cases hend
    obtain ⟨hlen, hmid, hreturns⟩ := readItems_eq_ok hf has
    refine ⟨congrArg (· + 1) hlen, ?_, fun x hx => ?_⟩
    · rw [hf.eq_write ha, hmid, List.flatMap_cons, List.append_assoc]
    · rcases List.mem_cons.1 hx with rfl | hx
      · exact hf.returns ha
      · exact hreturns x hx

theorem list_eq_ok {f : Format α} (hf : f.Canonical) {as : List α} {bs rest : Bytes}
    (h : f.list.read bs = .ok (as, rest)) :
    as.length < UInt64.size ∧ bs = f.list.write as ++ rest ∧ ∀ a ∈ as, f.Returns a := by
  obtain ⟨n, mid, hn, hitems⟩ := exists_of_andThen h
  obtain ⟨hlt, hbs⟩ := word_eq_ok hn
  obtain ⟨rfl, hmid, hreturns⟩ := readItems_eq_ok hf hitems
  exact ⟨hlt, by rw [hbs, hmid, list, List.append_assoc], hreturns⟩

theorem list_canonical {f : Format α} (hf : f.Canonical) : f.list.Canonical where
  eq_write h := (list_eq_ok hf h).2.1
  returns h := list_returns (list_eq_ok hf h).1 (list_eq_ok hf h).2.2

end Format

theorem Bytes.ofString_of_toString? {bs : Bytes} {s : String} (h : bs.toString? = some s) : Bytes.ofString s = bs := by
  rw [toString?, String.fromUTF8?] at h
  split at h
  · cases h
    rw [ofString, ByteArray.toList, ByteArray.toList_loop]
    simp [String.fromUTF8]
  · cases h

namespace Format

variable {α β : Type}

/-- A text has no other bytes than its own. -/
theorem string_eq_ok {s : String} {bs rest : Bytes} (h : string.read bs = .ok (s, rest)) :
    (Bytes.ofString s).length < UInt64.size ∧ bs = string.write s ++ rest := by
  obtain ⟨n, mid, hn, hnext⟩ := exists_of_andThen h
  obtain ⟨hlt, hbs⟩ := word_eq_ok hn
  obtain ⟨text, last, htext, hend⟩ := exists_of_andThen hnext
  obtain ⟨rfl, hmid⟩ := takeBytes_eq_ok htext
  split at hend
  · rename_i hs
    cases hend
    obtain rfl := Bytes.ofString_of_toString? hs
    exact ⟨hlt, by rw [hbs, hmid, string, List.append_assoc]⟩
  · cases hend

theorem string_canonical : string.Canonical where
  eq_write h := (string_eq_ok h).2
  returns h := string_returns (string_eq_ok h).1

/-- A case of a choice: it is canonical, and what it reads has its number. -/
structure CaseOf (number : α → Nat) (n : Nat) (f : Format α) : Prop where
  canonical : f.Canonical
  number_eq : ∀ {bs a rest}, f.read bs = .ok (a, rest) → number a = n

theorem CaseOf.via {number : β → Nat} {n : Nat} {f : Format α} {pack : α → β} {unpack : β → α} (hf : f.Canonical)
    (hpack : ∀ a, unpack (pack a) = a) (hnumber : ∀ a, number (pack a) = n) :
    CaseOf number n (f.via pack unpack) where
  canonical := via_canonical hf fun _ => hpack _
  number_eq h := by
    obtain ⟨a, -, rfl⟩ := via_eq_ok h
    exact hnumber a

theorem choice_canonical {number : α → Nat} {case : Nat → Option (Format α)}
    (hcase : ∀ n f, case n = some f → CaseOf number n f) : (choice number case).Canonical := by
  have hread : ∀ {bs a rest}, (choice number case).read bs = .ok (a, rest) → ∃ f mid, case (number a) = some f ∧
      CaseOf number (number a) f ∧ number a < 256 ^ 4 ∧ bs = (word 4).write (number a) ++ mid ∧
      f.read mid = .ok (a, rest) := by
    intro bs a rest h
    obtain ⟨n, mid, hn, hnext⟩ := exists_of_andThen h
    obtain ⟨hlt, hbs⟩ := word_eq_ok hn
    split at hnext
    · rename_i f hf
      obtain rfl := (hcase n f hf).number_eq hnext
      exact ⟨f, mid, hf, hcase _ f hf, hlt, hbs, hnext⟩
    · cases hnext
  constructor
  · intro bs a rest h
    obtain ⟨f, mid, hf, hof, -, rfl, hmid⟩ := hread h
    simp only [choice, hf, Option.elim_some, List.append_assoc]
    rw [hof.canonical.eq_write hmid]
  · intro bs a rest h
    obtain ⟨f, mid, hf, hof, hlt, -, hmid⟩ := hread h
    exact choice_returns _ rfl hlt hf (hof.canonical.returns hmid)

/-! ## The formats of elements and features -/

theorem elementId_canonical : elementId.Canonical :=
  via_canonical (word_canonical 8) fun h => UInt64.toNat_ofNat_of_lt (word_eq_ok h).1

theorem int32_canonical : int32.Canonical :=
  via_canonical (word_canonical 4) fun h => by
    rw [UInt32.toUInt32_toInt32]
    exact UInt32.toNat_ofNat_of_lt (word_eq_ok h).1

theorem point_canonical : point.Canonical := via_canonical (pair_canonical int32_canonical int32_canonical) fun _ => rfl

theorem shape_canonical : shape.Canonical :=
  via_canonical (pair_canonical (list_canonical point_canonical) (list_canonical (list_canonical point_canonical)))
    fun _ => rfl

theorem geometry_canonical : geometry.Canonical := choice_canonical fun
  | 0, _, rfl => .via point_canonical (fun _ => rfl) fun _ => rfl
  | 1, _, rfl => .via (list_canonical point_canonical) (fun _ => rfl) fun _ => rfl
  | 2, _, rfl => .via (list_canonical point_canonical) (fun _ => rfl) fun _ => rfl
  | 3, _, rfl => .via (list_canonical shape_canonical) (fun _ => rfl) fun _ => rfl
  | _ + 4, _, h => nomatch h

theorem member_canonical : member.Canonical :=
  via_canonical (pair_canonical elementId_canonical string_canonical) fun _ => rfl

theorem elementBody_canonical : elementBody.Canonical := choice_canonical fun
  | 0, _, rfl => .via (option_canonical point_canonical) (fun _ => rfl) fun _ => rfl
  | 1, _, rfl => .via (list_canonical elementId_canonical) (fun _ => rfl) fun _ => rfl
  | 2, _, rfl => .via (list_canonical member_canonical) (fun _ => rfl) fun _ => rfl
  | 3, _, rfl => .via (option_canonical geometry_canonical) (fun _ => rfl) fun _ => rfl
  | _ + 4, _, h => nomatch h

end Format

/-! ## Entries with one key -/

/-- What entries gather to: of entries with one key the last one counts. -/
def GathersTo (entries : List (String × String)) (ts : Tags) : Prop :=
  ∀ k v, ts[k]? = some v ↔ ∃ before after, entries = before ++ (k, v) :: after ∧ k ∉ after.map (·.1)

theorem getElem?_insertMany : ∀ {entries : List (String × String)} {ts : Tags} {k v : String},
    (ts.insertMany entries)[k]? = some v ↔
      (∃ before after, entries = before ++ (k, v) :: after ∧ k ∉ after.map (·.1)) ∨
      k ∉ entries.map (·.1) ∧ ts[k]? = some v
  | [], ts, k, v => by simp
  | (k', v') :: entries, ts, k, v => by
    rw [Std.ExtTreeMap.insertMany_cons, getElem?_insertMany, Std.ExtTreeMap.getElem?_insert]
    simp only [Std.compare_eq_iff_eq, List.map_cons, List.mem_cons, not_or]
    constructor
    · rintro (⟨before, after, rfl, hk⟩ | ⟨hk, hv⟩)
      · exact .inl ⟨(k', v') :: before, after, rfl, hk⟩
      · by_cases hkk : k' = k
        · rw [if_pos hkk] at hv
          cases hv
          exact .inl ⟨[], entries, by rw [hkk]; rfl, hk⟩
        · rw [if_neg hkk] at hv
          exact .inr ⟨⟨Ne.symm hkk, hk⟩, hv⟩
    · rintro (⟨before, after, heq, hk⟩ | ⟨⟨hkk, hk⟩, hv⟩)
      · cases before with
        | nil => cases heq; exact .inr ⟨hk, if_pos rfl⟩
        | cons e before => cases heq; exact .inl ⟨before, after, rfl, hk⟩
      · exact .inr ⟨hk, by rw [if_neg (Ne.symm hkk), hv]⟩

theorem gathersTo_ofList (entries : List (String × String)) : GathersTo entries (.ofList entries) := fun k v => by
  rw [Std.ExtTreeMap.ofList_eq_insertMany_empty, getElem?_insertMany]
  simp

/-! ## Records with their tags spelled out -/

namespace Format

variable {β : Type}

/-- Tags in the order in which they stand, keys that come again included. -/
def tagEntries : Format (List (String × String)) := list (string.pair string)

theorem tagEntries_canonical : tagEntries.Canonical := list_canonical (pair_canonical string_canonical string_canonical)

theorem tags_returns {entries : List (String × String)} {bs rest : Bytes}
    (h : tagEntries.read bs = .ok (entries, rest)) : tags.Returns (.ofList entries) := by
  obtain ⟨hcount, -, hreturns⟩ := list_eq_ok (pair_canonical string_canonical string_canonical) h
  refine via_returns (list_returns ?_ fun t ht => hreturns t ?_) (ofList_toList _)
  · rw [Std.ExtTreeMap.length_toList]
    exact Nat.lt_of_le_of_lt Std.ExtTreeMap.size_ofList_le hcount
  · have hget := Std.ExtTreeMap.mem_toList_iff_getElem?_eq_some.1 ht
    obtain ⟨before, after, rfl, -⟩ := (gathersTo_ofList entries t.1 t.2).1 hget
    simp

/-- Tags are entries that were gathered. -/
theorem tagged_eq_ok {g : Format β} {ts : Tags} {b : β} {bs rest : Bytes}
    (h : (tags.pair g).read bs = .ok ((ts, b), rest)) : ∃ entries,
      (tagEntries.pair g).read bs = .ok ((entries, b), rest) ∧ ts = .ofList entries ∧ tags.Returns ts := by
  obtain ⟨mid, hts, hb⟩ := pair_eq_ok h
  obtain ⟨entries, hentries, rfl⟩ := via_eq_ok hts
  exact ⟨entries, pair_ok hentries hb, rfl, tags_returns hentries⟩

/-- An element as its record spells it. -/
def elementSpelling : Format (ElementId × Nat × Bool × List (String × String) × ElementBody) :=
  elementId.pair ((word 4).pair (bool.pair (tagEntries.pair elementBody)))

theorem elementSpelling_canonical : elementSpelling.Canonical :=
  pair_canonical elementId_canonical (pair_canonical (word_canonical 4) (pair_canonical (bit_canonical .flag)
    (pair_canonical tagEntries_canonical elementBody_canonical)))

theorem element_eq_ok {e : Element} {bs rest : Bytes} (h : element.read bs = .ok (e, rest)) : ∃ entries,
    elementSpelling.read bs = .ok ((e.id, e.version.toNat, e.visible, entries, e.body), rest) ∧
      e.tags = .ofList entries ∧ element.Returns e := by
  obtain ⟨⟨id, version, visible, ts, body⟩, hread, rfl⟩ := via_eq_ok h
  obtain ⟨afterId, hid, hread⟩ := pair_eq_ok hread
  obtain ⟨afterVersion, hversion, hread⟩ := pair_eq_ok hread
  obtain ⟨afterVisible, hvisible, hread⟩ := pair_eq_ok hread
  obtain ⟨entries, hentries, hts, htags⟩ := tagged_eq_ok hread
  obtain ⟨afterTags, -, hbody⟩ := pair_eq_ok hread
  have hword : (UInt32.ofNat version).toNat = version := UInt32.toNat_ofNat_of_lt (word_eq_ok hversion).1
  refine ⟨entries, ?_, hts, via_returns ?_ (by rw [hword])⟩
  · rw [hword]
    exact pair_ok hid (pair_ok hversion (pair_ok hvisible hentries))
  · rw [hword]
    exact pair_returns (elementId_canonical.returns hid) (pair_returns ((word_canonical 4).returns hversion)
      (pair_returns ((bit_canonical .flag).returns hvisible)
        (pair_returns htags (elementBody_canonical.returns hbody))))

/-- A feature as its record spells it. -/
def featureSpelling : Format (ElementId × List (String × String) × Geometry) :=
  elementId.pair (tagEntries.pair geometry)

theorem featureSpelling_canonical : featureSpelling.Canonical :=
  pair_canonical elementId_canonical (pair_canonical tagEntries_canonical geometry_canonical)

theorem feature_eq_ok {f : Feature} {bs rest : Bytes} (h : Feature.format.read bs = .ok (f, rest)) : ∃ entries,
    featureSpelling.read bs = .ok ((f.id, entries, f.geometry), rest) ∧ f.tags = .ofList entries ∧
      Feature.format.Returns f := by
  obtain ⟨⟨id, ts, g⟩, hread, rfl⟩ := via_eq_ok h
  obtain ⟨afterId, hid, hread⟩ := pair_eq_ok hread
  obtain ⟨entries, hentries, hts, htags⟩ := tagged_eq_ok hread
  obtain ⟨afterTags, -, hg⟩ := pair_eq_ok hread
  exact ⟨entries, pair_ok hid hentries, hts,
    via_returns (pair_returns (elementId_canonical.returns hid) (pair_returns htags (geometry_canonical.returns hg))) rfl⟩

theorem Returns.decodeRecord {α : Type} {f : Format α} {a : α} (h : f.Returns a) (what : RecordType) :
    f.decodeRecord what (f.encodeRecord a) = .ok a := by
  have hread := h []
  rw [List.append_nil] at hread
  simp [encodeRecord, Format.decodeRecord, hread]

theorem decodeRecord_eq_ok {α : Type} {f : Format α} {what : RecordType} {b : Bytes} {a : α}
    (h : f.decodeRecord what b = .ok a) : ∃ bs rest, b = recordVersion :: bs ∧ f.read bs = .ok (a, rest) := by
  cases b with
  | nil => cases h
  | cons v bs =>
    simp only [decodeRecord, ne_eq, ite_not] at h
    split at h
    · rename_i hv
      split at h
      · rename_i rest hread
        cases h
        exact ⟨bs, rest, by rw [hv], hread⟩
      · cases h
    · cases h

theorem decodeRecord_ok {α : Type} {f : Format α} {a : α} {bs rest : Bytes} (h : f.read bs = .ok (a, rest))
    (what : RecordType) : f.decodeRecord what (recordVersion :: bs) = .ok a := by
  simp [decodeRecord, h]

theorem Canonical.encodeRecord_prefix {α : Type} {f : Format α} (hf : f.Canonical) {a : α} {bs rest : Bytes}
    (h : f.read bs = .ok (a, rest)) : f.encodeRecord a <+: recordVersion :: bs := by
  rw [hf.eq_write h, encodeRecord]
  exact List.prefix_append (recordVersion :: f.write a) rest

end Format

namespace Element

/-- The record of an element, its tags spelled out as entries. -/
def spelled (e : Element) (entries : List (String × String)) : Bytes :=
  Format.elementSpelling.encodeRecord (e.id, e.version.toNat, e.visible, entries, e.body)

/-- The entries of tags in the record of an element, as they stand there. -/
def tagEntries? (b : Bytes) : Option (List (String × String)) :=
  (Format.elementSpelling.decodeRecord .element b).toOption.map fun x => x.2.2.2.1

end Element

namespace Feature

/-- The record of a feature, its tags spelled out as entries. -/
def spelled (f : Feature) (entries : List (String × String)) : Bytes :=
  Format.featureSpelling.encodeRecord (f.id, entries, f.geometry)

/-- The entries of tags in the record of a feature, as they stand there. -/
def tagEntries? (b : Bytes) : Option (List (String × String)) :=
  (Format.featureSpelling.decodeRecord .feature b).toOption.map fun x => x.2.1

end Feature

/-- Entries that ascend are the tags in the order in which they are written. -/
theorem prefix_of_ascending {entries : List (String × String)} (spelled : List (String × String) → Bytes) {b : Bytes}
    (h : spelled entries <+: b) (hasc : Ascending entries) :
    spelled (Std.ExtTreeMap.ofList entries : Tags).toList <+: b := by
  rwa [hasc.toList_ofList]

/-- **Bytes that read as an element or a feature are its record, but for the order of the tags and what follows.**  They
begin with the record in which the tags are spelled out as they stand in them, and of tags with one key the last one
counts.  Where the keys ascend this is the record itself.  In any case the record reads as the same. -/
theorem records_canonical :
    (∀ (b : Bytes) (e : Element), Element.decode b = .ok e →
      Element.decode e.encode = .ok e ∧ e.encode = e.spelled e.tags.toList ∧
      ∃ entries, Element.tagEntries? b = some entries ∧ e.spelled entries <+: b ∧ GathersTo entries e.tags ∧
        (Ascending entries → e.encode <+: b)) ∧
    (∀ (b : Bytes) (f : Feature), Feature.decode b = .ok f →
      Feature.decode f.encode = .ok f ∧ f.encode = f.spelled f.tags.toList ∧
      ∃ entries, Feature.tagEntries? b = some entries ∧ f.spelled entries <+: b ∧ GathersTo entries f.tags ∧
        (Ascending entries → f.encode <+: b)) := by
  constructor
  · intro b e h
    obtain ⟨bs, rest, rfl, hread⟩ := Format.decodeRecord_eq_ok h
    obtain ⟨entries, hentries, htags, hreturns⟩ := Format.element_eq_ok hread
    have hbegins : e.spelled entries <+: recordVersion :: bs :=
      Format.elementSpelling_canonical.encodeRecord_prefix hentries
    have hencode : e.encode = e.spelled e.tags.toList := rfl
    refine ⟨hreturns.decodeRecord .element, hencode, entries, ?_, hbegins, ?_, fun hasc => ?_⟩
    · rw [Element.tagEntries?, Format.decodeRecord_ok hentries]; rfl
    · rw [htags]; exact gathersTo_ofList entries
    · rw [hencode, htags]; exact prefix_of_ascending e.spelled hbegins hasc
  · intro b f h
    obtain ⟨bs, rest, rfl, hread⟩ := Format.decodeRecord_eq_ok h
    obtain ⟨entries, hentries, htags, hreturns⟩ := Format.feature_eq_ok hread
    have hbegins : f.spelled entries <+: recordVersion :: bs :=
      Format.featureSpelling_canonical.encodeRecord_prefix hentries
    have hencode : f.encode = f.spelled f.tags.toList := rfl
    refine ⟨hreturns.decodeRecord .feature, hencode, entries, ?_, hbegins, ?_, fun hasc => ?_⟩
    · rw [Feature.tagEntries?, Format.decodeRecord_ok hentries]; rfl
    · rw [htags]; exact gathersTo_ofList entries
    · rw [hencode, htags]; exact prefix_of_ascending f.spelled hbegins hasc

/-- A way whose tags stand in no order, one of them twice, with a byte after the record; and a feature whose keys
ascend. -/
theorem records_canonical_repeated :
    let e : Element := ⟨⟨7⟩, 3, true, .ofList [("größe", "2"), ("a", "大")], .way [⟨1⟩, ⟨1⟩]⟩
    let f : Feature := ⟨⟨9⟩, .ofList [("", "x"), ("a", "")], .line [⟨0, -1⟩, ⟨5, 0⟩]⟩
    let b := e.spelled [("größe", "1"), ("a", "大"), ("größe", "2")] ++ [1]
    let b' := f.spelled [("", "x"), ("a", "")] ++ [0]
    Element.decode b = .ok e ∧ Feature.decode b' = .ok f ∧ Element.decode e.encode = .ok e ∧ f.encode <+: b' := by
  intro e f b b'
  have he : Element.decode b = .ok e := by decide +kernel
  have hf : Feature.decode b' = .ok f := by decide +kernel
  have hentries : Feature.tagEntries? b' = some [("", "x"), ("a", "")] := by decide +kernel
  refine ⟨he, hf, (records_canonical.1 b e he).1, ?_⟩
  obtain ⟨-, -, entries, hread, -, -, hasc⟩ := records_canonical.2 b' f hf
  rw [hentries] at hread
  cases hread
  exact hasc (by unfold Ascending; decide +kernel)

end TileAtlas
