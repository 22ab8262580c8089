import TileAtlas.Feature
import TileAtlas.Proofs.Bytes
import TileAtlas.Proofs.Store.Rows
/-!
# Reading back what was written

A format keeps a value when reading what was written of it gives it back and leaves what follows, and frames it
(`Format.Framed`) when, besides, no part of the bytes short of their end reads as anything: the reader asks for more.
Counts are words of eight bytes, so this holds of values whose bytes can be counted.  Formats that are built from
others frame what these do; elements and features are framed whatever they hold, so that their records need no
marks between them (`records_framed`).
-/
namespace TileAtlas

/-! ## Bytes without their end -/

namespace Bytes

/-- Some bytes, of which at least the last is missing. -/
def CutFrom (p w : Bytes) : Prop := p <+: w ∧ p ≠ w

theorem CutFrom.length_lt {p w : Bytes} (h : p.CutFrom w) : p.length < w.length :=
  Nat.lt_of_le_of_ne h.1.length_le fun hlen => h.2 (h.1.eq_of_length hlen)

/-- Two parts are cut within the first, or within the second. -/
theorem CutFrom.append {p u w : Bytes} (h : p.CutFrom (u ++ w)) : p.CutFrom u ∨ ∃ q, p = u ++ q ∧ q.CutFrom w := by
  obtain ⟨⟨rest, hrest⟩, hne⟩ := h
  rcases List.append_eq_append_iff.1 hrest with ⟨v, rfl, rfl⟩ | ⟨q, rfl, rfl⟩
  · by_cases hv : v = []
    · subst hv
      exact .inr ⟨[], by simp, List.nil_prefix, fun hnil => hne (by simp [← hnil])⟩
    · exact .inl ⟨List.prefix_append p v, fun hp => hv (List.self_eq_append_right.1 hp)⟩
  · exact .inr ⟨q, rfl, List.prefix_append q rest, fun hq => hne (congrArg (u ++ ·) hq)⟩

end Bytes

/-! ## Texts -/

theorem ByteArray.toList_loop (bs : ByteArray) (i : Nat) (r : List UInt8) :
    ByteArray.toList.loop bs i r = r.reverse ++ bs.data.toList.drop i := by
  rw [ByteArray.toList.loop]
  split
  · rename_i h
    have hget : bs.data.toList.drop i = bs.get! i :: bs.data.toList.drop (i + 1) := by
      have hi : i < bs.data.toList.length := by rw [Array.length_toList]; exact h
      rw [List.drop_eq_getElem_cons hi]
      congr 1
      rw [ByteArray.get!, Array.getElem_toList]
      exact (getElem!_pos bs.data i h).symm
    rw [toList_loop bs (i + 1), List.reverse_cons, hget, List.append_assoc]; rfl
  · rename_i h
    rw [List.drop_eq_nil_of_le (by rw [Array.length_toList]; exact Nat.le_of_not_lt h), List.append_nil]
termination_by bs.size - i

theorem Bytes.toString?_ofString (s : String) : Bytes.toString? (Bytes.ofString s) = some s := by
  have hbytes : (⟨(Bytes.ofString s).toArray⟩ : ByteArray) = s.toByteArray := by
    rw [Bytes.ofString, ByteArray.toList, ByteArray.toList_loop]
    simp
  rw [Bytes.toString?, hbytes, String.fromUTF8?, dif_pos s.isValidUTF8]; rfl

/-! ## Formats -/

namespace Format

variable {α β : Type}

/-- What was written of a value reads as that value, and leaves what follows. -/
def Returns (f : Format α) (a : α) : Prop := ∀ rest, f.read (f.write a ++ rest) = .ok (a, rest)

/-- A value returns, as long as its bytes can be counted. -/
def Keeps (f : Format α) (a : α) : Prop :=
  (f.write a).length < UInt64.size → ∀ rest, f.read (f.write a ++ rest) = .ok (a, rest)

/-- A reader of what was written of a value asks for more wherever the bytes are cut. -/
def Stops (f : Format α) (a : α) : Prop :=
  (f.write a).length < UInt64.size → ∀ p, p.CutFrom (f.write a) → f.read p = .error .eof

/-- A value is told apart from what follows it, and from what is missing of it. -/
structure Framed (f : Format α) (a : α) : Prop where
  keeps : f.Keeps a
  stops : f.Stops a

/-- Where a framed value is read first, the bytes are cut within it or behind it. -/
theorem Framed.andThen_stops {f : Format α} {a : α} (h : f.Framed a) (hlen : (f.write a).length < UInt64.size)
    {w : Bytes} {next : α → Bytes → ReadResult β} (hnext : ∀ q, q.CutFrom w → next a q = .error .eof) {p : Bytes}
    (hp : p.CutFrom (f.write a ++ w)) : (f.read p).andThen next = .error .eof := by
  rcases hp.append with hcut | ⟨q, rfl, hq⟩
  · rw [h.stops hlen p hcut]; rfl
  · rw [h.keeps hlen q]; exact hnext q hq

theorem takeBytes_append (bs rest : Bytes) : takeBytes bs.length (bs ++ rest) = .ok (bs, rest) := by
  induction bs with
  | nil => rfl
  | cons b bs ih => simp only [List.length_cons, List.cons_append, takeBytes, ih, ReadResult.andThen]

theorem takeBytes_of_lt : ∀ {n : Nat} {bs : Bytes}, bs.length < n → takeBytes n bs = .error .eof
  | n + 1, [], _ => rfl
  | n + 1, b :: bs, h => by rw [takeBytes, takeBytes_of_lt (Nat.lt_of_succ_lt_succ h)]; rfl

theorem word_returns {width n : Nat} (h : n < 256 ^ width) : (word width).Returns n := fun rest => by
  have htake := takeBytes_append (Bytes.ofNatLE width n) rest
  rw [Bytes.length_ofNatLE] at htake
  simp only [word, htake, ReadResult.andThen, Bytes.toNatLE_ofNatLE, Nat.mod_eq_of_lt h]

theorem word_framed {width n : Nat} (h : n < 256 ^ width) : (word width).Framed n where
  keeps _ := word_returns h
  stops _ p hp := by
    have hlt := hp.length_lt
    simp only [word, Bytes.length_ofNatLE] at hlt
    simp only [word, takeBytes_of_lt hlt, ReadResult.andThen]

theorem via_returns {f : Format α} {pack : α → β} {unpack : β → α} {b : β} (h : f.Returns (unpack b))
    (hb : pack (unpack b) = b) : (f.via pack unpack).Returns b := fun rest => by
  simp only [via, h rest, ReadResult.andThen, hb]

theorem via_framed {f : Format α} {pack : α → β} {unpack : β → α} {b : β} (h : f.Framed (unpack b))
    (hb : pack (unpack b) = b) : (f.via pack unpack).Framed b where
  keeps hlen := via_returns (h.keeps hlen) hb
  stops hlen p hp := by
    simp only [via] at hlen hp ⊢
    rw [h.stops hlen p hp]; rfl

theorem pair_returns {f : Format α} {g : Format β} {a : α} {b : β} (ha : f.Returns a) (hb : g.Returns b) :
    (f.pair g).Returns (a, b) := fun rest => by
  simp only [pair, List.append_assoc, ha _, hb rest, ReadResult.andThen]

theorem pair_framed {f : Format α} {g : Format β} {a : α} {b : β} (ha : f.Framed a) (hb : g.Framed b) :
    (f.pair g).Framed (a, b) where
  keeps hlen := by
    simp only [pair, List.length_append] at hlen
    exact pair_returns (ha.keeps (by omega)) (hb.keeps (by omega))
  stops hlen p hp := by
    simp only [pair, List.length_append] at hlen hp ⊢
    refine ha.andThen_stops (by omega) (fun q hq => ?_) hp
    rw [hb.stops (by omega) q hq]; rfl

theorem bit_returns (fault : RecordFault) (b : Bool) : (bit fault).Returns b := fun rest => by
  cases b <;> rfl

theorem bit_framed (fault : RecordFault) (b : Bool) : (bit fault).Framed b where
  keeps _ := bit_returns fault b
  stops _ p hp := by
    obtain rfl : p = [] := List.eq_nil_of_length_eq_zero (Nat.lt_one_iff.1 hp.length_lt)
    rfl

theorem option_returns {f : Format α} : ∀ {a : Option α}, (∀ x, a = some x → f.Returns x) → f.option.Returns a
  | none, _ => fun rest => rfl
  | some x, h => fun rest => by
    simp only [option, List.append_assoc]
    rw [bit_returns .optionMark true]
    simp only [ReadResult.andThen, if_true, h x rfl rest]

theorem option_framed {f : Format α} : ∀ {a : Option α}, (∀ x, a = some x → f.Framed x) → f.option.Framed a
  | none, _ =>
    { keeps := fun _ => option_returns nofun
      stops := fun _ p hp => by
        obtain rfl : p = [] := List.eq_nil_of_length_eq_zero (Nat.lt_one_iff.1 hp.length_lt)
        rfl }
  | some x, h =>
    { keeps := fun hlen => option_returns fun y hy => by
        obtain rfl := Option.some.inj hy
        simp only [option, List.length_append] at hlen
        exact (h x rfl).keeps (by omega)
      stops := fun hlen p hp => by
        simp only [option, List.length_append] at hlen hp ⊢
        refine (bit_framed .optionMark true).andThen_stops (by omega) (fun q hq => ?_) hp
        simp only [if_true]
        rw [(h x rfl).stops (by omega) q hq]; rfl }

theorem readItems_returns {f : Format α} : ∀ {as : List α}, (∀ a ∈ as, f.Returns a) →
    ∀ rest, readItems f as.length (as.flatMap f.write ++ rest) = .ok (as, rest)
  | [], _, rest => rfl
  | a :: as, h, rest => by
    have ih := readItems_returns (fun x hx => h x (List.mem_cons_of_mem _ hx)) rest
    simp only [List.flatMap_cons, List.append_assoc, List.length_cons, readItems, h a List.mem_cons_self _, ih,
      ReadResult.andThen]

theorem readItems_stops {f : Format α} : ∀ {as : List α}, (∀ a ∈ as, f.Framed a) →
    (as.flatMap f.write).length < UInt64.size → ∀ {p : Bytes}, p.CutFrom (as.flatMap f.write) →
    readItems f as.length p = .error .eof
  | [], _, _, p, hp => absurd hp.length_lt (Nat.not_lt_zero _)
  | a :: as, h, hlen, p, hp => by
    simp only [List.flatMap_cons, List.length_append] at hlen hp
    rw [List.length_cons, readItems]
    refine (h a List.mem_cons_self).andThen_stops (by omega) (fun q hq => ?_) hp
    rw [readItems_stops (fun x hx => h x (List.mem_cons_of_mem _ hx)) (by omega) hq]; rfl

/-- Values that take bytes are no more than their bytes. -/
theorem length_le_flatMap {f : α → Bytes} : ∀ {as : List α}, (∀ a ∈ as, 0 < (f a).length) →
    as.length ≤ (as.flatMap f).length
  | [], _ => Nat.le_refl _
  | a :: as, h => by
    have := h a List.mem_cons_self
    have := length_le_flatMap fun x hx => h x (List.mem_cons_of_mem a hx)
    simp only [List.length_cons, List.flatMap_cons, List.length_append]
    omega

theorem word8_lt {n : Nat} (h : n < UInt64.size) : n < 256 ^ 8 := h

theorem list_returns {f : Format α} {as : List α} (hcount : as.length < UInt64.size) (h : ∀ a ∈ as, f.Returns a) :
    f.list.Returns as := fun rest => by
  simp only [list, List.append_assoc]
  rw [word_returns (word8_lt hcount)]
  exact readItems_returns h rest

theorem length_le_flatMap_of_mem {f : α → Bytes} {as : List α} {a : α} (ha : a ∈ as) :
    (f a).length ≤ (as.flatMap f).length :=
  (List.sublist_flatten_of_mem (List.mem_map_of_mem ha)).length_le

theorem list_framed {f : Format α} {as : List α} (h : ∀ a ∈ as, f.Framed a)
    (hpos : ∀ a ∈ as, 0 < (f.write a).length) : f.list.Framed as where
  keeps hlen := by
    simp only [list, List.length_append] at hlen
    have hcount := length_le_flatMap hpos
    refine list_returns (by omega) fun a ha => (h a ha).keeps ?_
    have := length_le_flatMap_of_mem (f := f.write) ha
    omega
  stops hlen p hp := by
    simp only [list, List.length_append] at hlen hp ⊢
    have hcount := length_le_flatMap hpos
    refine (word_framed (word8_lt (by omega))).andThen_stops (by omega) (fun q hq => ?_) hp
    exact readItems_stops h (by omega) hq

theorem string_returns {s : String} (hlen : (Bytes.ofString s).length < UInt64.size) : string.Returns s := fun rest => by
  simp only [string, List.append_assoc]
  rw [word_returns (word8_lt hlen)]
  simp only [ReadResult.andThen, takeBytes_append, Bytes.toString?_ofString]

theorem string_framed (s : String) : string.Framed s where
  keeps hlen := by
    simp only [string, List.length_append] at hlen
    exact string_returns (by omega)
  stops hlen p hp := by
    simp only [string, List.length_append] at hlen hp ⊢
    refine (word_framed (word8_lt (by omega))).andThen_stops (by omega) (fun q hq => ?_) hp
    rw [takeBytes_of_lt hq.length_lt]; rfl

theorem choice_returns {number : α → Nat} {case : Nat → Option (Format α)} {f : Format α} {a : α} (n : Nat)
    (hnumber : number a = n) (hn : n < 256 ^ 4) (hcase : case n = some f) (h : f.Returns a) :
    (choice number case).Returns a := fun rest => by
  simp only [choice, hnumber, hcase, Option.elim_some, List.append_assoc]
  rw [word_returns hn]
  simp only [ReadResult.andThen, hcase]
  exact h rest

theorem choice_framed {number : α → Nat} {case : Nat → Option (Format α)} {f : Format α} {a : α} (n : Nat)
    (hnumber : number a = n) (hn : n < 256 ^ 4) (hcase : case n = some f) (h : f.Framed a) :
    (choice number case).Framed a where
  keeps hlen := by
    simp only [choice, hnumber, hcase, Option.elim_some, List.length_append] at hlen
    exact choice_returns n hnumber hn hcase (h.keeps (by omega))
  stops hlen p hp := by
    simp only [choice, hnumber, hcase, Option.elim_some, List.length_append] at hlen hp ⊢
    refine (word_framed hn).andThen_stops (by omega) (fun q hq => ?_) hp
    simp only [hcase]
    exact h.stops (by omega) q hq

/-! ## The formats of elements and features -/

theorem elementId_framed (id : ElementId) : elementId.Framed id :=
  via_framed (word_framed id.raw.toNat_lt) (by simp)

theorem int32_framed (n : Int32) : int32.Framed n :=
  via_framed (word_framed n.toUInt32.toNat_lt) (by simp)

theorem point_framed (p : Point) : point.Framed p :=
  via_framed (pair_framed (int32_framed p.x) (int32_framed p.y)) rfl

theorem length_point (p : Point) : (point.write p).length = 8 := by
  simp [point, via, pair, int32, word]

theorem points_framed (ps : List Point) : (list point).Framed ps :=
  list_framed (fun p _ => point_framed p) fun p _ => by rw [length_point]; decide

theorem list_pos (f : Format α) (as : List α) : 0 < (f.list.write as).length := by
  rw [list, word, List.length_append, Bytes.length_ofNatLE]; omega

theorem shape_framed (s : Shape) : shape.Framed s :=
  via_framed (pair_framed (points_framed s.outer)
    (list_framed (fun h _ => points_framed h) fun h _ => list_pos _ h)) rfl

theorem shape_pos (s : Shape) : 0 < (shape.write s).length := by
  have := list_pos point s.outer
  simp only [shape, via, pair, List.length_append]; omega

theorem geometry_framed (g : Geometry) : geometry.Framed g := by
  cases g with
  | point p => exact choice_framed 0 rfl (by decide) rfl (via_framed (point_framed p) rfl)
  | multiPoint ps => exact choice_framed 1 rfl (by decide) rfl (via_framed (points_framed ps) rfl)
  | line ps => exact choice_framed 2 rfl (by decide) rfl (via_framed (points_framed ps) rfl)
  | area shapes =>
    exact choice_framed 3 rfl (by decide) rfl
      (via_framed (list_framed (fun s _ => shape_framed s) fun s _ => shape_pos s) rfl)

theorem string_pos (s : String) : 0 < (string.write s).length := by
  rw [string, word, List.length_append, Bytes.length_ofNatLE]; omega

theorem ofList_toList (ts : Tags) : Std.ExtTreeMap.ofList ts.toList = ts :=
  Std.ExtTreeMap.ext_getElem? fun {k} => Option.ext fun v => by
    rw [(Ascending.toList ts).getElem?_ofList, Std.ExtTreeMap.mem_toList_iff_getElem?_eq_some]

theorem tags_framed (ts : Tags) : tags.Framed ts := by
  refine via_framed (list_framed (fun t _ => pair_framed (string_framed t.1) (string_framed t.2)) fun t _ => ?_)
    (ofList_toList ts)
  have := string_pos t.1
  simp only [pair, List.length_append]; omega

theorem member_framed (m : Member) : member.Framed m :=
  via_framed (pair_framed (elementId_framed m.id) (string_framed m.role)) rfl

theorem length_elementId (id : ElementId) : (elementId.write id).length = 8 := by
  simp [elementId, via, word]

theorem elementBody_framed (b : ElementBody) : elementBody.Framed b := by
  cases b with
  | node location =>
    exact choice_framed 0 rfl (by decide) rfl (via_framed (option_framed fun p _ => point_framed p) rfl)
  | way nodes =>
    exact choice_framed 1 rfl (by decide) rfl (via_framed
      (list_framed (fun n _ => elementId_framed n) fun n _ => by rw [length_elementId]; decide) rfl)
  | relation members =>
    refine choice_framed 2 rfl (by decide) rfl (via_framed (list_framed (fun m _ => member_framed m) fun m _ => ?_) rfl)
    have := length_elementId m.id
    simp only [member, via, pair, List.length_append]; omega
  | coastline g =>
    exact choice_framed 3 rfl (by decide) rfl (via_framed (option_framed fun g _ => geometry_framed g) rfl)

theorem element_framed (e : Element) : element.Framed e :=
  via_framed (pair_framed (elementId_framed e.id) (pair_framed (word_framed e.version.toNat_lt)
    (pair_framed (bit_framed .flag e.visible) (pair_framed (tags_framed e.tags) (elementBody_framed e.body)))))
    (by simp)

end Format

theorem Feature.format_framed (f : Feature) : Feature.format.Framed f :=
  Format.via_framed (Format.pair_framed (Format.elementId_framed f.id)
    (Format.pair_framed (Format.tags_framed f.tags) (Format.geometry_framed f.geometry))) rfl

/-! ## Records -/

/-- A record is told apart from what follows it; where it is cut, there is nothing, or it ends too soon. -/
structure RecordType.Frames {α : Type} (what : RecordType) (decode : Bytes → Except CodecError α) (record : Bytes)
    (a : α) : Prop where
  reads : ∀ rest, decode (record ++ rest) = .ok a
  empty : decode [] = .error (.empty what)
  cut : ∀ p : Bytes, p.CutFrom record → p ≠ [] → decode p = .error (.malformed what .eof)

theorem Format.Framed.record {α : Type} {f : Format α} {a : α} (h : f.Framed a) (what : RecordType)
    (hlen : (f.encodeRecord a).length < UInt64.size) : what.Frames (f.decodeRecord what) (f.encodeRecord a) a where
  reads rest := by
    have hread := h.keeps (by simp only [encodeRecord, List.length_cons] at hlen; omega) rest
    simp [encodeRecord, decodeRecord, hread]
  empty := rfl
  cut p hp hne := by
    obtain ⟨v, p, rfl⟩ := List.exists_cons_of_ne_nil hne
    obtain ⟨hbegins, hcut⟩ := hp
    obtain ⟨rfl, hrest⟩ := List.cons_prefix_cons.1 hbegins
    have hread := h.stops (by simp only [encodeRecord, List.length_cons] at hlen; omega) p
      ⟨hrest, fun hp => hcut (congrArg _ hp)⟩
    simp [decodeRecord, hread]

/-- A record that begins like a whole other one is that record. -/
theorem RecordType.Frames.eq_of_begins {α : Type} {what : RecordType} {decode : Bytes → Except CodecError α}
    {r r' : Bytes} {a a' : α} (h : what.Frames decode r a) (h' : what.Frames decode r' a') (hr : r <+: r') : a = a' := by
  obtain ⟨rest, rfl⟩ := hr
  have hread' := h'.reads []
  rw [List.append_nil, h.reads rest] at hread'
  exact Except.ok.inj hread'

/-- The record of an element has no more bytes than can be counted. -/
def Element.IsStorable (e : Element) : Prop := e.encode.length < UInt64.size

instance (e : Element) : Decidable e.IsStorable := inferInstanceAs (Decidable (_ < _))

theorem Element.frames {e : Element} (h : e.IsStorable) : RecordType.element.Frames decode e.encode e :=
  (Format.element_framed e).record .element h

/-- **An element reads back from its record.** -/
theorem Element.decode_encode {e : Element} (h : e.IsStorable) : decode e.encode = .ok e := by
  have hread := (frames h).reads []
  rwa [List.append_nil] at hread

/-- The record of a feature has no more bytes than can be counted. -/
def Feature.IsStorable (f : Feature) : Prop := f.encode.length < UInt64.size

instance (f : Feature) : Decidable f.IsStorable := inferInstanceAs (Decidable (_ < _))

theorem Feature.frames {f : Feature} (h : f.IsStorable) : RecordType.feature.Frames decode f.encode f :=
  (Feature.format_framed f).record .feature h

/-- **Records need no marks between them.**  Every element and every feature reads back from its record whatever bytes
follow; a record that is cut anywhere is refused, as empty or as ending too soon; and no record begins another. -/
theorem records_framed :
    (∀ e : Element, e.IsStorable → RecordType.element.Frames Element.decode e.encode e) ∧
    (∀ f : Feature, f.IsStorable → RecordType.feature.Frames Feature.decode f.encode f) ∧
    (∀ e e' : Element, e.IsStorable → e'.IsStorable → e.encode <+: e'.encode → e = e') ∧
    (∀ f f' : Feature, f.IsStorable → f'.IsStorable → f.encode <+: f'.encode → f = f') :=
  ⟨fun _ => Element.frames, fun _ => Feature.frames, fun _ _ h h' => (Element.frames h).eq_of_begins (Element.frames h'),
    fun _ _ h h' => (Feature.frames h).eq_of_begins (Feature.frames h')⟩

/-- A node that is made of members, with a tag and a role beyond one byte a letter; and an area around a hole that
has no points. -/
theorem records_framed_mixed :
    let e : Element := ⟨⟨7⟩, 3, true, .ofList [("größe", "大"), ("", "\x00")], .relation [⟨⟨9⟩, "außen"⟩, ⟨⟨7⟩, ""⟩]⟩
    let f : Feature := ⟨⟨9⟩, .ofList [("natürlich", "𝄞")], .area [⟨[⟨0, 0⟩, ⟨-1, 5⟩, ⟨0, 0⟩], [[]]⟩, ⟨[], []⟩]⟩
    e.IsStorable ∧ f.IsStorable ∧ RecordType.element.Frames Element.decode e.encode e ∧
      RecordType.feature.Frames Feature.decode f.encode f := by
  intro e f
  have he : e.IsStorable := by decide +kernel
  have hf : f.IsStorable := by decide +kernel
  exact ⟨he, hf, records_framed.1 e he, records_framed.2.1 f hf⟩

/-- A tombstone has a short record. -/
theorem Element.tombstone_isStorable (id : ElementId) (version : UInt32) : (tombstone id version).IsStorable := by
  have hbody : (Format.elementBody.write (.empty id.kind)).length ≤ 12 := by
    cases id.kind <;> decide
  have htags : (Format.tags.write ∅).length = 8 := by decide
  simp only [IsStorable, encode, tombstone, Format.encodeRecord, Format.element, Format.via, Format.pair,
    List.length_cons, List.length_append, htags, Format.word, Bytes.length_ofNatLE, Format.bool, Format.bit]
  simp only [Format.elementId, Format.via, Format.word, Bytes.length_ofNatLE, UInt64.size, List.length_nil]
  omega

end TileAtlas
