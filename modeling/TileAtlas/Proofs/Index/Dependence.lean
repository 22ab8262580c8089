import TileAtlas.Proofs.Index.Placement
/-!
# What a placement depends on

A placement is read from few records (`Element.Sees`): those of the nodes of a way, of the member ways of a relation,
and of the nodes of those of them that are visible.  Readers that tell the same of these place the element alike, or
fail alike (`IndexConfig.place_eq_of_sees`), and of an element that is placed each of them can tell
(`Element.Sees.influences`).
-/
namespace TileAtlas

/-! ## Readers that tell the same -/

namespace Elements

variable {r r' : Reader} {id : ElementId} {ids : List ElementId}

theorem readStored_ne_store (id : ElementId) (v : Option Bytes) (e : StoreError) :
    readStored id v ≠ .error (.store e) := by
  intro h
  cases v with
  | none => cases h
  | some record =>
    rw [readStored, read] at h
    cases hrecord : Element.decode record with
    | ok found => rw [hrecord] at h; cases h
    | error damage => rw [hrecord] at h; cases h

/-- Readers that tell the same of an element fail in the same way, or have something there that says the same. -/
theorem exists_stored (h : get r id = get r' id) :
    (∃ e, r.get .elements id.key = .error e ∧ r'.get .elements id.key = .error e) ∨
      ∃ v v', r.get .elements id.key = .ok v ∧ r'.get .elements id.key = .ok v' ∧
        readStored id v = readStored id v' := by
  rw [get, get] at h
  cases hv : r.get .elements id.key with
  | error e =>
    cases hv' : r'.get .elements id.key with
    | error e' =>
      rw [hv, hv'] at h
      cases h
      exact .inl ⟨e, rfl, rfl⟩
    | ok v' =>
      rw [hv, hv'] at h
      exact absurd h.symm (readStored_ne_store id v' e)
  | ok v =>
    cases hv' : r'.get .elements id.key with
    | error e' =>
      rw [hv, hv'] at h
      exact absurd h (readStored_ne_store id v e')
    | ok v' =>
      rw [hv, hv'] at h
      exact .inr ⟨v, v', rfl, rfl, h⟩

theorem exists_storedMany : ∀ {ids : List ElementId}, (∀ id ∈ ids, get r id = get r' id) →
    (∃ e, r.getMany .elements (ids.map (·.key)) = .error e ∧ r'.getMany .elements (ids.map (·.key)) = .error e) ∨
      ∃ vs vs', r.getMany .elements (ids.map (·.key)) = .ok vs ∧ r'.getMany .elements (ids.map (·.key)) = .ok vs' ∧
        ((ids.zip vs).mapM fun p => readStored p.1 p.2) = (ids.zip vs').mapM fun p => readStored p.1 p.2
  | [], _ => .inr ⟨[], [], rfl, rfl, rfl⟩
  | id :: ids, h => by
    have ih := exists_storedMany fun x hx => h x (List.mem_cons_of_mem id hx)
    rw [Reader.getMany, Reader.getMany, List.map_cons, List.mapM_cons, List.mapM_cons]
    rcases exists_stored (h id List.mem_cons_self) with ⟨e, he, he'⟩ | ⟨v, v', hv, hv', hread⟩
    · exact .inl ⟨e, by rw [he]; rfl, by rw [he']; rfl⟩
    · rw [hv, hv']
      rcases ih with ⟨e, he, he'⟩ | ⟨vs, vs', hvs, hvs', hmany⟩
      · rw [Reader.getMany] at he he'
        exact .inl ⟨e, by rw [he]; rfl, by rw [he']; rfl⟩
      · rw [Reader.getMany] at hvs hvs'
        refine .inr ⟨v :: vs, v' :: vs', by rw [hvs]; rfl, by rw [hvs']; rfl, ?_⟩
        rw [List.zip_cons_cons, List.zip_cons_cons, List.mapM_cons, List.mapM_cons, hread, hmany]

/-- **Many records are read alike where each of them is.** -/
theorem getMany_congr (h : ∀ id ∈ ids, get r id = get r' id) : getMany r ids = getMany r' ids := by
  rw [getMany, getMany]
  rcases exists_storedMany h with ⟨e, he, he'⟩ | ⟨vs, vs', hvs, hvs', hmany⟩
  · rw [he, he']
  · rw [hvs, hvs']
    exact hmany

theorem exists_of_getMany_cons {records : List (Option Element)} (h : getMany r (id :: ids) = .ok records) :
    ∃ record rest, get r id = .ok record ∧ getMany r ids = .ok rest ∧ records = record :: rest := by
  rw [getMany, Reader.getMany, List.map_cons] at h
  obtain ⟨found, hfound, h⟩ := exists_of_bind h
  obtain ⟨v, vs, hv, hvs, rfl⟩ := exists_of_mapM_cons (eq_ok_of_mapError hfound)
  obtain ⟨record, rest, hrecord, hrest, rfl⟩ := exists_of_mapM_cons h
  refine ⟨record, rest, ?_, ?_, rfl⟩
  · rw [get, hv]
    exact hrecord
  · rw [getMany, Reader.getMany, hvs]
    exact hrest

/-- The record that a reader has of an element. -/
def recordOf? (r : Reader) (id : ElementId) : Option Element := (get r id).toOption.join

theorem recordOf?_eq {record : Option Element} (h : get r id = .ok record) : recordOf? r id = record := by
  rw [recordOf?, h]
  rfl

/-- **Records that are read together are those that are read of each.** -/
theorem getMany_eq_ok : ∀ {ids : List ElementId} {records : List (Option Element)}, getMany r ids = .ok records →
    (∀ id ∈ ids, get r id = .ok (recordOf? r id)) ∧ records = ids.map (recordOf? r)
  | [], records, h => by
    cases h
    exact ⟨nofun, rfl⟩
  | id :: ids, records, h => by
    obtain ⟨record, rest, hrecord, hrest, rfl⟩ := exists_of_getMany_cons h
    obtain ⟨hall, rfl⟩ := getMany_eq_ok hrest
    have hid := recordOf?_eq hrecord
    refine ⟨fun x hx => ?_, by rw [List.map_cons, hid]⟩
    rcases List.mem_cons.1 hx with rfl | hx
    · rw [hrecord, hid]
    · exact hall x hx

theorem locations_congr (h : ∀ id ∈ ids, get r id = get r' id) : locations r ids = locations r' ids := by
  rw [locations, locations, getMany_congr h]

theorem get_of_locations {points : List Point} (h : locations r ids = .ok points) :
    ∀ id ∈ ids, get r id = .ok (recordOf? r id) := by
  obtain ⟨records, hrecords, -⟩ := exists_of_bind h
  exact (getMany_eq_ok hrecords).1

end Elements

/-! ## The records that a placement is read from -/

/-- The elements whose records tell in the placement of an element: the nodes of a way, the member ways of a relation,
and the nodes of those of them that are visible. -/
inductive Element.Sees (r : Reader) (e : Element) : ElementId → Prop where
  | node {nodes : List ElementId} {x : ElementId} (hbody : e.body = .way nodes) (hx : x ∈ nodes) : e.Sees r x
  | member {members : List Member} {m : Member} (hbody : e.body = .relation members) (hm : m ∈ members)
      (hkind : m.id.kind = .way) : e.Sees r m.id
  | memberNode {members : List Member} {m : Member} {w : Element} {nodes : List ElementId} {x : ElementId}
      (hbody : e.body = .relation members) (hm : m ∈ members) (hkind : m.id.kind = .way)
      (hw : Elements.get r m.id = .ok (some w)) (hnodes : w.wayNodes? = some nodes) (hx : x ∈ nodes) : e.Sees r x

variable {config : IndexConfig} {r r' : Reader} {e : Element} {x : ElementId}

theorem memberWay?_congr {m : Member} {record : Option Element}
    (h : ∀ w nodes, record = some w → w.wayNodes? = some nodes → ∀ n ∈ nodes, Elements.get r n = Elements.get r' n) :
    memberWay? r m record = memberWay? r' m record := by
  rw [memberWay?, memberWay?]
  cases hway : record.bind Element.wayNodes? with
  | none => rfl
  | some nodes =>
    obtain ⟨w, hw, hnodes⟩ := Option.bind_eq_some_iff.1 hway
    dsimp only
    rw [Elements.locations_congr (h w nodes hw hnodes)]

/-- The member ways of a relation are put together from the records of its members, one by one. -/
theorem memberWays_eq {members : List Member} {records : List (Option Element)}
    (h : Elements.getMany r ((members.filter (·.id.kind == .way)).map (·.id)) = .ok records) :
    memberWays r members = (((members.filter (·.id.kind == .way)).mapM fun m =>
      memberWay? r m (Elements.recordOf? r m.id)).map fun ways => ways.filterMap id) := by
  obtain ⟨-, rfl⟩ := Elements.getMany_eq_ok h
  rw [memberWays]
  simp only [h, bind, Except.bind]
  rw [List.map_map, Records.zip_map_self, List.mapM_map]
  rfl

theorem memberWays_congr {members : List Member} (hbody : e.body = .relation members)
    (h : ∀ x, e.Sees r x → Elements.get r x = Elements.get r' x) : memberWays r members = memberWays r' members := by
  have hmany : Elements.getMany r ((members.filter (·.id.kind == .way)).map (·.id)) =
      Elements.getMany r' ((members.filter (·.id.kind == .way)).map (·.id)) := Elements.getMany_congr fun id hid => by
    obtain ⟨m, hm, rfl⟩ := List.mem_map.1 hid
    obtain ⟨hm, hkind⟩ := List.mem_filter.1 hm
    exact h m.id (.member hbody hm (by simpa using hkind))
  cases hrecords : Elements.getMany r ((members.filter (·.id.kind == .way)).map (·.id)) with
  | error e =>
    rw [memberWays, memberWays, ← hmany, hrecords]
    rfl
  | ok records =>
    rw [memberWays_eq hrecords, memberWays_eq (hmany.symm.trans hrecords)]
    refine congrArg _ (mapM_congr fun m hm => ?_)
    obtain ⟨hin, hkind⟩ := List.mem_filter.1 hm
    have hkind : m.id.kind = .way := by simpa using hkind
    have hget : Elements.get r m.id = .ok (Elements.recordOf? r m.id) :=
      (Elements.getMany_eq_ok hrecords).1 m.id (List.mem_map_of_mem hm)
    rw [Elements.recordOf?_eq ((h m.id (.member hbody hin hkind)).symm.trans hget)]
    exact memberWay?_congr fun w nodes hw hnodes n hn =>
      h n (.memberNode hbody hin hkind (hget.trans (congrArg _ hw)) hnodes hn)

/-- **A placement is read from the records that an element sees.** -/
theorem IndexConfig.place_eq_of_sees (config : IndexConfig)
    (h : ∀ x, e.Sees r x → Elements.get r x = Elements.get r' x) : config.place r e = config.place r' e := by
  have hgeometry : e.geometry? r = e.geometry? r' := by
    unfold Element.geometry?
    split
    · rfl
    · rename_i nodes hbody
      rw [Elements.locations_congr fun n hn => h n (.node hbody hn)]
    · rename_i members hbody
      rw [memberWays_congr hbody h]
    · rfl
  rw [place, place, hgeometry]

/-- **Whatever an element sees can be read where it is placed.** -/
theorem IndexConfig.get_of_place {p : Option Placement} (hp : config.place r e = .ok p) (hshown : e.isShown = true)
    (hx : e.Sees r x) : ∃ o, Elements.get r x = .ok o := by
  rw [place, if_pos hshown] at hp
  obtain ⟨g, hg, -⟩ := exists_of_bind hp
  have hmembers : ∀ {members}, e.body = .relation members → ∃ records ways,
      Elements.getMany r ((members.filter (·.id.kind == .way)).map (·.id)) = .ok records ∧
      (members.filter (·.id.kind == .way)).mapM (fun m => memberWay? r m (Elements.recordOf? r m.id)) = .ok ways := by
    intro members hbody
    rw [Element.geometry?.eq_def, hbody] at hg
    obtain ⟨found, hfound, -⟩ := exists_of_bind hg
    obtain ⟨records, hrecords, -⟩ := exists_of_bind hfound
    rw [memberWays_eq hrecords] at hfound
    cases hways : (members.filter (·.id.kind == .way)).mapM (fun m => memberWay? r m (Elements.recordOf? r m.id)) with
    | error x => rw [hways] at hfound; cases hfound
    | ok ways => exact ⟨records, ways, hrecords, rfl⟩
  cases hx with
  | @node nodes _ hbody hx =>
    rw [Element.geometry?.eq_def, hbody] at hg
    obtain ⟨points, hpoints, -⟩ := exists_of_bind hg
    exact ⟨_, Elements.get_of_locations hpoints x hx⟩
  | @member members m hbody hm hkind =>
    obtain ⟨records, -, hrecords, -⟩ := hmembers hbody
    exact ⟨_, (Elements.getMany_eq_ok hrecords).1 m.id
      (List.mem_map_of_mem (List.mem_filter.2 ⟨hm, by simpa using hkind⟩))⟩
  | @memberNode members m w nodes _ hbody hm hkind hw hnodes hx =>
    obtain ⟨-, ways, -, hways⟩ := hmembers hbody
    obtain ⟨way, hway⟩ := exists_of_mapM hways m (List.mem_filter.2 ⟨hm, by simpa using hkind⟩)
    rw [Elements.recordOf?_eq hw, memberWay?, Option.bind_some, hnodes] at hway
    obtain ⟨points, hpoints, -⟩ := exists_of_bind hway
    exact ⟨_, Elements.get_of_locations hpoints x hx⟩

/-! ## Records that tell -/

/-- One record can tell in the placement of an element: readers that differ there alone do not place it alike. -/
def IndexConfig.Influences (config : IndexConfig) (r : Reader) (e : Element) (x : ElementId) : Prop :=
  ∃ r' : Reader, (∀ y, y ≠ x → Elements.get r' y = Elements.get r y) ∧ config.place r' e ≠ config.place r e

/-- **Only what an element that is shown sees can tell in its placement.** -/
theorem IndexConfig.Influences.sees (h : config.Influences r e x) : e.isShown = true ∧ e.Sees r x := by
  obtain ⟨r', hsame, hne⟩ := h
  refine ⟨?_, ?_⟩
  · by_contra hshown
    exact hne (by rw [place, place, if_neg hshown, if_neg hshown])
  · by_contra hx
    exact hne (config.place_eq_of_sees fun y hy => (hsame y fun hyx => hx (hyx ▸ hy)).symm).symm

/-- A reader that has something at one element that is no record. -/
def Reader.damagedAt (r : Reader) (x : ElementId) : Reader :=
  { r with get := fun c k => if c = .elements ∧ k = x.key then .ok (some []) else r.get c k }

theorem Reader.get_damagedAt_self (r : Reader) (x : ElementId) :
    Elements.get (r.damagedAt x) x = .error (.codec .element x (.empty .element)) := by
  have hdamaged : (r.damagedAt x).get .elements x.key = .ok (some []) := if_pos ⟨rfl, rfl⟩
  rw [Elements.get, hdamaged]
  rfl

theorem Reader.get_damagedAt (r : Reader) {x y : ElementId} (h : y ≠ x) :
    Elements.get (r.damagedAt x) y = Elements.get r y := by
  have hsame : (r.damagedAt x).get .elements y.key = r.get .elements y.key :=
    if_neg fun hk => h (ElementId.key_inj hk.2)
  rw [Elements.get, Elements.get, hsame]

/-- **Whatever an element that is shown sees can tell in its placement:** if it could not be read, there would be
none. -/
theorem Element.Sees.influences {p : Option Placement} (h : e.Sees r x) (hshown : e.isShown = true)
    (hp : config.place r e = .ok p) : config.Influences r e x := by
  refine ⟨r.damagedAt x, fun y hy => r.get_damagedAt hy, fun heq => ?_⟩
  have hsees : e.Sees (r.damagedAt x) x := by
    cases h with
    | node hbody hx => exact .node hbody hx
    | member hbody hm hkind => exact .member hbody hm hkind
    | @memberNode members m w nodes _ hbody hm hkind hw hnodes hx =>
      by_cases hmx : m.id = x
      · exact hmx ▸ .member hbody hm hkind
      · exact .memberNode hbody hm hkind ((r.get_damagedAt hmx).trans hw) hnodes hx
  obtain ⟨o, ho⟩ := IndexConfig.get_of_place (heq.trans hp) hshown hsees
  rw [r.get_damagedAt_self] at ho
  cases ho

end TileAtlas
