import TileAtlas.Proofs.Runs.Replication
/-!
# Replays

An entry that is not newer than the index is passed over, and all that comes of it is that it is counted: a changeset
comes to what it comes to without such entries (`Atlas.apply_newer`).  For a time of the changeset that rests on them
is no later than the one that the index has reached, and is not taken down.  So a changeset that was applied can be
applied again, now or later, and nothing comes of it (`Atlas.run_replays`).
-/
namespace TileAtlas

/-- An entry is newer than the time that an index has reached; an entry without a time always is. -/
def ChangesetEntry.isNewer (reached : Option Int64) (entry : ChangesetEntry) : Bool :=
  entry.timestamp.all fun time => reached.all (· < time)

namespace Changeset

/-- Those entries of a changeset that are newer than the time that an index has reached. -/
def newer (c : Changeset) (reached : Option Int64) : Changeset :=
  { c with entries := c.entries.filter (·.isNewer reached) }

/-- A changeset without a number whose entries tell their times, and that tells none before these itself. -/
structure IsTimed (c : Changeset) : Prop where
  sequence : c.sequence = none
  entries : ∀ entry ∈ c.entries, ∃ time, entry.timestamp = some time
  timestamp : ∀ t, c.timestamp = some t → ∀ entry ∈ c.entries, ∀ time, entry.timestamp = some time → time ≤ t

end Changeset

/-- A report with some more entries passed over. -/
def UpdateReport.skip (r : UpdateReport) (n : Nat) : UpdateReport := { r with skipped := r.skipped + n }

/-- An update under way that has passed over some more entries. -/
def Update.Progress.skip (p : Progress) (n : Nat) : Progress := { p with report := p.report.skip n }

/-! ## Times -/

instance lawfulOrderMaxInt64 : Std.LawfulOrderMax Int64 where
  max_le_iff a b c := by
    show (if a ≤ b then b else a) ≤ c ↔ _
    split
    · rename_i h
      exact ⟨fun hc => ⟨Int64.le_trans h hc, hc⟩, (·.2)⟩
    · rename_i h
      exact ⟨fun hc => ⟨hc, Int64.le_trans (Int64.le_of_lt (Int64.not_le.1 h)) hc⟩, (·.1)⟩
  max_eq_or a b := by
    show (if a ≤ b then b else a) = a ∨ (if a ≤ b then b else a) = b
    split
    · exact .inr rfl
    · exact .inl rfl

namespace Changeset

theorem mem_times {entries : List ChangesetEntry} {time : Int64} :
    time ∈ entries.filterMap (·.timestamp) ↔ ∃ entry ∈ entries, entry.timestamp = some time := by
  simp

/-- No entry of a timed changeset is later than the changeset. -/
theorem IsTimed.le_effectiveTimestamp {c : Changeset} (h : c.IsTimed) {entry : ChangesetEntry} (he : entry ∈ c.entries) :
    ∃ time t, entry.timestamp = some time ∧ c.effectiveTimestamp = some t ∧ time ≤ t := by
  obtain ⟨time, htime⟩ := h.entries entry he
  unfold effectiveTimestamp
  cases hc : c.timestamp with
  | some t => exact ⟨time, t, htime, rfl, h.timestamp t hc entry he time htime⟩
  | none =>
    dsimp only
    have hmem : time ∈ c.entries.filterMap (·.timestamp) := mem_times.2 ⟨entry, he, htime⟩
    cases hmax : (c.entries.filterMap (·.timestamp)).max? with
    | none =>
      rw [List.max?_eq_none_iff.1 hmax] at hmem
      cases hmem
    | some t => exact ⟨time, t, htime, rfl, (List.max?_eq_some_iff.1 hmax).2 time hmem⟩

/-- **What an index takes for the time of a changeset does not rest on entries that are passed over.** -/
theorem effectiveTimestamp_newer (c : Changeset) (reached : Option Int64) (time : Int64) :
    ((c.newer reached).effectiveTimestamp = some time ∧ reached.all (· < time) = true) ↔
      c.effectiveTimestamp = some time ∧ reached.all (· < time) = true := by
  refine and_congr_left fun hlater => ?_
  unfold effectiveTimestamp newer
  cases c.timestamp with
  | some t => exact Iff.rfl
  | none =>
    simp only [List.max?_eq_some_iff, mem_times, List.mem_filter]
    -- an entry that is left out is not later than what was reached, and so before the latest one
    have hnewer : ∀ entry : ChangesetEntry, entry.timestamp = some time → entry.isNewer reached = true := fun entry he => by
      rw [ChangesetEntry.isNewer, he]
      exact hlater
    constructor
    · rintro ⟨⟨entry, ⟨he, -⟩, htime⟩, hmax⟩
      refine ⟨⟨entry, he, htime⟩, ?_⟩
      rintro u ⟨entry', he', hu⟩
      by_cases hn : entry'.isNewer reached = true
      · exact hmax u ⟨entry', ⟨he', hn⟩, hu⟩
      · rw [ChangesetEntry.isNewer, hu] at hn
        cases reached with
        | none => exact absurd rfl hn
        | some now =>
          simp only [Option.all_some, decide_eq_true_eq] at hn hlater
          exact Int64.le_of_lt (Int64.lt_of_le_of_lt (Int64.not_lt.1 hn) hlater)
    · rintro ⟨⟨entry, he, htime⟩, hmax⟩
      exact ⟨⟨entry, ⟨he, hnewer entry htime⟩, htime⟩, fun u ⟨entry', ⟨he', _⟩, hu⟩ => hmax u ⟨entry', he', hu⟩⟩

end Changeset

/-! ## What is passed over -/

namespace Update

variable {config : IndexConfig}

theorem isStale_eq (reached : Option Int64) (entry : ChangesetEntry) :
    ChangesetEntry.isStale reached entry = !entry.isNewer reached := by
  unfold ChangesetEntry.isStale ChangesetEntry.isNewer
  cases reached with
  | none => cases entry.timestamp <;> rfl
  | some now =>
    cases entry.timestamp with
    | none => rfl
    | some time =>
      simp only [Option.all_some]
      rw [← decide_not, decide_eq_decide, Int64.not_lt]

theorem Progress.step_skip (reached : Option Int64) (p : Progress) (n : Nat) (entry : ChangesetEntry) :
    (p.skip n).step config reached entry = (p.step config reached entry).map (·.skip n) := by
  unfold step skip UpdateReport.skip
  split
  · simp only [Except.map, Nat.add_right_comm]
  · dsimp only
    cases applyEntry config p.transaction entry with
    | error e => rfl
    | ok out => cases entry.op <;> rfl

theorem foldlM_step_skip (reached : Option Int64) (n : Nat) : ∀ (entries : List ChangesetEntry) (p : Progress),
    entries.foldlM (Progress.step config reached) (p.skip n) =
      (entries.foldlM (Progress.step config reached) p).map (·.skip n)
  | [], _ => rfl
  | entry :: entries, p => by
    rw [List.foldlM_cons, List.foldlM_cons, Progress.step_skip]
    cases p.step config reached entry with
    | error e => rfl
    | ok p' => exact foldlM_step_skip reached n entries p'

/-- **Entries that are not newer are counted,** and that is all. -/
theorem foldlM_step_newer (reached : Option Int64) : ∀ (entries : List ChangesetEntry) (p : Progress),
    entries.foldlM (Progress.step config reached) p =
      ((entries.filter (·.isNewer reached)).foldlM (Progress.step config reached) p).map
        (·.skip (entries.countP fun entry => !entry.isNewer reached))
  | [], _ => rfl
  | entry :: entries, p => by
    rw [List.foldlM_cons]
    cases hn : entry.isNewer reached with
    | true =>
      rw [List.filter_cons_of_pos hn, List.countP_cons_of_neg (by simp [hn]), List.foldlM_cons]
      cases p.step config reached entry with
      | error e => rfl
      | ok p' => exact foldlM_step_newer reached entries p'
    | false =>
      rw [List.filter_cons_of_neg (by simp [hn]), List.countP_cons_of_pos (by simp [hn])]
      have hstep : p.step config reached entry = .ok (p.skip 1) := by
        rw [Progress.step, isStale_eq, hn]
        rfl
      rw [hstep]
      change entries.foldlM (Progress.step config reached) (p.skip 1) = _
      rw [foldlM_step_newer reached entries, foldlM_step_skip]
      cases (entries.filter (·.isNewer reached)).foldlM (Progress.step config reached) p with
      | error e => rfl
      | ok p' => simp only [Except.map, Progress.skip, UpdateReport.skip, Nat.add_assoc, Nat.add_comm 1]

/-- Number and time are taken down as if the entries that are passed over were not there. -/
theorem replicationOps_newer (state : ReplicationState) (c : Changeset) :
    replicationOps state (c.newer state.timestamp) = replicationOps state c := by
  have hsame := c.effectiveTimestamp_newer state.timestamp
  unfold replicationOps
  refine congrArg (_ ++ ·) ?_
  cases hc : c.effectiveTimestamp with
  | none =>
    cases hn : (c.newer state.timestamp).effectiveTimestamp with
    | none => rfl
    | some time =>
      refine if_neg fun hlater => ?_
      have := ((hsame time).1 ⟨hn, hlater⟩).1
      rw [hc] at this
      cases this
  | some time =>
    dsimp only
    by_cases hlater : state.timestamp.all (· < time) = true
    · rw [((hsame time).2 ⟨hc, hlater⟩).1]
    · rw [if_neg hlater]
      cases hn : (c.newer state.timestamp).effectiveTimestamp with
      | none => rfl
      | some time' =>
        refine if_neg fun hlater' => hlater ?_
        have := ((hsame time').1 ⟨hn, hlater'⟩).1
        rw [hc] at this
        cases this
        exact hlater'

theorem bind_eq_map {ε α β γ : Type} {x : Except ε α} {k : α → Except ε γ} {k' : α → Except ε β} {f : β → γ}
    (h : ∀ a, k a = (k' a).map f) : x >>= k = (x >>= k').map f := by
  cases x with
  | error e => rfl
  | ok a => exact h a

/-- **What is passed over is counted in the report,** and nothing later asks for that. -/
theorem applyIn_newer {t : Transaction} {state : ReplicationState} (hstate : ReplicationState.read t.reader = .ok state)
    (c : Changeset) : applyIn config t c = (applyIn config t (c.newer state.timestamp)).map fun out =>
      (out.1.skip (c.entries.countP fun entry => !entry.isNewer state.timestamp), out.2) := by
  unfold applyIn
  rw [hstate]
  refine bind_eq_map (x := checkSequence state c) fun _ => ?_
  rw [foldlM_step_newer]
  change _ = Except.map _ ((c.entries.filter (·.isNewer state.timestamp)).foldlM (Progress.step config state.timestamp)
    { transaction := t, report := { sequence := c.sequence } } >>= _)
  cases (c.entries.filter (·.isNewer state.timestamp)).foldlM (Progress.step config state.timestamp)
      { transaction := t, report := { sequence := c.sequence } } with
  | error e => rfl
  | ok p =>
    refine bind_eq_map (x := reading (Closure.of _ p.changed)) fun dirty => ?_
    refine bind_eq_map fun t₁ => ?_
    refine bind_eq_map fun out => ?_
    rw [replicationOps_newer]
    exact bind_eq_map fun t₂ => rfl

end Update

/-! ## Applying again -/

namespace ReplicationState

variable {state state' : ReplicationState} {c : Changeset}

/-- The time of a changeset has been reached. -/
def HasReached (state : ReplicationState) (c : Changeset) : Prop :=
  ∀ time, c.effectiveTimestamp = some time → ∃ now, state.timestamp = some now ∧ time ≤ now

theorem NotBefore.trans {state'' : ReplicationState} (h' : state''.NotBefore state') (h : state'.NotBefore state) :
    state''.NotBefore state := fun t ht => by
  obtain ⟨t', ht', hle⟩ := h t ht
  obtain ⟨t'', ht'', hle'⟩ := h' t' ht'
  exact ⟨t'', ht'', Int64.le_trans hle hle'⟩

theorem HasReached.of_notBefore (h : state.HasReached c) (hlater : state'.NotBefore state) : state'.HasReached c :=
  fun time htime => by
    obtain ⟨now, hnow, hle⟩ := h time htime
    obtain ⟨now', hnow', hle'⟩ := hlater now hnow
    exact ⟨now', hnow', Int64.le_trans hle hle'⟩

theorem hasReached_advance (state : ReplicationState) (c : Changeset) : (state.advance c).HasReached c :=
  fun time htime => by
    obtain ⟨now, hnow, -, hle, -⟩ := timestamp_advance state htime
    exact ⟨now, hnow, hle⟩

theorem HasReached.isNewer (h : state.HasReached c) (hc : c.IsTimed) {entry : ChangesetEntry} (he : entry ∈ c.entries) :
    entry.isNewer state.timestamp = false := by
  obtain ⟨time, t, htime, ht, hle⟩ := hc.le_effectiveTimestamp he
  obtain ⟨now, hnow, hle'⟩ := h t ht
  rw [ChangesetEntry.isNewer, htime, hnow]
  simp only [Option.all_some, decide_eq_false_iff_not]
  exact Int64.not_lt.2 (Int64.le_trans hle hle')

end ReplicationState

/-- Nothing is written for a changeset without a number and without entries whose time has been reached. -/
theorem Update.applyIn_nil {config : IndexConfig} {t : Transaction} {state : ReplicationState} {c : Changeset}
    (hstate : ReplicationState.read t.reader = .ok state) (hseq : c.sequence = none) (hnil : c.entries = [])
    (hops : replicationOps state c = []) : applyIn config t c = .ok ({}, t) := by
  have hcheck : checkSequence state c = .ok () := by
    unfold checkSequence
    rw [hseq]
    cases state.sequence <;> rfl
  have hempty : (∅ : ElementSet).toList = [] := by simp
  have hclosure : ∀ referrers : ElementId → Except IndexError (List ElementId), Closure.of referrers ∅ = .ok ∅ := by
    intro referrers
    unfold Closure.of
    rw [hempty, List.reverse_nil, Closure.run]
  unfold applyIn
  rw [hstate]
  simp only [reading, mapError_ok, bind, Except.bind, hcheck, hnil, hops, hseq, List.foldlM_nil, pure, Except.pure,
    hclosure, hempty]
  rfl

namespace Atlas

variable {config : IndexConfig} {a a' : Atlas} {l : Ledger}

/-- **A changeset comes to what it comes to without the entries that are passed over.** -/
theorem Tells.apply_newer (h : a.Tells config l) (c : Changeset) :
    a.apply c = (a.apply (c.newer l.replication.timestamp)).map fun out =>
      (out.1.skip (c.entries.countP fun entry => !entry.isNewer l.replication.timestamp), out.2) := by
  have hstate : ReplicationState.read (Transaction.begin a.store.reader).reader = .ok l.replication := by
    rw [a.store.reader_eq, (Transaction.Over.begin _).reader]
    exact h.stored.replication.read
  unfold Atlas.apply
  rw [Update.applyIn_newer hstate]
  cases Update.applyIn a.config (.begin a.store.reader) (c.newer l.replication.timestamp) with
  | error e => rfl
  | ok out =>
    simp only [Except.map, bind, Except.bind]
    cases a.commit out.2 <;> rfl

/-- Nothing comes of a changeset that was reached. -/
theorem Tells.apply_reached (h : a.Tells config l) {c : Changeset} (hc : c.IsTimed) (hreached : l.replication.HasReached c) :
    a.apply c = .ok ({ skipped := c.entries.length }, a) := by
  have hold : ∀ entry ∈ c.entries, entry.isNewer l.replication.timestamp = false := fun entry he =>
    hreached.isNewer hc he
  have hseq : (c.newer l.replication.timestamp).sequence = none := hc.sequence
  have hnil : (c.newer l.replication.timestamp).entries = [] := by
    unfold Changeset.newer
    simpa using hold
  have hall : (c.entries.countP fun entry => !entry.isNewer l.replication.timestamp) = c.entries.length := by
    rw [List.countP_eq_length]
    intro entry he
    rw [hold entry he]
    rfl
  have hops : Update.replicationOps l.replication (c.newer l.replication.timestamp) = [] := by
    rw [Update.replicationOps_newer, Update.replicationOps, hc.sequence]
    cases ht : c.effectiveTimestamp with
    | none => rfl
    | some time =>
      obtain ⟨now, hnow, hle⟩ := hreached time ht
      rw [hnow]
      exact if_neg (by simpa using Int64.not_lt.2 hle)
  have hstate : ReplicationState.read (Transaction.begin a.store.reader).reader = .ok l.replication := by
    rw [a.store.reader_eq, (Transaction.Over.begin _).reader]
    exact h.stored.replication.read
  have hskip : UpdateReport.skip {} c.entries.length = { skipped := c.entries.length } := by
    unfold UpdateReport.skip
    rw [Nat.zero_add]
  rw [h.apply_newer, hall, Atlas.apply, Update.applyIn_nil hstate hseq hnil hops]
  exact congrArg (fun r => Except.ok (r, a)) hskip

theorem Tells.foldl_notBefore : ∀ (cs : List StorableChangeset) {a : Atlas} {l : Ledger}, a.Tells config l →
    ∃ l', ((cs.map Action.apply).foldl Atlas.perform a).Tells config l' ∧ l'.replication.NotBefore l.replication
  | [], _, l, h => ⟨l, h, ReplicationState.notBefore_refl _⟩
  | c :: cs, a, l, h => by
    obtain ⟨l', h', hlater⟩ := foldl_notBefore cs (h.apply c).1
    refine ⟨l', h', hlater.trans ?_⟩
    rw [Ledger.perform]
    cases hl : l.apply config.strictModify c with
    | error e => exact ReplicationState.notBefore_refl _
    | ok l₁ =>
      rw [(Ledger.apply_ok hl).2.2]
      exact ReplicationState.notBefore_advance l.replication c

/-- **Entries that are passed over are counted, and may as well be left out;** so a changeset that an index has accepted
and that tells the times of its entries can be applied to it again, now or later. -/
theorem run_replays (config : IndexConfig) (start : EmptyStore) (cs : List StorableChangeset) :
    let a := run config start (cs.map .apply)
    ∃ state, ReplicationState.read a.store.reader = .ok state ∧
      (∀ c : Changeset, a.apply c = (a.apply (c.newer state.timestamp)).map fun out =>
        (out.1.skip (c.entries.countP fun entry => !entry.isNewer state.timestamp), out.2)) ∧
      ∀ c : StorableChangeset, c.1.IsTimed → ∀ report a₁, a.apply c = .ok (report, a₁) →
        ∀ ds : List StorableChangeset, ((ds.map .apply).foldl perform a₁).apply c =
          .ok ({ skipped := c.1.entries.length }, (ds.map .apply).foldl perform a₁) := by
  intro a
  have h := (tells_start config start).foldl_apply cs
  refine ⟨_, h.read_replication, h.apply_newer, fun c hc report a₁ ha ds => ?_⟩
  obtain ⟨l₁, hl₁, h₁, -⟩ := h.accepted ha
  obtain ⟨l', h', hlater⟩ := h₁.foldl_notBefore ds
  have hreached : l₁.replication.HasReached c := by
    rw [(Ledger.apply_ok hl₁).2.2]
    exact ReplicationState.hasReached_advance _ _
  exact h'.apply_reached hc (hreached.of_notBefore hlater)

/-- Two changesets overlap: the second repeats an entry of the first, and is delivered twice. -/
theorem run_replays_overlapping :
    let first : StorableChangeset := ⟨{ entries := [
      { op := .create, timestamp := some 100, element := { kind := .relation, number := 1, version := 1 } },
      { op := .create, timestamp := some 200, element := { kind := .relation, number := 2, version := 1 } }] },
      by decide +kernel⟩
    let second : StorableChangeset := ⟨{ timestamp := some 300, entries := [
      { op := .create, timestamp := some 200, element := { kind := .relation, number := 2, version := 1 } },
      { op := .modify, timestamp := some 300, element := { kind := .relation, number := 1, version := 2 } }] },
      by decide +kernel⟩
    second.1.IsTimed ∧ ∃ report a₁, (run {} .segmented [.apply first]).apply second = .ok (report, a₁) ∧
      a₁.apply second = .ok ({ skipped := 2 }, a₁) := by
  intro first second
  have h := (tells_start {} .segmented).foldl_apply [first]
  have hok : ((Ledger.perform false .empty first).apply false second).isOk = true := by decide +kernel
  obtain ⟨report, a₁, ha⟩ := h.exists_apply hok
  have htimed : second.1.IsTimed := ⟨rfl, by simp [second], by simp [second]⟩
  obtain ⟨state, -, -, hreplay⟩ := run_replays {} .segmented [first]
  exact ⟨htimed, report, a₁, ha, hreplay second htimed report a₁ ha []⟩

end Atlas
end TileAtlas
