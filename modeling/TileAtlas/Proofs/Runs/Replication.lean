import Mathlib.Data.List.Chain
import TileAtlas.Proofs.Runs.Basic
/-!
# Following a sequence of changesets

Changesets are delivered in any order, some of them twice and some without a number.  Those that an index accepts
have consecutive numbers, one after another as they were applied, and what the index stores is the number of the last
one and the latest of their times (`ReplicationState.Follows.advance`).  A changeset that is refused changes neither
(`Atlas.run_follows`).
-/
namespace TileAtlas

/-- The numbers of those changesets that have one. -/
def Changeset.numbers (cs : List Changeset) : List UInt64 := cs.filterMap (·.sequence)

/-- The times of those changesets that tell one. -/
def Changeset.times (cs : List Changeset) : List Int64 := cs.filterMap (·.effectiveTimestamp)

namespace ReplicationState

/-- The state that some changesets lead to, applied one after another. -/
structure Follows (state : ReplicationState) (applied : List Changeset) : Prop where
  /-- None is left out, and none comes twice. -/
  consecutive : (Changeset.numbers applied).IsChain fun m n => m.toNat + 1 = n.toNat
  last : state.sequence = (Changeset.numbers applied).getLast?
  untimed : state.timestamp = none → Changeset.times applied = []
  latest : ∀ t, state.timestamp = some t → t ∈ Changeset.times applied ∧ ∀ u ∈ Changeset.times applied, u ≤ t

/-- Time does not go back. -/
def NotBefore (state' state : ReplicationState) : Prop :=
  ∀ t, state.timestamp = some t → ∃ t', state'.timestamp = some t' ∧ t ≤ t'

theorem follows_nil : Follows ⟨none, none⟩ [] where
  consecutive := .nil
  last := rfl
  untimed := fun _ => rfl
  latest := nofun

variable {state : ReplicationState} {applied : List Changeset} {c : Changeset}

theorem notBefore_refl (state : ReplicationState) : state.NotBefore state := fun t ht => ⟨t, ht, Int64.le_refl t⟩

theorem numbers_append_singleton (applied : List Changeset) (c : Changeset) :
    Changeset.numbers (applied ++ [c]) = Changeset.numbers applied ++ c.sequence.toList := by
  rw [Changeset.numbers, List.filterMap_append]
  cases hc : c.sequence <;> simp [Changeset.numbers, hc]

theorem times_append_singleton (applied : List Changeset) (c : Changeset) :
    Changeset.times (applied ++ [c]) = Changeset.times applied ++ c.effectiveTimestamp.toList := by
  rw [Changeset.times, List.filterMap_append]
  cases hc : c.effectiveTimestamp <;> simp [Changeset.times, hc]

/-- The number of a changeset that is in sequence is the next one. -/
theorem successor_of_checkSequence (h : Update.checkSequence state c = .ok ()) {m n : UInt64}
    (hm : state.sequence = some m) (hn : c.sequence = some n) : m.toNat + 1 = n.toNat := by
  rw [Update.checkSequence, hm, hn] at h
  dsimp only at h
  split at h
  · assumption
  · cases h

theorem checkSequence_ok (h : ∀ m n, state.sequence = some m → c.sequence = some n → m.toNat + 1 = n.toNat) :
    Update.checkSequence state c = .ok () := by
  rw [Update.checkSequence]
  split
  · rename_i m n hm hn
    exact if_pos (h m n hm hn)
  · rfl

theorem checkSequence_error {m n : UInt64} (hm : state.sequence = some m) (hn : c.sequence = some n)
    (hne : m.toNat + 1 ≠ n.toNat) : Update.checkSequence state c = .error (.outOfSequence m n) := by
  rw [Update.checkSequence, hm, hn]
  exact if_neg hne

/-- A time counts if it is the first one, or later than the one before. -/
theorem timestamp_advance (state : ReplicationState) {time : Int64} (hc : c.effectiveTimestamp = some time) :
    ∃ t, (state.advance c).timestamp = some t ∧ (t = time ∨ state.timestamp = some t) ∧ time ≤ t ∧
      ∀ u, state.timestamp = some u → u ≤ t := by
  rw [advance, hc]
  cases hs : state.timestamp with
  | none => exact ⟨time, rfl, .inl rfl, Int64.le_refl time, fun u hu => by cases hu⟩
  | some now =>
    simp only [Option.all_some, decide_eq_true_eq, Option.some.injEq, forall_eq']
    split
    · rename_i hlt
      exact ⟨time, rfl, .inl rfl, Int64.le_refl time, Int64.le_of_lt hlt⟩
    · rename_i hle
      exact ⟨now, rfl, .inr rfl, Int64.not_lt.1 hle, Int64.le_refl now⟩

theorem notBefore_advance (state : ReplicationState) (c : Changeset) : (state.advance c).NotBefore state := fun t ht => by
  cases hc : c.effectiveTimestamp with
  | none => exact ⟨t, by rw [advance, hc]; exact ht, Int64.le_refl t⟩
  | some time =>
    obtain ⟨t', ht', -, -, hbefore⟩ := timestamp_advance state hc
    exact ⟨t', ht', hbefore t ht⟩

/-- **A changeset in sequence leads on.** -/
theorem Follows.advance (h : state.Follows applied) (hseq : Update.checkSequence state c = .ok ()) :
    (state.advance c).Follows (applied ++ [c]) where
  consecutive := by
    rw [numbers_append_singleton]
    cases hn : c.sequence with
    | none => simpa using h.consecutive
    | some n =>
      refine h.consecutive.append (.singleton n) fun m hm n' hn' => ?_
      cases hn'
      exact successor_of_checkSequence hseq (h.last.trans hm) hn
  last := by
    rw [numbers_append_singleton, List.getLast?_append, ReplicationState.advance, h.last]
    cases c.sequence <;> rfl
  untimed hnone := by
    rw [times_append_singleton]
    cases hc : c.effectiveTimestamp with
    | none =>
      rw [ReplicationState.advance, hc] at hnone
      rw [h.untimed hnone]; rfl
    | some time =>
      obtain ⟨t, ht, -⟩ := timestamp_advance state hc
      rw [hnone] at ht
      cases ht
  latest t ht := by
    rw [times_append_singleton]
    cases hc : c.effectiveTimestamp with
    | none =>
      rw [ReplicationState.advance, hc] at ht
      simpa using h.latest t ht
    | some time =>
      obtain ⟨t', ht', hfrom, htime, hbefore⟩ := timestamp_advance state hc
      obtain rfl := Option.some.inj (ht.symm.trans ht')
      simp only [Option.toList_some, List.mem_append, List.mem_singleton]
      refine ⟨hfrom.symm.imp_left fun hs => (h.latest t hs).1, fun u hu => ?_⟩
      rcases hu with hu | rfl
      · cases hs : state.timestamp with
        | none => rw [h.untimed hs] at hu; cases hu
        | some now => exact Int64.le_trans ((h.latest now hs).2 u hu) (hbefore now hs)
      · exact htime

end ReplicationState

namespace Atlas

/-- Those changesets that an index accepts when some are delivered to it one after another. -/
def applied : Atlas → List StorableChangeset → List Changeset
  | _, [] => []
  | a, c :: cs =>
    match a.apply c with
    | .ok (_, a') => c.1 :: applied a' cs
    | .error _ => applied a cs

variable {config : IndexConfig}

/-- **A run of deliveries follows the changesets that it accepts.** -/
theorem Tells.follows_applied : ∀ (cs : List StorableChangeset) {a : Atlas} {l : Ledger} {done : List Changeset},
    a.Tells config l → l.replication.Follows done → ∃ l', ((cs.map Action.apply).foldl Atlas.perform a).Tells config l' ∧
      l'.replication.Follows (done ++ a.applied cs)
  | [], a, l, done, h, hf => ⟨l, h, by rwa [applied, List.append_nil]⟩
  | c :: cs, a, l, done, h, hf => by
    rw [List.map_cons, List.foldl_cons, applied, Atlas.perform]
    cases ha : a.apply c with
    | error e => exact follows_applied cs h hf
    | ok out =>
      obtain ⟨report, a'⟩ := out
      obtain ⟨l₁, hl₁, h₁, -⟩ := h.accepted ha
      obtain ⟨hseq, -, hrep⟩ := Ledger.apply_ok hl₁
      have hf₁ := hf.advance hseq
      rw [← hrep] at hf₁
      have hrest := follows_applied cs h₁ hf₁
      rwa [List.append_assoc] at hrest

theorem Tells.read_replication {a : Atlas} {l : Ledger} (h : a.Tells config l) :
    ReplicationState.read a.store.reader = .ok l.replication := by
  rw [a.store.reader_eq]
  exact h.stored.replication.read

/-- What comes of the next changeset: if its number does not follow it is refused for that; whatever it is refused for,
number and time stay; and time never goes back. -/
structure Awaits (a : Atlas) (state : ReplicationState) (c : StorableChangeset) : Prop where
  outOfSequence : ∀ m n, state.sequence = some m → c.1.sequence = some n → m.toNat + 1 ≠ n.toNat →
    a.apply c = .error (.outOfSequence m n)
  /-- Nothing follows the last number that there is. -/
  atEnd : ∀ n, state.sequence = some (UInt64.ofNat (2 ^ 64 - 1)) → c.1.sequence = some n →
    a.apply c = .error (.outOfSequence (UInt64.ofNat (2 ^ 64 - 1)) n)
  /-- Without entries only the number can be wrong. -/
  inSequence : c.1.entries = [] → (∀ m n, state.sequence = some m → c.1.sequence = some n → m.toNat + 1 = n.toNat) →
    ∃ report a', a.apply c = .ok (report, a')
  refused : ∀ e, a.apply c = .error e → ReplicationState.read (a.perform (.apply c)).store.reader = .ok state
  next : ∃ state', ReplicationState.read (a.perform (.apply c)).store.reader = .ok state' ∧ state'.NotBefore state

theorem Tells.awaits {a : Atlas} {l : Ledger} (h : a.Tells config l) (c : StorableChangeset) :
    a.Awaits l.replication c := by
  have hout : ∀ m n, l.replication.sequence = some m → c.1.sequence = some n → m.toNat + 1 ≠ n.toNat →
      a.apply c = .error (.outOfSequence m n) := fun m n hm hn hne => by
    have hspec := apply_spec (h.config_eq ▸ h.stored) c.2
    rwa [Ledger.apply, ReplicationState.checkSequence_error hm hn hne] at hspec
  refine ⟨hout, fun n hlast hn => hout _ n hlast hn ?_, fun hnil hseq => ?_, fun e he => ?_, ?_⟩
  · have hsize : (UInt64.ofNat (2 ^ 64 - 1)).toNat = 2 ^ 64 - 1 := by decide
    have := n.toNat_lt
    omega
  · refine h.exists_apply ?_
    rw [Ledger.apply, ReplicationState.checkSequence_ok hseq, Ledger.due, hnil]
    rfl
  · rw [Atlas.perform, he]
    exact h.read_replication
  · have hnext := (h.apply c).1
    refine ⟨_, hnext.read_replication, ?_⟩
    rw [Ledger.perform]
    cases hl : l.apply config.strictModify c with
    | error e => exact ReplicationState.notBefore_refl _
    | ok l' =>
      rw [(Ledger.apply_ok hl).2.2]
      exact ReplicationState.notBefore_advance l.replication c

/-- **Whatever is delivered, and in whatever order, an index follows the changesets that it accepts.** -/
theorem run_follows (config : IndexConfig) (start : EmptyStore) (cs : List StorableChangeset) :
    ∃ state, ReplicationState.read (run config start (cs.map .apply)).store.reader = .ok state ∧
      state.Follows (applied ⟨start.store, config⟩ cs) ∧
      ∀ c, (run config start (cs.map .apply)).Awaits state c := by
  obtain ⟨l, h, hf⟩ := (tells_start config start).follows_applied cs ReplicationState.follows_nil
  exact ⟨l.replication, h.read_replication, hf, h.awaits⟩

end Atlas
end TileAtlas
