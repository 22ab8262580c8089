import Mathlib
import TileAtlas.Proofs.Runs.DirtyTiles
/-!
# Commands that share an index

Changesets are applied to an index while others list its flagged tiles and take the flags away.  A changeset is
committed in one access to the store.  Whoever takes flags away lists them in a first access and takes them away in a
second, and accesses of others may come between the two.

A tile that was flagged stays flagged until it is listed, except where a command that had listed before takes all
flags away after (`Sharing.run_accounted`).  Such a command takes away what it never listed (`Sharing.run_lost`).
-/
namespace TileAtlas

/-- A command on an index that others use as well. -/
inductive SharedCommand where
  | apply (c : StorableChangeset)
  /-- List the flagged tiles and, if asked to, take the flags away after that. -/
  | dirty (clear : Bool)

/-- What a command does next. -/
inductive SharedCommand.Stage where
  | apply (c : StorableChangeset)
  | list (clear : Bool)
  | clear
  | done

def SharedCommand.first : SharedCommand → Stage
  | apply c => .apply c
  | dirty clear => .list clear

/-- What becomes of flags. -/
inductive FlagEvent where
  | flagged (tiles : TileSet)
  | listed (command : Nat) (tiles : List TilePosition)
  | cleared (command : Nat)

/-- An index, what each command does next with it, and what has become of flags, the latest first. -/
structure Sharing where
  atlas : Atlas
  stages : List SharedCommand.Stage
  log : List FlagEvent

namespace Sharing

/-- The next access of a command.  One that fails does nothing more. -/
def step (s : Sharing) (i : Nat) : Sharing :=
  match s.stages[i]? with
  | some (.apply c) =>
    match s.atlas.apply c with
    | .ok (report, a) => { atlas := a, stages := s.stages.set i .done, log := .flagged report.dirtyTiles :: s.log }
    | .error _ => { s with stages := s.stages.set i .done }
  | some (.list clear) =>
    match s.atlas.dirtyTiles with
    | .ok tiles => { s with stages := s.stages.set i (if clear then .clear else .done), log := .listed i tiles :: s.log }
    | .error _ => { s with stages := s.stages.set i .done }
  | some .clear =>
    match s.atlas.clearDirtyTiles with
    | .ok a => { atlas := a, stages := s.stages.set i .done, log := .cleared i :: s.log }
    | .error _ => { s with stages := s.stages.set i .done }
  | some .done | none => s

def start (config : IndexConfig) (store : EmptyStore) (commands : List SharedCommand) : Sharing where
  atlas := ⟨store.store, config⟩
  stages := commands.map (·.first)
  log := []

/-- Commands share an index; a schedule tells whose access is next. -/
def run (config : IndexConfig) (store : EmptyStore) (commands : List SharedCommand) (schedule : List Nat) : Sharing :=
  schedule.foldl step (start config store commands)

/-- What an access of a command does to the flags and what is logged of it. -/
inductive Access (s : Sharing) (i : Nat) (flags : TileSet) : TileSet → List FlagEvent → Prop where
  | nothing : Access s i flags flags s.log
  | flag (tiles : TileSet) : Access s i flags (flags ∪ tiles) (.flagged tiles :: s.log)
  | list : Access s i flags flags (.listed i flags.toList :: s.log)
  | clear (stage : s.stages[i]? = some .clear) : Access s i flags ∅ (.cleared i :: s.log)

variable {config : IndexConfig} {s : Sharing} {l : Ledger} {flags flags' : TileSet} {log : List FlagEvent} {i : Nat}

theorem access_step (h : s.atlas.Flags config l flags) (i : Nat) :
    ∃ l' flags', (s.step i).atlas.Flags config l' flags' ∧ s.Access i flags flags' (s.step i).log := by
  unfold step
  split
  · rename_i c hstage
    cases ha : s.atlas.apply c with
    | error e => exact ⟨l, flags, h, .nothing⟩
    | ok p =>
      obtain ⟨l', h', -⟩ := h.accepted ha
      exact ⟨l', _, h', .flag p.1.dirtyTiles⟩
  · rw [h.dirtyTiles_eq]
    exact ⟨l, flags, h, .list⟩
  · rename_i hstage
    obtain ⟨a, ha, h'⟩ := h.clear
    rw [ha]
    exact ⟨l, ∅, h', .clear hstage⟩
  · exact ⟨l, flags, h, .nothing⟩
  · exact ⟨l, flags, h, .nothing⟩

theorem clear_of_set {stages : List SharedCommand.Stage} {next : SharedCommand.Stage} {j : Nat}
    (hj : (stages.set i next)[j]? = some .clear) : stages[j]? = some .clear ∨ i = j ∧ next = .clear := by
  rw [List.getElem?_set] at hj
  split at hj
  · rename_i hij
    split at hj
    · exact .inr ⟨hij, Option.some.inj hj⟩
    · cases hj
  · exact .inl hj

/-- Whoever is about to take flags away was so before, or has just listed. -/
theorem listed_of_stage {j : Nat} (hj : (s.step i).stages[j]? = some .clear) :
    s.stages[j]? = some .clear ∨ ∃ tiles, .listed j tiles ∈ (s.step i).log := by
  unfold step at hj ⊢
  split at hj
  · split at hj
    all_goals exact (clear_of_set hj).imp_right fun h => by cases h.2
  · split at hj
    · obtain hj | ⟨rfl, -⟩ := clear_of_set hj
      · exact .inl hj
      · exact .inr ⟨_, List.mem_cons_self⟩
    · exact (clear_of_set hj).imp_right fun h => by cases h.2
  · split at hj
    all_goals exact (clear_of_set hj).imp_right fun h => by cases h.2
  · exact .inl hj
  · exact .inl hj

/-- What has become of a tile that was flagged between `before` and `after`. -/
inductive Accounted (flags : TileSet) (after before : List FlagEvent) (t : TilePosition) : Prop where
  | kept (flagged : t ∈ flags) (unlisted : ∀ j tiles, .listed j tiles ∉ after)
  | told {j : Nat} {tiles : List TilePosition} (listed : .listed j tiles ∈ after) (mem : t ∈ tiles)
  /-- A command that had listed before has taken the flags away. -/
  | taken {j : Nat} {tiles : List TilePosition} (listed : .listed j tiles ∈ before) (cleared : .cleared j ∈ after)

/-- Every tile that was ever flagged is accounted for. -/
def AllAccounted (flags : TileSet) (log : List FlagEvent) : Prop :=
  ∀ after tiles before, log = after ++ .flagged tiles :: before → ∀ t ∈ tiles, Accounted flags after before t

/-- An event accounts for what it flags itself, and leaves what was flagged before accounted for. -/
theorem AllAccounted.cons (h : AllAccounted flags log) {e : FlagEvent}
    (hnew : ∀ tiles, e = .flagged tiles → ∀ t ∈ tiles, t ∈ flags')
    (hkept : ∀ after tiles before t, log = after ++ .flagged tiles :: before → t ∈ flags →
      (∀ j listed, .listed j listed ∉ after) → Accounted flags' (e :: after) before t) :
    AllAccounted flags' (e :: log) := by
  intro after tiles before hlog t ht
  rcases List.cons_eq_append_iff.1 hlog with ⟨rfl, hflag⟩ | ⟨after, rfl, hold⟩
  · cases hflag
    exact .kept (hnew tiles rfl t ht) fun j listed hin => by cases hin
  · cases h after tiles before hold t ht with
    | kept hflagged hunlisted => exact hkept after tiles before t hold hflagged hunlisted
    | told hlisted hmem => exact .told (List.mem_cons_of_mem e hlisted) hmem
    | taken hlisted hcleared => exact .taken hlisted (List.mem_cons_of_mem e hcleared)

/-- **An access leaves every tile accounted for,** if a command only takes flags away after it has listed. -/
theorem Access.accounted (h : s.Access i flags flags' log)
    (hlisted : s.stages[i]? = some .clear → ∃ tiles, .listed i tiles ∈ s.log) (hs : AllAccounted flags s.log) :
    AllAccounted flags' log := by
  cases h with
  | nothing => exact hs
  | flag tiles =>
    refine hs.cons (fun tiles htiles t ht => ?_) fun after _ before t _ hflagged hunlisted => ?_
    · cases htiles
      exact Std.ExtTreeSet.mem_union_iff.2 (.inr ht)
    · refine .kept (Std.ExtTreeSet.mem_union_iff.2 (.inl hflagged)) fun j listed hin => ?_
      rcases List.mem_cons.1 hin with heq | hin
      · cases heq
      · exact hunlisted j listed hin
  | list =>
    refine hs.cons (fun tiles htiles => by cases htiles) fun after _ before t _ hflagged _ => ?_
    exact .told List.mem_cons_self (Std.ExtTreeSet.mem_toList.2 hflagged)
  | clear hstage =>
    refine hs.cons (fun tiles htiles => by cases htiles) fun after tiles before t hlog _ hunlisted => ?_
    -- nothing was listed since the tile was flagged, so this command had listed before
    obtain ⟨listed, hin⟩ := hlisted hstage
    rw [hlog] at hin
    rcases List.mem_append.1 hin with hin | hin
    · exact absurd hin (hunlisted i listed)
    · rcases List.mem_cons.1 hin with heq | hin
      · cases heq
      · exact .taken hin List.mem_cons_self

/-- What holds at every moment. -/
structure Sound (s : Sharing) (config : IndexConfig) (l : Ledger) (flags : TileSet) : Prop where
  flagged : s.atlas.Flags config l flags
  listed : ∀ j, s.stages[j]? = some .clear → ∃ tiles, .listed j tiles ∈ s.log
  accounted : AllAccounted flags s.log

theorem Access.subset (h : s.Access i flags flags' log) : s.log ⊆ log := by
  cases h with
  | nothing => exact List.Subset.refl _
  | flag | list | clear => exact List.subset_cons_self ..

theorem Sound.step (h : s.Sound config l flags) (i : Nat) : ∃ l' flags', (s.step i).Sound config l' flags' := by
  obtain ⟨l', flags', h', haccess⟩ := access_step h.flagged i
  refine ⟨l', flags', h', fun j hj => ?_, haccess.accounted (h.listed i) h.accounted⟩
  rcases listed_of_stage hj with hj | hlisted
  · obtain ⟨tiles, hin⟩ := h.listed j hj
    exact ⟨tiles, haccess.subset hin⟩
  · exact hlisted

theorem sound_start (config : IndexConfig) (store : EmptyStore) (commands : List SharedCommand) :
    (start config store commands).Sound config .empty ∅ where
  flagged := Atlas.flags_start config store
  listed j hj := by
    obtain ⟨c, -, hc⟩ := List.mem_map.1 (List.mem_of_getElem? hj)
    cases c <;> cases hc
  accounted after tiles before hlog := by
    rw [start] at hlog
    simp at hlog

theorem Sound.foldl : ∀ (schedule : List Nat) {s : Sharing} {l : Ledger} {flags : TileSet}, s.Sound config l flags →
    ∃ l' flags', (schedule.foldl Sharing.step s).Sound config l' flags'
  | [], _, l, flags, h => ⟨l, flags, h⟩
  | i :: schedule, _, _, _, h => by
    obtain ⟨l', flags', h'⟩ := h.step i
    exact foldl schedule h'

/-- **A flagged tile is lost only to a command that listed before.**  In whatever order commands have access to an
index, the tiles of an accepted changeset are still flagged or were listed since, unless a command listed the flagged
tiles before that changeset and took all flags away after it. -/
theorem run_accounted (config : IndexConfig) (store : EmptyStore) (commands : List SharedCommand) (schedule : List Nat) :
    let s := run config store commands schedule
    ∃ flagged, s.atlas.dirtyTiles = .ok flagged ∧
      ∀ after tiles before, s.log = after ++ .flagged tiles :: before → ∀ t ∈ tiles,
        t ∈ flagged ∨ (∃ j told, .listed j told ∈ after ∧ t ∈ told) ∨
          ∃ j told, .listed j told ∈ before ∧ .cleared j ∈ after := by
  obtain ⟨l, flags, h⟩ := Sound.foldl schedule (sound_start config store commands)
  refine ⟨flags.toList, h.flagged.dirtyTiles_eq, fun after tiles before hlog t ht => ?_⟩
  cases h.accounted after tiles before hlog t ht with
  | kept hflagged => exact .inl (Std.ExtTreeSet.mem_toList.2 hflagged)
  | told hlisted hmem => exact .inr (.inl ⟨_, _, hlisted, hmem⟩)
  | taken hlisted hcleared => exact .inr (.inr ⟨_, _, hlisted, hcleared⟩)

/-- Two coastlines, each in a tile of its own. -/
def coastline (number : Nat) (lon : Int32) : Changeset where
  entries := [
    { op := .create, element :=
      { kind := .coastline, number := number, version := 1, geometry := some (.line [⟨lon, 0⟩, ⟨lon + 1, 1⟩]) } }]

def west : StorableChangeset := ⟨coastline 1 0, by decide +kernel⟩

def east : StorableChangeset := ⟨coastline 2 90000000, by decide +kernel⟩

/-- A command has listed the tile in the west when the one in the east is flagged. -/
theorem run_accounted_midway :
    let s := run {} (.flat true) [.apply west, .dirty true, .apply east] [0, 1, 2]
    s.log = [.flagged {.ofCoords 576 0}, .listed 1 [.ofCoords 0 0], .flagged {.ofCoords 0 0}] ∧
    ∃ flagged, s.atlas.dirtyTiles = .ok flagged ∧
      ∀ after tiles before, s.log = after ++ .flagged tiles :: before → ∀ t ∈ tiles,
        t ∈ flagged ∨ (∃ j told, .listed j told ∈ after ∧ t ∈ told) ∨
          ∃ j told, .listed j told ∈ before ∧ .cleared j ∈ after := by
  refine ⟨?_, run_accounted {} (.flat true) [.apply west, .dirty true, .apply east] [0, 1, 2]⟩
  cbv

/-- **Flags are lost** where a command lists the flagged tiles, a changeset is applied, and the command takes all flags
away then: the tiles of that changeset are not flagged, and nobody has listed them. -/
theorem run_lost :
    let s := run {} (.flat true) [.apply west, .dirty true, .apply east] [0, 1, 2, 1]
    ∃ after tiles before, s.log = after ++ .flagged tiles :: before ∧ ∃ t ∈ tiles,
      ¬ ((∃ flagged, s.atlas.dirtyTiles = .ok flagged ∧ t ∈ flagged) ∨ ∃ j told, .listed j told ∈ after ∧ t ∈ told) := by
  have hlog : (run {} (.flat true) [.apply west, .dirty true, .apply east] [0, 1, 2, 1]).log =
      [.cleared 1, .flagged {.ofCoords 576 0}, .listed 1 [.ofCoords 0 0], .flagged {.ofCoords 0 0}] := by cbv
  have hdirty : (run {} (.flat true) [.apply west, .dirty true, .apply east] [0, 1, 2, 1]).atlas.dirtyTiles.toOption =
      some [] := by cbv
  refine ⟨[.cleared 1], _, _, hlog, .ofCoords 576 0, by decide +kernel, ?_⟩
  rintro (⟨flagged, hflagged, hin⟩ | ⟨j, told, hlisted, -⟩)
  · rw [hflagged] at hdirty
    cases hdirty
    cases hin
  · cases List.mem_singleton.1 hlisted

end Sharing
end TileAtlas
