import Palimpsest.Foundation.Runs
import Palimpsest.Postgres.Runtime

/-! Snapshots and cursors taken while the ingest task writes: every interleaving of lock
sections. -/
namespace Palimpsest.Postgres
open Dataflow Server Sql Function List

/-- The streamed tables, by id and by the names a query may use for them. -/
structure Streamed where
  byId : List TableId
  byName : List (String × TableId)

def baseTableNames (graph : MirGraph) : List String :=
  graph.baseTableIndices.filterMap fun index =>
    match graph.kind? index with
    | some (.baseTable table _) => some table
    | _ => none

/-- Base tables of a query, each once, resolved against the streamed set. -/
def queryTables (lower : String → Except String MirGraph) (streamed : Streamed) (query : String) :
    Except String (List TableId) :=
  match lower query with
  | .error err => .error ("query does not parse: " ++ err)
  | .ok graph => (baseTableNames graph).eraseDups.mapM fun table =>
    match streamed.byName.lookup table with
    | some id => .ok id
    | none => .error ("table '" ++ table ++
        "' is not in the streamed set (derived from the query registry)")

/-- Rows copied under the mirror lock, before the clock is read. The position is a history
variable: how much had been pushed to the journal. -/
structure Fetch (δ : Type) where
  rows : List (TableId × List (Row δ))
  position : ℕ

structure SnapshotBatch (δ : Type) where
  snapshotLsn : Lsn
  rows : List (TableId × List (Row δ))
  position : ℕ

/-- A cursor with what it has yielded. -/
structure ReadCursor (δ : Type) extends JournalCursor where
  yielded : List (RawDiff δ)

def ReadCursor.nextDiff (journal : Journal δ) (cursor : ReadCursor δ) : ReadCursor δ :=
  let taken := cursor.toJournalCursor.nextDiff journal
  ⟨taken.2, cursor.yielded ++ taken.1.toList⟩

/-- The shared state. A writer call that has released the locks and not yet stored the clock is in
`storing`. The history, the snapshots returned and what cursors have yielded are history
variables. -/
structure Serving (δ : Type) where
  mirror : Inputs δ
  journal : Journal δ
  clock : Lsn
  failed : Option String
  storing : Option Lsn
  fetches : ℕ → Option (Fetch δ)
  history : List (RawDiff δ)
  snapshots : List (SnapshotBatch δ)
  cursors : List (ReadCursor δ)

inductive ServingAction (δ : Type) [DecidableEq δ] where
  /-- The part of a writer call under the mirror and journal locks. -/
  | write (call : WriterCall δ)
  | storeClock
  /-- The two parts of `fetch_snapshot`. -/
  | copyRows (reader : ℕ) (query : String)
  | readClock (reader : ℕ)
  | openCursor (query : String) (fromLsn : Lsn)
  | nextDiff (index : ℕ)
  | fail (message : String)

namespace Serving
variable {δ : Type}

def seeded (capacity : ℕ) (lsn : Lsn) (rows : Inputs δ) : Serving δ :=
  ⟨rows, .new capacity, lsn, none, none, fun _ => none, [], [], []⟩

variable [DecidableEq δ] (lower : String → Except String MirGraph) (streamed : Streamed) (null : δ)

def step (s : Serving δ) : ServingAction δ → Serving δ
  | .write call =>
    match s.storing, call.run null streamed.byId s.mirror with
    | none, some (mirror, diffs) =>
      { s with
        mirror := mirror
        journal := s.journal.pushAll diffs
        history := s.history ++ diffs
        storing := some call.lsn }
    | _, _ => s
  | .storeClock =>
    match s.storing with
    | none => s
    | some lsn => { s with clock := lsn, storing := none }
  | .copyRows reader query =>
    match s.failed, s.fetches reader, queryTables lower streamed query with
    | none, none, .ok tables =>
      let fetch : Fetch δ := ⟨tables.map fun table => (table, s.mirror table), s.history.length⟩
      { s with fetches := update s.fetches reader (some fetch) }
    | _, _, _ => s
  | .readClock reader =>
    match s.fetches reader with
    | none => s
    | some fetch =>
      { s with
        fetches := update s.fetches reader none
        snapshots := s.snapshots ++ [⟨s.clock, fetch.rows, fetch.position⟩] }
  | .openCursor query fromLsn =>
    match s.failed, queryTables lower streamed query with
    | none, .ok tables =>
      match Postgres.openCursor s.journal tables fromLsn with
      | .ok cursor => { s with cursors := s.cursors ++ [⟨cursor, []⟩] }
      | .error _ => s
    | _, _ => s
  | .nextDiff index =>
    { s with cursors := s.cursors.mapIdx fun i cursor =>
        if i = index then cursor.nextDiff s.journal else cursor }
  | .fail message => { s with failed := s.failed.or (some message) }

/-- The rows of a snapshot, what a cursor from its LSN has yielded and what it will yield make up
the mirror. -/
def Reproduces (s : Serving δ) (snapshot : SnapshotBatch δ) (cursor : ReadCursor δ) : Prop :=
  ∀ entry ∈ snapshot.rows, entry.1 ∈ cursor.tables → ∀ row,
    (entry.2.count row : ℤ) + effect (cursor.yielded ++ cursor.remaining s.journal) entry.1 row =
      (s.mirror entry.1).count row

/-- Writer calls come at rising LSNs and name rows that are there, and no snapshot is taken across
one: rows are not copied before the clock of the last call is stored, and nothing is written before
a snapshot that copied its rows has read the clock. -/
def Steady (s : Serving δ) : ServingAction δ → Prop
  | .write call => s.clock < call.lsn ∧ (∀ reader, s.fetches reader = none) ∧
      call.Present null s.mirror
  | .copyRows _ _ => s.storing = none
  | .storeClock | .readClock _ | .openCursor _ _ | .nextDiff _ | .fail _ => True

section Invariant
variable {s : Serving δ}

/-- Under steady steps the clock bounds the journal, copied rows are the mirror's, and each snapshot
with the diffs above its LSN makes up the mirror. -/
structure Labelled (s : Serving δ) : Prop where
  holds : s.journal.Holds s.history
  history_le : s.storing = none → ∀ diff ∈ s.history, diff.lsn ≤ s.clock
  storing_le : ∀ lsn ∈ s.storing, s.clock < lsn ∧ ∀ diff ∈ s.history, diff.lsn ≤ lsn
  copied : ∀ reader fetch, s.fetches reader = some fetch → s.storing = none ∧
    ∀ entry ∈ fetch.rows, entry.2 = s.mirror entry.1
  taken : ∀ snapshot ∈ s.snapshots, snapshot.snapshotLsn ≤ s.clock ∧
    ∀ entry ∈ snapshot.rows, ∀ row, (entry.2.count row : ℤ) +
      effect (s.history.filter fun diff => decide (snapshot.snapshotLsn < diff.lsn)) entry.1 row =
        (s.mirror entry.1).count row
  opened : ∀ cursor ∈ s.cursors, cursor.nextSeq ≤ s.history.length ∧
    cursor.yielded ++ cursor.pending s.history = s.history.filter cursor.relevant

theorem labelled_seeded (capacity : ℕ) (lsn : Lsn) (rows : Inputs δ) :
    Labelled (seeded capacity lsn rows) where
  holds := Journal.holds_new capacity
  history_le := nofun
  storing_le := nofun
  copied := nofun
  taken := nofun
  opened := nofun

variable {lower streamed null}

variable (h : Labelled s)
include h

theorem step_write_labelled (hmeets : Steady null s (.write call)) :
    Labelled (step lower streamed null s (.write call)) := by
  obtain ⟨hclock, hidle, hpres⟩ := hmeets
  simp only [step]
  split
  next mirror diffs hstore hrun =>
    have haccounts := WriterCall.run_accounts null hpres hrun
    have hlsn := WriterCall.run_lsn null hrun
    refine ⟨h.holds.pushAll diffs, nofun, ?_, ?_, ?_, ?_⟩
    · intro lsn hlsn'
      rw [Option.mem_some_iff] at hlsn'
      subst hlsn'
      refine ⟨hclock, ?_⟩
      exact forall_mem_append.mpr ⟨fun diff hold => (h.history_le hstore diff hold).trans hclock.le,
        fun diff hnew => (hlsn diff hnew).le⟩
    · intro reader fetch hfetch
      simp [show s.fetches reader = none from hidle reader] at hfetch
    · intro snap hsnap
      obtain ⟨hle, hrows⟩ := h.taken snap hsnap
      refine ⟨hle, fun entry hentry row => ?_⟩
      -- the new diffs lie above every label that was given so far
      have hall : diffs.filter (fun diff => decide (snap.snapshotLsn < diff.lsn)) = diffs := by
        rw [filter_eq_self]
        intro diff hdiff
        rw [hlsn diff hdiff, decide_eq_true_eq]
        exact hle.trans_lt hclock
      have hcount := hrows entry hentry row
      have hnow := haccounts entry.1 row
      dsimp only at hnow ⊢
      rw [filter_append, hall, effect_append]
      omega
    · intro cursor hcursor
      obtain ⟨hseq, hpend⟩ := h.opened cursor hcursor
      refine ⟨?_, ?_⟩
      · rw [length_append]
        exact hseq.trans (Nat.le_add_right _ _)
      · rw [JournalCursor.pending_append hseq, ← append_assoc, hpend, filter_append]
  next => exact h

theorem step_storeClock_labelled : Labelled (step lower streamed null s .storeClock) := by
  simp only [step]
  split
  next => exact h
  next lsn hstore =>
    obtain ⟨hclock, hle⟩ := h.storing_le lsn hstore
    refine ⟨h.holds, fun _ => hle, nofun, ?_, ?_, h.opened⟩
    · intro reader fetch hfetch
      exact ⟨rfl, (h.copied reader fetch hfetch).2⟩
    · intro snap hsnap
      obtain ⟨hlabel, hrows⟩ := h.taken snap hsnap
      exact ⟨hlabel.trans hclock.le, hrows⟩

theorem step_copyRows_labelled (hmeets : Steady null s (.copyRows reader query)) :
    Labelled (step lower streamed null s (.copyRows reader query)) := by
  simp only [step]
  split
  next tables _ _ _ =>
    refine ⟨h.holds, h.history_le, h.storing_le, ?_, h.taken, h.opened⟩
    intro other fetch hfetch
    refine ⟨hmeets, ?_⟩
    rcases update_some hfetch with hold | ⟨-, rfl⟩
    · exact (h.copied other fetch hold).2
    · refine forall_mem_map.mpr fun table _ => ?_
      rfl
  next => exact h

theorem step_readClock_labelled : Labelled (step lower streamed null s (.readClock reader)) := by
  simp only [step]
  split
  next => exact h
  next fetch hfetch =>
    obtain ⟨hstore, hcopy⟩ := h.copied reader fetch hfetch
    refine ⟨h.holds, h.history_le, h.storing_le, ?_, ?_, h.opened⟩
    · intro other fetch' hfetch'
      exact h.copied other fetch' (update_none hfetch').2
    · intro snap hsnap
      rcases mem_append.mp hsnap with hold | hnew
      · exact h.taken snap hold
      · obtain rfl := mem_singleton.mp hnew
        refine ⟨le_rfl, fun entry hentry row => ?_⟩
        -- nothing is above the clock yet
        have hnone : s.history.filter (fun diff => decide (s.clock < diff.lsn)) = [] := by
          rw [filter_eq_nil_iff]
          intro diff hdiff
          simpa using h.history_le hstore diff hdiff
        rw [hnone, effect_nil, add_zero, hcopy entry hentry]

theorem step_openCursor_labelled :
    Labelled (step lower streamed null s (.openCursor query fromLsn)) := by
  simp only [step]
  split
  next tables _ _ =>
    split
    next cursor hopen =>
      refine ⟨h.holds, h.history_le, h.storing_le, h.copied, h.taken, fun cursor' hcursor' => ?_⟩
      rcases mem_append.mp hcursor' with hold | hnew
      · exact h.opened cursor' hold
      · obtain rfl := mem_singleton.mp hnew
        obtain ⟨hnew, hpend⟩ := openCursor_pending h.holds hopen
        refine ⟨?_, hpend⟩
        rw [hnew]
        exact h.holds.base_le
    next => exact h
  next => exact h

theorem step_nextDiff_labelled : Labelled (step lower streamed null s (.nextDiff index)) := by
  refine ⟨h.holds, h.history_le, h.storing_le, h.copied, h.taken, fun cursor' hcursor' => ?_⟩
  obtain ⟨i, hi, rfl⟩ := mem_mapIdx.mp hcursor'
  obtain ⟨hseq, hpend⟩ := h.opened _ (getElem_mem hi)
  split
  · obtain ⟨hsame, htake, hle⟩ := JournalCursor.nextDiff_takes _ h.holds
    rw [← htake, ← append_assoc, ← hsame.relevant_eq] at hpend
    exact ⟨hle.trans (max_le hseq le_rfl), hpend⟩
  · exact ⟨hseq, hpend⟩

theorem step_labelled (hmeets : Steady null s action) :
    Labelled (step lower streamed null s action) := by
  cases action with
  | write => exact step_write_labelled h hmeets
  | storeClock => exact step_storeClock_labelled h
  | copyRows => exact step_copyRows_labelled h hmeets
  | readClock => exact step_readClock_labelled h
  | openCursor => exact step_openCursor_labelled h
  | nextDiff => exact step_nextDiff_labelled h
  | fail => exact ⟨h.holds, h.history_le, h.storing_le, h.copied, h.taken, h.opened⟩

theorem Labelled.reproduces (hsnap : snap ∈ s.snapshots) (hcursor : cursor ∈ s.cursors)
    (hfrom : cursor.fromLsn = snap.snapshotLsn) (hover : ¬ cursor.Overtaken s.journal) :
    Reproduces s snap cursor := by
  intro entry hentry htab row
  rw [JournalCursor.remaining_eq_pending h.holds hover, (h.opened cursor hcursor).2,
    ← (h.taken snap hsnap).2 entry hentry row]
  congr 1
  apply effect_filter_congr
  intro diff _ hdiff
  simp [JournalCursor.relevant, hdiff, hfrom, htab]

omit h

/-- In every run of steady steps, whatever was seeded and whatever the capacity, the rows of each
snapshot and the diffs of each cursor from its LSN make up the mirror. -/
theorem snapshot_reproduces (capacity : ℕ) (lsn : Lsn) (rows : Inputs δ)
    (h : Runs.Reached (step lower streamed null) (Steady null) (seeded capacity lsn rows) s) :
    ∀ snapshot ∈ s.snapshots, ∀ cursor ∈ s.cursors, cursor.fromLsn = snapshot.snapshotLsn →
      ¬ cursor.Overtaken s.journal → Reproduces s snapshot cursor := by
  have hlabel : Labelled s := h.invariant (labelled_seeded capacity lsn rows)
    fun _ _ hlabel hmeets => step_labelled hlabel hmeets
  intro snapshot hsnap cursor hcursor hfrom hover
  exact hlabel.reproduces hsnap hcursor hfrom hover

end Invariant

section

def oneTable : Streamed := ⟨[7], [("t", 7)]⟩

def lowerT : String → Except String MirGraph := fun _ => .ok (.new (.baseTable "t" []))

def oneRow : Serving ℕ := seeded 8 1 fun table => if table = 7 then [[1]] else []

def insertTwo : WriterCall ℕ := .applyTransaction 2 [⟨7, .insert, none, some [.value 2]⟩]

def quietSnapshot : List (ServingAction ℕ) :=
  [.copyRows 0 "q", .readClock 0, .write insertTwo, .storeClock, .openCursor "q" 1, .nextDiff 0]

def after (actions : List (ServingAction ℕ)) : Serving ℕ :=
  actions.foldl (step lowerT oneTable 0) oneRow

theorem quiet_snapshot_reproduces : (after quietSnapshot).snapshots.map (·.snapshotLsn) = [1] ∧
    (after quietSnapshot).cursors.map (·.fromLsn) = [1] ∧
    ∀ snapshot ∈ (after quietSnapshot).snapshots, ∀ cursor ∈ (after quietSnapshot).cursors,
      cursor.fromLsn = snapshot.snapshotLsn → ¬ cursor.Overtaken (after quietSnapshot).journal →
        Reproduces (after quietSnapshot) snapshot cursor := by
  refine ⟨by decide, by decide, snapshot_reproduces 8 1 _ (Runs.Schedule.reached ?_ .start)⟩
  refine .cons rfl (.cons trivial (.cons ⟨by decide, fun reader => ?_, trivial, trivial⟩
    (.cons trivial (.cons trivial (.cons trivial (.nil _))))))
  by_cases hread : reader = 0
  · rw [hread]
    rfl
  · exact (update_of_ne hread _ _).trans (update_of_ne hread _ _)

/-- A transaction is applied between the copy of the rows and the reading of the clock. -/
def racingSnapshot : List (ServingAction ℕ) :=
  [.copyRows 0 "q", .write insertTwo, .storeClock, .readClock 0, .openCursor "q" 2]

theorem racing_snapshot_misses :
    ∃ s, Runs.Reached (step lowerT oneTable 0) (fun _ _ => True) oneRow s ∧
    ∃ snapshot ∈ s.snapshots, ∃ cursor ∈ s.cursors, cursor.fromLsn = snapshot.snapshotLsn ∧
      ¬ cursor.Overtaken s.journal ∧ ¬ Reproduces s snapshot cursor := by
  refine ⟨after racingSnapshot, (Runs.Schedule.free _ _ _).reached .start,
    ⟨2, [(7, [[1]])], 0⟩, mem_singleton.mpr rfl, ⟨⟨0, 2, [7], false⟩, []⟩,
    mem_singleton.mpr rfl, rfl, by decide, fun h => ?_⟩
  have hrow := h (7, [[1]]) mem_cons_self (by decide) [2]
  revert hrow
  decide

end

end Serving

end Palimpsest.Postgres
