import Palimpsest.Postgres.Replication
import Palimpsest.Postgres.Snapshots

/-! The ingest task over whole runs: sessions, disconnects and reconciliations, with snapshots and
cursors taken between any two of its lock sections. -/
namespace Palimpsest.Postgres
open Dataflow Server Sql Function List

inductive IngestPhase where
  | streaming
  | reconnecting
  | ended
deriving Repr, DecidableEq

/-- The task and the state it shares. The writer calls of the frame or the reconciliation under way
that are still to be made are in `calls`. The values the clock has had are a history variable. -/
structure Ingest (δ : Type) [DecidableEq δ] where
  serving : Serving δ
  fence : SnapshotFence
  pending : Option (PendingTransaction δ)
  calls : List (WriterCall δ)
  phase : IngestPhase
  clocks : List Lsn

inductive IngestAction (δ : Type) [DecidableEq δ] where
  | frame (event : DecodedEvent δ)
  /-- The stream is closed, a frame cannot be decoded or the session cannot be opened. -/
  | disconnect
  | fatal (message : String)
  | shutdown
  /-- A fresh snapshot after a disconnect: its WAL position, its rows and its fence. -/
  | reconcile (lsn : Lsn) (fresh : Inputs δ) (hash : HashOrder δ) (fence : SnapshotFence)
  /-- The next writer call, under the locks, and its store of the clock after them. -/
  | write
  | storeClock
  | copyRows (reader : ℕ) (query : String)
  | readClock (reader : ℕ)
  | openCursor (query : String) (fromLsn : Lsn)

namespace Serving
variable {δ : Type} [DecidableEq δ]

/-- The LSNs of the journal's entries rise, and what is pushed after a snapshot's rows were copied
is above its LSN. -/
structure Sorted (s : Serving δ) : Prop where
  sorted : s.history.Pairwise fun diff later => diff.lsn ≤ later.lsn
  history_le : s.storing = none → ∀ diff ∈ s.history, diff.lsn ≤ s.clock
  storing_le : ∀ lsn ∈ s.storing, s.clock ≤ lsn ∧ ∀ diff ∈ s.history, diff.lsn ≤ lsn
  copied : ∀ reader fetch, s.fetches reader = some fetch → fetch.position ≤ s.history.length ∧
    ∀ diff ∈ s.history.drop fetch.position, s.clock < diff.lsn
  taken : ∀ snapshot ∈ s.snapshots, snapshot.snapshotLsn ≤ s.clock ∧
    snapshot.position ≤ s.history.length ∧
    ∀ diff ∈ s.history.drop snapshot.position, snapshot.snapshotLsn < diff.lsn

/-- A call whose LSN is not below the clock, and above it unless it pushes nothing. -/
def Rises (tables : List TableId) (null : δ) (s : Serving δ) (call : WriterCall δ) : Prop :=
  s.clock ≤ call.lsn ∧ (s.clock < call.lsn ∨
    ∀ result, call.run null tables s.mirror = some result → result.2 = [])

/-- No snapshot in flight copied its rows before the last diffs were pushed. -/
def Settled (s : Serving δ) : Prop :=
  ∀ reader fetch, s.fetches reader = some fetch → s.history.length ≤ fetch.position

omit [DecidableEq δ] in
theorem sorted_seeded (capacity : ℕ) (lsn : Lsn) (rows : Inputs δ) :
    Sorted (seeded capacity lsn rows) where
  sorted := .nil
  history_le := nofun
  storing_le := nofun
  copied := nofun
  taken := nofun

section Steps
variable {s : Serving δ}

theorem Rises.diff_lt (h : Rises tables null s call)
    (hrun : call.run null tables s.mirror = some result) :
    ∀ diff ∈ result.2, s.clock < diff.lsn := by
  intro diff hdiff
  rw [WriterCall.run_lsn null hrun diff hdiff]
  rcases h.2 with hlt | hnone
  · exact hlt
  · simp [hnone result hrun] at hdiff

variable (lower streamed null)

variable (h : Sorted s)
include h

theorem step_write_sorted (hrises : Rises streamed.byId null s call) :
    Sorted (step lower streamed null s (.write call)) := by
  simp only [step]
  split
  next mirror diffs hstore hrun =>
    have hlsn := WriterCall.run_lsn null hrun
    have hlt := hrises.diff_lt hrun
    refine ⟨?_, by rintro ⟨⟩, ?_, ?_, ?_⟩
    · refine pairwise_append.mpr ⟨h.sorted, ?_, ?_⟩
      · exact pairwise_of_forall_mem_list fun diff hdiff later hlater => by
          rw [hlsn diff hdiff, hlsn later hlater]
      · intro diff hdiff later hlater
        exact (h.history_le hstore diff hdiff).trans (hlt later hlater).le
    · intro lsn hmem
      rw [Option.mem_some_iff] at hmem
      subst hmem
      refine ⟨hrises.1, ?_⟩
      exact forall_mem_append.mpr ⟨fun diff hold => (h.history_le hstore diff hold).trans hrises.1,
        fun diff hnew => (hlsn diff hnew).le⟩
    · intro reader fetch hfetch
      obtain ⟨hpos, hdrop⟩ := h.copied reader fetch hfetch
      refine ⟨by rw [length_append]; omega, fun diff hdiff => ?_⟩
      rw [drop_append_of_le_length hpos] at hdiff
      exact (mem_append.mp hdiff).elim (hdrop diff) (hlt diff)
    · intro snap hsnap
      obtain ⟨hle, hpos, hdrop⟩ := h.taken snap hsnap
      refine ⟨hle, by rw [length_append]; omega, fun diff hdiff => ?_⟩
      rw [drop_append_of_le_length hpos] at hdiff
      exact (mem_append.mp hdiff).elim (hdrop diff) fun hnew => hle.trans_lt (hlt diff hnew)
  next => exact h

theorem step_storeClock_sorted (hsettled : Settled s) :
    Sorted (step lower streamed null s .storeClock) := by
  simp only [step]
  split
  next => exact h
  next lsn hstore =>
    obtain ⟨hclock, hle⟩ := h.storing_le lsn hstore
    refine ⟨h.sorted, fun _ => hle, by rintro _ ⟨⟩, ?_, ?_⟩
    · intro reader fetch hfetch
      refine ⟨(h.copied reader fetch hfetch).1, ?_⟩
      -- such a fetch has nothing pushed after it
      intro diff hdiff
      simp [drop_of_length_le (hsettled reader fetch hfetch)] at hdiff
    · intro snap hsnap
      obtain ⟨hlabel, hrest⟩ := h.taken snap hsnap
      exact ⟨hlabel.trans hclock, hrest⟩

theorem step_copyRows_sorted : Sorted (step lower streamed null s (.copyRows reader query)) := by
  simp only [step]
  split
  next =>
    refine ⟨h.sorted, h.history_le, h.storing_le, ?_, h.taken⟩
    intro other fetch hfetch
    rcases update_some hfetch with hold | ⟨-, rfl⟩
    · exact h.copied other fetch hold
    · refine ⟨le_rfl, fun diff hdiff => ?_⟩
      simp at hdiff
  next => exact h

theorem step_readClock_sorted : Sorted (step lower streamed null s (.readClock reader)) := by
  simp only [step]
  split
  next => exact h
  next fetch hfetch =>
    refine ⟨h.sorted, h.history_le, h.storing_le, ?_, ?_⟩
    · intro other fetch' hfetch'
      exact h.copied other fetch' (update_none hfetch').2
    · intro snap hsnap
      rcases mem_append.mp hsnap with hold | hnew
      · exact h.taken snap hold
      · obtain rfl := mem_singleton.mp hnew
        exact ⟨le_rfl, h.copied reader fetch hfetch⟩

theorem step_openCursor_sorted :
    Sorted (step lower streamed null s (.openCursor query fromLsn)) := by
  simp only [step]
  split
  next =>
    split
    next => exact ⟨h.sorted, h.history_le, h.storing_le, h.copied, h.taken⟩
    next => exact h
  next => exact h

end Steps

end Serving

namespace Ingest
variable {δ : Type} [DecidableEq δ]

def seeded (capacity : ℕ) (lsn : Lsn) (rows : Inputs δ) (fence : SnapshotFence) : Ingest δ :=
  ⟨.seeded capacity lsn rows, fence, none, [], .streaming, [lsn]⟩

def idle (s : Ingest δ) : Bool := s.calls.isEmpty && s.serving.storing.isNone

section
variable (lower : String → Except String MirGraph) (streamed : Streamed)
  (tables : TableId → Option IntrospectedTable) (null : δ)

/-- The session reads a frame; a fatal error latches the runtime failed and ends the task. -/
def receive (s : Ingest δ) (event : DecodedEvent δ) : Ingest δ :=
  let outcome := applyFrame tables s.fence s.pending event
  match outcome.result with
  | .ok _ => { s with pending := outcome.pending, calls := outcome.calls }
  | .error (.fatal message) =>
    { s with
      serving := s.serving.step lower streamed null (.fail message)
      pending := none
      phase := .ended }
  | .error (.transport _) => { s with pending := none, phase := .reconnecting }

def step (s : Ingest δ) : IngestAction δ → Ingest δ
  | .frame event =>
    if s.idle ∧ s.phase = .streaming then s.receive lower streamed tables null event else s
  | .disconnect =>
    if s.idle ∧ s.phase = .streaming then { s with pending := none, phase := .reconnecting } else s
  | .fatal message =>
    if s.idle ∧ s.phase = .streaming then
      { s with
        serving := s.serving.step lower streamed null (.fail message)
        pending := none
        phase := .ended }
    else s
  | .shutdown => if s.idle then { s with pending := none, phase := .ended } else s
  | .reconcile lsn fresh hash fence =>
    if s.idle ∧ s.phase = .reconnecting then
      { s with calls := [.reconcileSnapshot lsn fresh hash], fence := fence, phase := .streaming }
    else s
  | .write =>
    match s.serving.storing, s.calls with
    | none, call :: calls =>
      { s with serving := s.serving.step lower streamed null (.write call), calls := calls }
    | _, _ => s
  | .storeClock =>
    match s.serving.storing with
    | none => s
    | some lsn =>
      { s with
        serving := s.serving.step lower streamed null .storeClock
        clocks := s.clocks ++ [lsn] }
  | .copyRows reader query =>
    { s with serving := s.serving.step lower streamed null (.copyRows reader query) }
  | .readClock reader =>
    { s with serving := s.serving.step lower streamed null (.readClock reader) }
  | .openCursor query fromLsn =>
    { s with serving := s.serving.step lower streamed null (.openCursor query fromLsn) }

/-- The LSNs of successive journal entries and of the clock never decrease, and every diff pushed
after a snapshot copied its rows is above the LSN the snapshot was labelled with. -/
def Ordered (s : Ingest δ) : Prop :=
  (s.serving.history.Pairwise fun diff later => diff.lsn ≤ later.lsn) ∧
  s.clocks.Pairwise (· ≤ ·) ∧
  ∀ snapshot ∈ s.serving.snapshots, ∀ diff ∈ s.serving.history.drop snapshot.position,
    snapshot.snapshotLsn < diff.lsn

/-- Commits the fence does not skip, and that touch a streamed table, are above the clock and do not
both truncate and change rows; a reconciliation is above the clock, or at it with the mirror's rows;
and the clock is not stored while a snapshot that copied its rows before the last write has still to
read it. -/
def Rising (s : Ingest δ) : IngestAction δ → Prop
  | .frame (.commit commitLsn) => ∀ transaction ∈ s.pending,
      s.fence.alreadyInSnapshot transaction.xid = false →
      (transaction.truncates = [] ∨ transaction.changes = []) ∧
      (transaction.truncates ≠ [] ∨ transaction.changes ≠ [] → s.serving.clock < commitLsn)
  | .reconcile lsn fresh _ _ => s.serving.clock < lsn ∨
      s.serving.clock = lsn ∧ ∀ table ∈ streamed.byId, (fresh table).Perm (s.serving.mirror table)
  | .storeClock => s.serving.Settled
  | _ => True

/-- What rising steps keep: the shared state is sorted, at most one call is to be made and it rises,
and the clock is the last of its values. -/
structure Tracked (s : Ingest δ) : Prop where
  sorted : s.serving.Sorted
  calls_rise : ∀ call ∈ s.calls, s.serving.Rises streamed.byId null call
  calls_one : s.calls.length ≤ 1
  storing_last : s.serving.storing ≠ none → s.calls = []
  clocks_sorted : s.clocks.Pairwise (· ≤ ·)
  clocks_le : ∀ lsn ∈ s.clocks, lsn ≤ s.serving.clock

end

section Invariant
variable {lower : String → Except String MirGraph} {streamed : Streamed}
  {tables : TableId → Option IntrospectedTable} {null : δ} {s : Ingest δ}

theorem tracked_seeded (capacity : ℕ) (lsn : Lsn) (rows fence) :
    Tracked streamed null (seeded capacity lsn rows fence) where
  sorted := Serving.sorted_seeded capacity lsn rows
  calls_rise := nofun
  calls_one := Nat.zero_le _
  storing_last := fun _ => rfl
  clocks_sorted := pairwise_singleton _ _
  clocks_le := fun _ h => (mem_singleton.mp h).le

theorem idle_iff : s.idle = true ↔ s.calls = [] ∧ s.serving.storing = none := by
  simp [idle]

variable (h : Tracked streamed null s)
include h

theorem Tracked.ordered : Ordered s :=
  ⟨h.sorted.sorted, h.clocks_sorted, fun snap hsnap => (h.sorted.taken snap hsnap).2.2⟩

/-- Steps that leave mirror, clock and the call in its locks alone keep everything but the order of
the shared state. -/
theorem Tracked.serve {serving : Serving δ} (hsort : serving.Sorted)
    (hmirror : serving.mirror = s.serving.mirror) (hclock : serving.clock = s.serving.clock)
    (hstore : serving.storing = s.serving.storing) :
    Tracked streamed null { s with serving := serving } where
  sorted := hsort
  calls_rise := by
    intro call hcall
    have hrises := h.calls_rise call hcall
    unfold Serving.Rises at hrises ⊢
    rw [hmirror, hclock]
    exact hrises
  calls_one := h.calls_one
  storing_last := by
    rw [hstore]
    exact h.storing_last
  clocks_sorted := h.clocks_sorted
  clocks_le := by
    rw [hclock]
    exact h.clocks_le

theorem Tracked.take (hidle : s.idle = true) {calls : List (WriterCall δ)}
    (hcalls : ∀ call ∈ calls, s.serving.Rises streamed.byId null call) (hone : calls.length ≤ 1)
    (fence pending phase) : Tracked streamed null
      { s with calls := calls, fence := fence, pending := pending, phase := phase } where
  sorted := h.sorted
  calls_rise := hcalls
  calls_one := hone
  storing_last := fun hstore => absurd (idle_iff.mp hidle).2 hstore
  clocks_sorted := h.clocks_sorted
  clocks_le := h.clocks_le

theorem Tracked.rest (pending phase) :
    Tracked streamed null { s with pending := pending, phase := phase } :=
  ⟨h.sorted, h.calls_rise, h.calls_one, h.storing_last, h.clocks_sorted, h.clocks_le⟩

omit h

theorem Tracked.fail (lower) (h : Tracked streamed null s) (msg) : Tracked streamed null
      { s with serving := s.serving.step lower streamed null (.fail msg) } :=
  h.serve ⟨h.sorted.sorted, h.sorted.history_le, h.sorted.storing_le, h.sorted.copied,
    h.sorted.taken⟩ rfl rfl rfl

theorem applyFrame_rises (tables) (null : δ) (hmeets : Rising streamed s (.frame event)) :
    (applyFrame tables s.fence s.pending event).calls.length ≤ 1 ∧
    ∀ call ∈ (applyFrame tables s.fence s.pending event).calls,
      s.serving.Rises streamed.byId null call := by
  cases event with
  | commit commitLsn =>
    unfold applyFrame
    cases hpend : s.pending with
    | none => exact ⟨Nat.zero_le _, forall_mem_nil _⟩
    | some txn =>
      dsimp only [commitCalls]
      cases hskip : s.fence.alreadyInSnapshot txn.xid with
      | true => exact ⟨Nat.zero_le _, forall_mem_nil _⟩
      | false =>
        obtain ⟨hone, habove⟩ := hmeets txn hpend hskip
        have hrises : ∀ call : WriterCall δ, call.lsn = commitLsn →
            (txn.truncates ≠ [] ∨ txn.changes ≠ []) →
            s.serving.Rises streamed.byId null call := by
          intro call hlsn htouches
          have hlt := habove htouches
          rw [← hlsn] at hlt
          exact ⟨hlt.le, .inl hlt⟩
        by_cases htrunc : txn.truncates = []
        · by_cases hchanges : txn.changes = []
          · simp [htrunc, hchanges]
          · simpa [htrunc, hchanges] using hrises _ rfl (.inr hchanges)
        · have hchanges := hone.resolve_left htrunc
          simpa [htrunc, hchanges] using hrises _ rfl (.inl htrunc)
  | row =>
    simp only [applyFrame]
    split <;> exact ⟨Nat.zero_le _, forall_mem_nil _⟩
  | schema =>
    simp only [applyFrame]
    split
    · exact ⟨Nat.zero_le _, forall_mem_nil _⟩
    · split <;> exact ⟨Nat.zero_le _, forall_mem_nil _⟩
  | begin | truncate | other => exact ⟨Nat.zero_le _, forall_mem_nil _⟩

include h

theorem receive_tracked (hidle : s.idle = true) (hmeets : Rising streamed s (.frame event)) :
    Tracked streamed null (s.receive lower streamed tables null event) := by
  obtain ⟨hone, hrise⟩ := applyFrame_rises tables null hmeets
  simp only [receive]
  split
  · exact h.take hidle hrise hone s.fence _ s.phase
  · exact (h.fail lower _).rest none .ended
  · exact h.rest none .reconnecting

theorem step_write_tracked : Tracked streamed null (step lower streamed tables null s .write) := by
  simp only [step]
  split
  next call calls hstore hcalls =>
    have hrises : s.serving.Rises streamed.byId null call :=
      h.calls_rise call (by simp [hcalls])
    -- it was the only call left
    have hnil : calls = [] := by
      have hone := h.calls_one
      rw [hcalls, length_cons] at hone
      exact length_eq_zero_iff.mp (by omega)
    have hclock : (s.serving.step lower streamed null (.write call)).clock = s.serving.clock := by
      simp only [Serving.step]
      split <;> rfl
    refine ⟨Serving.step_write_sorted lower streamed null h.sorted hrises, ?_, ?_, fun _ => hnil,
      h.clocks_sorted, ?_⟩
    · rw [hnil]
      exact forall_mem_nil _
    · rw [hnil]
      exact Nat.zero_le _
    · rw [hclock]
      exact h.clocks_le
  next => exact h

theorem step_storeClock_tracked (hmeets : s.serving.Settled) :
    Tracked streamed null (step lower streamed tables null s .storeClock) := by
  simp only [step]
  split
  next => exact h
  next lsn hstore =>
    have hcalls : s.calls = [] := h.storing_last (by rw [hstore]; exact Option.some_ne_none _)
    have hclock : (s.serving.step lower streamed null .storeClock).clock = lsn := by
      simp [Serving.step, hstore]
    have hle : ∀ earlier ∈ s.clocks, earlier ≤ lsn := fun earlier hmem =>
      (h.clocks_le earlier hmem).trans (h.sorted.storing_le lsn hstore).1
    refine ⟨Serving.step_storeClock_sorted lower streamed null h.sorted hmeets, ?_, h.calls_one,
      fun _ => hcalls,
      ?_, ?_⟩
    · rw [hcalls]
      exact forall_mem_nil _
    · refine pairwise_append.mpr ⟨h.clocks_sorted, pairwise_singleton _ _, ?_⟩
      intro earlier hearly later hlater
      rw [mem_singleton.mp hlater]
      exact hle earlier hearly
    · intro value hval
      rw [hclock]
      rcases mem_append.mp hval with hold | hnew
      · exact hle value hold
      · exact (mem_singleton.mp hnew).le

omit h

theorem reconcile_rises {hash : HashOrder δ} {fence : SnapshotFence}
    (hmeets : Rising streamed s (.reconcile lsn fresh hash fence)) :
    s.serving.Rises streamed.byId null (.reconcileSnapshot lsn fresh hash) := by
  rcases hmeets with hlt | ⟨heq, hperm⟩
  · exact ⟨hlt.le, .inl hlt⟩
  · refine ⟨heq.le, .inr fun result hrun => ?_⟩
    cases hrun
    exact foldl_reconcileTable_of_perm lsn fresh hash hperm

theorem step_tracked (h : Tracked streamed null s) (hmeets : Rising streamed s action) :
    Tracked streamed null (step lower streamed tables null s action) := by
  cases action with
  | frame =>
    simp only [step]
    split
    next hwhen => exact receive_tracked h hwhen.1 hmeets
    next => exact h
  | disconnect =>
    simp only [step]
    split
    · exact h.rest none .reconnecting
    · exact h
  | fatal msg =>
    simp only [step]
    split
    · exact (h.fail lower msg).rest none .ended
    · exact h
  | shutdown =>
    simp only [step]
    split
    · exact h.rest none .ended
    · exact h
  | reconcile lsn fresh hash fence =>
    simp only [step]
    split
    next hwhen =>
      refine h.take hwhen.1 ?_ le_rfl fence s.pending .streaming
      intro call hcall
      rw [mem_singleton.mp hcall]
      exact reconcile_rises hmeets
    next => exact h
  | write => exact step_write_tracked h
  | storeClock => exact step_storeClock_tracked h hmeets
  | copyRows =>
    refine h.serve (Serving.step_copyRows_sorted lower streamed null h.sorted) ?_ ?_ ?_ <;>
    · simp only [Serving.step]
      split <;> rfl
  | readClock =>
    refine h.serve (Serving.step_readClock_sorted lower streamed null h.sorted) ?_ ?_ ?_ <;>
    · simp only [Serving.step]
      split <;> rfl
  | openCursor =>
    refine h.serve (Serving.step_openCursor_sorted lower streamed null h.sorted) ?_ ?_ ?_ <;>
    · simp only [Serving.step]
      split
      · split <;> rfl
      · rfl

/-- Over every run of rising steps, whatever was seeded, journal and clock are ordered, and no diff
pushed after a snapshot is hidden from a cursor that starts at the snapshot's LSN. -/
theorem ordered_of_rising (capacity : ℕ) (lsn : Lsn) (rows : Inputs δ) (fence : SnapshotFence)
    (h : Runs.Reached (step lower streamed tables null) (Rising streamed)
      (seeded capacity lsn rows fence) s) : Ordered s ∧ ∀ snapshot ∈ s.serving.snapshots,
      ∀ diff ∈ s.serving.history.drop snapshot.position, ∀ cursor : JournalCursor,
        cursor.fromLsn = snapshot.snapshotLsn → ∀ table ∈ cursor.tables,
          diff.table = some table → cursor.relevant diff = true := by
  have htracked : Tracked streamed null s := h.invariant (tracked_seeded capacity lsn rows fence)
    fun _ _ htracked hmeets => step_tracked htracked hmeets
  refine ⟨htracked.ordered, fun snapshot hsnap diff hdiff cursor hfrom table htab hdiffTable => ?_⟩
  have hlt := htracked.ordered.2.2 snapshot hsnap diff hdiff
  rw [← hfrom] at hlt
  simp [JournalCursor.relevant, hlt, hdiffTable, htab]

end Invariant

section
open Serving (oneTable lowerT)

def stepT : Ingest ℕ → IngestAction ℕ → Ingest ℕ := step lowerT oneTable oneStreamed 0

/-- The frames of a transaction that inserts one row, and the writer call they lead to. -/
def insertAt (xid : ℕ) (commitLsn : Lsn) : List (IngestAction ℕ) :=
  [.frame (.begin xid), .frame (.row ⟨7, .insert, none, some [.value 2]⟩),
    .frame (.commit commitLsn), .write, .storeClock]

def snapshotT : List (IngestAction ℕ) := [.copyRows 0 "q", .readClock 0]

def emptyAt (lsn : Lsn) (fence : SnapshotFence) : Ingest ℕ := seeded 8 lsn (fun _ => []) fence

def quietRun : List (IngestAction ℕ) := snapshotT ++ insertAt 70 130

theorem quiet_run_ordered : (quietRun.foldl stepT (emptyAt 120 ⟨60, []⟩)).clocks = [120, 130] ∧
    (quietRun.foldl stepT (emptyAt 120 ⟨60, []⟩)).serving.snapshots.map (·.snapshotLsn) = [120] ∧
    Ordered (quietRun.foldl stepT (emptyAt 120 ⟨60, []⟩)) := by
  refine ⟨by decide +kernel, by decide +kernel, (ordered_of_rising 8 120 (fun _ => []) ⟨60, []⟩
    (Runs.Schedule.reached ?_ .start)).1⟩
  refine .cons trivial (.cons trivial (.cons trivial (.cons trivial (.cons ?_ (.cons trivial
    (.cons ?_ (.nil _)))))))
  · rintro transaction h _
    cases h
    exact ⟨.inl rfl, fun _ => by decide⟩
  · intro reader fetch hfetch
    change update (update (fun _ => none) 0 (some ⟨[(7, [])], 0⟩)) 0 none reader =
      some fetch at hfetch
    obtain ⟨hread, hwas⟩ := update_none hfetch
    simp [update_of_ne hread] at hwas

/-- The WAL position is read in the statement that takes the snapshot, but after the snapshot is
taken: a transaction in progress there may have committed below the position. -/
def lateCommit : List (IngestAction ℕ) := snapshotT ++ insertAt 50 100

/-- The two writer calls of one commit, with a snapshot between them. -/
def splitCommit : List (IngestAction ℕ) :=
  [.frame (.begin 70), .frame (.truncate [7]),
    .frame (.row ⟨7, .insert, none, some [.value 2]⟩), .frame (.commit 130), .write, .storeClock] ++
  snapshotT ++ [.write, .storeClock]

theorem late_commit_disorders :
    (∃ s, Runs.Reached stepT (fun _ _ => True) (emptyAt 120 ⟨60, [50]⟩) s ∧ ¬ Ordered s ∧
      s.clocks = [120, 100] ∧ ∃ diff ∈ s.serving.history,
        (⟨0, 120, [7], false⟩ : JournalCursor).relevant diff = false) ∧
    ∃ s, Runs.Reached stepT (fun _ _ => True) (emptyAt 120 ⟨60, []⟩) s ∧ ¬ Ordered s := by
  refine ⟨⟨lateCommit.foldl stepT (emptyAt 120 ⟨60, [50]⟩),
    (Runs.Schedule.free _ _ _).reached .start,
    ?_, by decide +kernel, addition 100 7 [2], by decide +kernel, by decide⟩,
    splitCommit.foldl stepT (emptyAt 120 ⟨60, []⟩), (Runs.Schedule.free _ _ _).reached .start, ?_⟩
  · rintro ⟨-, hclocks, -⟩
    revert hclocks
    decide +kernel
  · rintro ⟨-, -, habove⟩
    have hsnapshots : (splitCommit.foldl stepT (emptyAt 120 ⟨60, []⟩)).serving.snapshots.map
        (fun snapshot => (snapshot.snapshotLsn, snapshot.position)) = [(130, 0)] := by
      decide +kernel
    obtain ⟨snapshot, hsnap, hlabel⟩ := mem_map.mp
      (show (130, 0) ∈ _ from hsnapshots ▸ mem_singleton.mpr rfl)
    obtain ⟨hlsn, hpos⟩ := Prod.mk.inj hlabel
    have hlt := habove snapshot hsnap (addition 130 7 [2])
    rw [hlsn, hpos] at hlt
    exact absurd (hlt (by decide +kernel)) (by decide)

end

end Ingest

end Palimpsest.Postgres
