import Palimpsest.Dataflow.Plan
import Palimpsest.Foundation.Changes

/-! The worker thread of a plan and the host over it: seed, advance, step, drain, and fold the
deltas into the cached view. -/
namespace Palimpsest.Dataflow
open Sql Function List

def maxLsn : Lsn := 2 ^ 64 - 1

structure Update (δ : Type) where
  row : Row δ
  time : Lsn
  diff : ℤ

/-- What the thread holds: everything sent through the input session of each table, and the time all
sessions stand at. A failed assertion ends the thread. -/
structure Worker (δ : Type) where
  plan : Plan δ
  updates : TableId → List (Update δ)
  frontier : Lsn
  alive : Bool

/-- How the dataflow is run: the values it works on, a bound on the rounds of its loops, and the
order in which it emits the changes of one time. -/
structure Runtime (δ : Type) [DecidableEq δ] where
  values : Datums δ
  rounds : ℕ
  listing : Changes.Listing (Row δ)

namespace Worker
variable {δ : Type} [DecidableEq δ] (runtime : Runtime δ)

def spawn (plan : Plan δ) : Worker δ := ⟨plan, fun _ => [], 0, true⟩

def upTo (updates : List (Update δ)) (time : Lsn) : List (Row δ × ℤ) :=
  (updates.filter fun update => update.time ≤ time).map fun update => (update.row, update.diff)

variable (worker : Worker δ)

def input (table : TableId) : Collection (Row δ) := fun time =>
  some (Changes.total (upTo (worker.updates table) time))

def output : Collection (Row δ) :=
  install runtime.values runtime.rounds worker.input worker.plan none

def before (collection : Collection (Row δ)) (time : Lsn) : Option (Multiset (Row δ)) :=
  if time = 0 then some 0 else collection (time - 1)

def emittedAt (time : Lsn) : List (AggregateDelta δ) :=
  match before (worker.output runtime) time, worker.output runtime time with
  | some old, some new => (Changes.between runtime.listing old new).map fun change =>
      ⟨change.1, time, change.2⟩
  | _, _ => []

def times (target : Lsn) : List Lsn :=
  let all := 0 :: worker.plan.tables.flatMap fun table => (worker.updates table).map (·.time)
  (all.dedup.insertionSort (· ≤ ·)).filter fun time => worker.frontier ≤ time ∧ time < target

/-- Advances every session to the target and steps until the output has passed it; what was
captured on the way is drained. -/
def advanceAndStep (target : Lsn) : List (AggregateDelta δ) × Worker δ :=
  ((worker.times target).flatMap (worker.emittedAt runtime), { worker with frontier := target })

/-- Sends one batch of signed rows into the sessions of the plan's tables. -/
def send (diffs : List (TableDiff δ)) (lsn : Lsn) : Worker δ :=
  { worker with updates := fun table =>
      if table ∈ worker.plan.tables then
        worker.updates table ++
          (diffs.filter fun diff => diff.1 = table).map fun diff => ⟨diff.2.1, lsn, diff.2.2⟩
      else worker.updates table }

def seedDiffs (plan : Plan δ) (inputs : Inputs δ) : List (TableDiff δ) :=
  plan.tables.dedup.flatMap fun table => (inputs table).map fun row => (table, row, 1)

/-- Seeds the inputs at LSN 0 and advances to 1. Rows are reported once, whatever their count. -/
def seed (inputs : Inputs δ) : List (Row δ) × Worker δ :=
  let advanced := (worker.send (seedDiffs worker.plan inputs) 0).advanceAndStep runtime 1
  ((advanced.1.filter fun delta => 0 < delta.diff).map (·.row), advanced.2)

def nextLsn (lsn : Lsn) : Lsn := min (lsn + 1) maxLsn

/-- Sessions refuse times they have passed. -/
def regresses (diffs : List (TableDiff δ)) (lsn : Lsn) : Bool :=
  (diffs.any fun diff => decide (diff.1 ∈ worker.plan.tables) && decide (lsn < worker.frontier)) ||
    (!worker.plan.tables.isEmpty && decide (nextLsn lsn < worker.frontier))

/-- Applies a batch at its LSN. Nothing is answered by a thread that has ended. -/
def apply (diffs : List (TableDiff δ)) (lsn : Lsn) : List (AggregateDelta δ) × Worker δ :=
  if !worker.alive then ([], worker)
  else if worker.regresses diffs lsn then ([], { worker with alive := false })
  else (worker.send diffs lsn).advanceAndStep runtime (nextLsn lsn)

def serve : DataflowCommand δ → Worker δ
  | .seed inputs => (worker.seed runtime inputs).2
  | .apply diffs lsn => (worker.apply runtime diffs lsn).2

def replay (plan : Plan δ) (commands : List (DataflowCommand δ)) : Worker δ :=
  commands.foldl (serve runtime) (spawn plan)

end Worker

section
variable {δ : Type} [DecidableEq δ]

def engineOf (runtime : Runtime δ) (lowered : MirGraph → Option (Plan δ)) : Engine δ where
  compile graph := (lowered graph).map Plan.tables
  snapshotRun plan inputs := ((lowered plan.graph).map fun p =>
    ((Worker.spawn p).seed runtime inputs).1).getD []
  seedReply plan inputs := ((lowered plan.graph).map fun p =>
    ((Worker.spawn p).seed runtime inputs).1).getD []
  applyReply plan commands diffs lsn := ((lowered plan.graph).map fun p =>
    ((Worker.replay runtime p commands).apply runtime diffs lsn).1).getD []
  rowsOf plan := fun row => ∃ p, lowered plan.graph = some p ∧
    ((∃ inputs, row ∈ ((Worker.spawn p).seed runtime inputs).1) ∨
      ∃ commands diffs lsn,
        ∃ delta ∈ ((Worker.replay runtime p commands).apply runtime diffs lsn).1,
        delta.row = row)
  mem_snapshotRun plan inputs row h := by
    cases hplan : lowered plan.graph with
    | none => simp [hplan] at h
    | some p => exact ⟨p, rfl, .inl ⟨inputs, by simpa [hplan] using h⟩⟩
  mem_seedReply plan inputs row h := by
    cases hplan : lowered plan.graph with
    | none => simp [hplan] at h
    | some p => exact ⟨p, rfl, .inl ⟨inputs, by simpa [hplan] using h⟩⟩
  mem_applyReply plan commands diffs lsn delta h := by
    cases hplan : lowered plan.graph with
    | none => simp [hplan] at h
    | some p => exact ⟨p, rfl, .inr ⟨commands, diffs, lsn, delta, by simpa [hplan] using h, rfl⟩⟩

end

/-! Folding deltas into a list of rows. -/
section
variable {δ : Type} [DecidableEq δ]

theorem count_retract (rows : List (Row δ)) (row other) :
    (retract rows row).count other = rows.count other - if other = row then 1 else 0 := by
  unfold retract
  split
  next pos hplace =>
    obtain ⟨hlt, heq, -⟩ := idxOf?_eq_some_iff.mp hplace
    have hget : rows[pos]? = some row := by
      rw [getElem?_eq_getElem hlt]
      simpa using heq
    have hperm := IndexedDigraph.swapRemove_perm hget
    have hcount := hperm.count_eq other
    rcases eq_or_ne other row with rfl | hother
    · simp at hcount ⊢
      omega
    · have hne : row ≠ other := fun h => hother h.symm
      simp [hother, hne] at hcount ⊢
      omega
  next hnone =>
    rw [idxOf?_eq_none_iff] at hnone
    rcases eq_or_ne other row with rfl | hother
    · simp [count_eq_zero_of_not_mem hnone]
    · simp [hother]

theorem count_iterate_retract (row other : Row δ) (n : ℕ) (rows) :
    (Nat.iterate (fun rows => retract rows row) n rows).count other =
      rows.count other - if other = row then n else 0 := by
  induction n generalizing rows with
  | zero => simp
  | succ n ih =>
    rw [iterate_succ_apply, ih, count_retract]
    split <;> omega

/-- Deltas of different rows, none of which takes away more than there is, change the counts by
what they say. -/
theorem count_applyDeltasToCache (hnd : (deltas.map (·.row)).Nodup)
    (henough : ∀ delta ∈ deltas, -delta.diff ≤ rows.count delta.row) (row : Row δ) :
    ((applyDeltasToCache rows deltas).count row : ℤ) =
      rows.count row + SignedBag.net (deltas.map fun delta => (delta.row, delta.diff)) row := by
  induction deltas generalizing rows with
  | nil => simp [applyDeltasToCache]
  | cons delta deltas ih =>
    rw [map_cons, nodup_cons] at hnd
    have hfirst := henough delta mem_cons_self
    have hone : ∀ other, ((applyDeltaToCache rows delta).count other : ℤ) =
        rows.count other + if delta.row = other then delta.diff else 0 := by
      intro other
      unfold applyDeltaToCache
      split
      next hpos =>
        rw [count_append, count_replicate]
        by_cases hother : delta.row = other
        · simp [hother]
          omega
        · simp [hother]
      next hneg =>
        rw [count_iterate_retract]
        rcases eq_or_ne delta.row other with rfl | hother
        · simp
          omega
        · have hne : other ≠ delta.row := fun h => hother h.symm
          simp [hother, hne]
    rw [applyDeltasToCache, foldl_cons, ← applyDeltasToCache, ih hnd.2, hone, map_cons,
      SignedBag.net_cons]
    · ring
    · intro later hlater
      have hne : delta.row ≠ later.row := fun h => hnd.1 (h ▸ mem_map_of_mem hlater)
      rw [hone, if_neg hne]
      exact henough later (mem_cons_of_mem _ hlater)

end

structure Batch (δ : Type) where
  diffs : List (TableDiff δ)
  lsn : Lsn

section
variable {δ : Type}

def Batch.changes (batch : Batch δ) (table : TableId) : List (Row δ × ℤ) :=
  (batch.diffs.filter fun diff => diff.1 = table).map fun diff => diff.2

def changesOf (seed : Inputs δ) (batches : List (Batch δ)) (table : TableId) : List (Row δ × ℤ) :=
  (seed table).map (fun row => (row, 1)) ++ batches.flatMap fun batch => batch.changes table

def accumulated [DecidableEq δ] (seed : Inputs δ) (batches : List (Batch δ)) (table : TableId) :
    Multiset (Row δ) :=
  Changes.total (changesOf seed batches table)

theorem changesOf_concat (seed : Inputs δ) (batches : List (Batch δ)) (batch : Batch δ)
    (table : TableId) :
    changesOf seed (batches ++ [batch]) table = changesOf seed batches table ++
      batch.changes table := by
  simp [changesOf]

def value [DecidableEq δ] (runtime : Runtime δ) (plan : Plan δ) (seed : Inputs δ)
    (batches : List (Batch δ)) : Option (Multiset (Row δ)) :=
  eval runtime.values runtime.rounds (accumulated seed batches) plan none

end

namespace Worker
variable {δ : Type} [DecidableEq δ]
variable {worker : Worker δ}

def timed (seed : Inputs δ) (batches : List (Batch δ)) (table : TableId) : List (Update δ) :=
  (seed table).map (fun row => ⟨row, 0, 1⟩) ++ batches.flatMap fun batch =>
    (batch.changes table).map fun change => ⟨change.1, batch.lsn, change.2⟩

/-- The worker has been fed the seed and some batches, and stands just past all of them. -/
structure Fed (plan : Plan δ) (seed : Inputs δ) (batches : List (Batch δ)) (worker : Worker δ) :
    Prop where
  plan_eq : worker.plan = plan
  alive : worker.alive = true
  updates : ∀ table ∈ plan.tables, worker.updates table = timed seed batches table
  frontier_pos : 0 < worker.frontier
  passed : ∀ batch ∈ batches, batch.lsn < worker.frontier
  frontier_le : ∀ lsn, 0 < lsn → (∀ batch ∈ batches, batch.lsn < lsn) → worker.frontier ≤ lsn

omit [DecidableEq δ] in
theorem upTo_timed (seed : Inputs δ) {batches : List (Batch δ)} {time : Lsn}
    (h : ∀ batch ∈ batches, batch.lsn ≤ time) (table : TableId) :
    upTo (timed seed batches table) time = changesOf seed batches table := by
  have hall : (timed seed batches table).filter (fun update => update.time ≤ time) =
      timed seed batches table := by
    rw [filter_eq_self]
    intro update hupdate
    rw [decide_eq_true_eq]
    rcases mem_append.mp hupdate with hseed | hbatch
    · obtain ⟨row, -, rfl⟩ := mem_map.mp hseed
      exact Nat.zero_le _
    · obtain ⟨batch, hmem, hchange⟩ := mem_flatMap.mp hbatch
      obtain ⟨change, -, rfl⟩ := mem_map.mp hchange
      exact h batch hmem
  rw [upTo, hall, timed, changesOf]
  simp [map_flatMap, comp_def]

theorem output_eq (changes : TableId → List (Row δ × ℤ))
    (h : ∀ table ∈ worker.plan.tables, upTo (worker.updates table) time = changes table) :
    worker.output runtime time =
      eval runtime.values runtime.rounds (fun table => Changes.total (changes table)) worker.plan
        none := by
  refine install_apply runtime.values runtime.rounds worker.plan (fun table htab => ?_) none
  rw [input, h table htab]

section
omit [DecidableEq δ]

theorem send_updates (diffs : List (TableDiff δ)) (lsn : Lsn) {table : TableId}
    (h : table ∈ worker.plan.tables) :
    (worker.send diffs lsn).updates table = worker.updates table ++
      ((diffs.filter fun diff => diff.1 = table).map fun diff => diff.2).map fun change =>
        ⟨change.1, lsn, change.2⟩ := by
  simp [send, if_pos h]

theorem mem_times {target time : Lsn} : time ∈ worker.times target ↔
      (time = 0 ∨ ∃ table ∈ worker.plan.tables, ∃ update ∈ worker.updates table,
        update.time = time) ∧ worker.frontier ≤ time ∧ time < target := by
  simp [times]

theorem nodup_times (worker : Worker δ) (target : Lsn) : (worker.times target).Nodup := by
  refine List.Nodup.filter _ ?_
  rw [(perm_insertionSort _ _).nodup_iff]
  exact nodup_dedup _

end

theorem eq_nil_or_singleton {α : Type} {l : List α} {a : α} (hnd : l.Nodup)
    (h : ∀ b ∈ l, b = a) : l = [] ∨ l = [a] := by
  cases l with
  | nil => exact .inl rfl
  | cons first rest =>
    have hfirst := h first mem_cons_self
    subst hfirst
    cases rest with
    | nil => exact .inr rfl
    | cons second =>
      rw [h second (mem_cons_of_mem _ mem_cons_self), nodup_cons] at hnd
      exact absurd mem_cons_self hnd.1

section Apply
variable {plan : Plan δ} {seed : Inputs δ} {batches : List (Batch δ)} {worker : Worker δ}
variable {batch : Batch δ}

omit [DecidableEq δ] in
theorem regresses_eq_false (hlsn : worker.frontier ≤ batch.lsn) (hmax : batch.lsn ≤ maxLsn) :
    worker.regresses batch.diffs batch.lsn = false := by
  have hnext : worker.frontier ≤ nextLsn batch.lsn := by
    unfold nextLsn
    lia
  unfold Worker.regresses
  have hnot : ¬ batch.lsn < worker.frontier := Nat.not_lt.mpr hlsn
  have hnot' : ¬ nextLsn batch.lsn < worker.frontier := Nat.not_lt.mpr hnext
  simp [hnot, hnot']

variable (h : Fed plan seed batches worker)
include h

omit [DecidableEq δ] in
theorem Fed.updates_send (batch : Batch δ) {table : TableId} (htab : table ∈ plan.tables) :
    (worker.send batch.diffs batch.lsn).updates table = timed seed (batches ++ [batch]) table := by
  simp [send_updates _ _ (h.plan_eq.symm ▸ htab), h.updates table htab, timed, Batch.changes]

theorem Fed.output_before (hlsn : worker.frontier ≤ batch.lsn) :
    before ((worker.send batch.diffs batch.lsn).output runtime) batch.lsn =
      value runtime plan seed batches := by
  have hpos := h.frontier_pos
  rw [before, if_neg (by lia : batch.lsn ≠ 0)]
  have hplan : (worker.send batch.diffs batch.lsn).plan = plan := h.plan_eq
  rw [output_eq (changesOf seed batches), hplan]
  · rfl
  · intro table htab
    rw [hplan] at htab
    rw [h.updates_send batch htab]
    have hold : ∀ earlier ∈ batches, earlier.lsn ≤ batch.lsn - 1 := fun earlier hearly => by
      have := h.passed earlier hearly
      lia
    rw [← upTo_timed seed hold table]
    -- the updates of the batch itself are later
    unfold upTo
    have hnew : ((batch.changes table).map fun change =>
        (⟨change.1, batch.lsn, change.2⟩ : Update δ)).filter
          (fun update => update.time ≤ batch.lsn - 1) = [] := by
      rw [filter_eq_nil_iff]
      refine forall_mem_map.mpr fun change _ => ?_
      lia
    rw [timed, timed, flatMap_append, flatMap_singleton, ← append_assoc,
      filter_append, hnew, append_nil]

theorem Fed.output_at (hlsn : worker.frontier ≤ batch.lsn) :
    (worker.send batch.diffs batch.lsn).output runtime batch.lsn =
      value runtime plan seed (batches ++ [batch]) := by
  have hplan : (worker.send batch.diffs batch.lsn).plan = plan := h.plan_eq
  rw [output_eq (changesOf seed (batches ++ [batch])), hplan]
  · rfl
  · intro table htab
    rw [hplan] at htab
    rw [h.updates_send batch htab]
    refine upTo_timed seed (fun earlier hearly => ?_) table
    rcases mem_append.mp hearly with hold | hnew
    · have := h.passed earlier hold
      lia
    · rw [mem_singleton.mp hnew]

omit [DecidableEq δ] in
/-- Nothing but the batch happens past the frontier. -/
theorem Fed.times_send (batch : Batch δ) (target : Lsn) :
    (worker.send batch.diffs batch.lsn).times target = [] ∨
      (worker.send batch.diffs batch.lsn).times target = [batch.lsn] := by
  refine eq_nil_or_singleton (nodup_times _ _) fun time htime => ?_
  obtain ⟨horig, hfront, hlt⟩ := mem_times.mp htime
  have hpos := h.frontier_pos
  have hfront : worker.frontier ≤ time := hfront
  rcases horig with rfl | ⟨table, htab, update, hupdate, rfl⟩
  · lia
  · rw [h.updates_send batch (h.plan_eq ▸ htab)] at hupdate
    rcases mem_append.mp hupdate with hseed | hbatch
    · obtain ⟨row, -, rfl⟩ := mem_map.mp hseed
      have : worker.frontier ≤ 0 := hfront
      lia
    · obtain ⟨src, hsrc, hchange⟩ := mem_flatMap.mp hbatch
      obtain ⟨change, -, rfl⟩ := mem_map.mp hchange
      rcases mem_append.mp hsrc with hold | hnew
      · exact absurd (h.passed src hold) (Nat.not_lt.mpr hfront)
      · rw [mem_singleton.mp hnew]

theorem Fed.value_eq_of_times_nil (runtime) (hlsn : worker.frontier ≤ batch.lsn)
    (hnil : (worker.send batch.diffs batch.lsn).times (batch.lsn + 1) = []) :
    value runtime plan seed (batches ++ [batch]) = value runtime plan seed batches := by
  have hnone : ∀ table ∈ plan.tables, batch.changes table = [] := by
    intro table htab
    by_contra hne
    obtain ⟨change, hchange⟩ := exists_mem_of_ne_nil _ hne
    have hmem : batch.lsn ∈ (worker.send batch.diffs batch.lsn).times (batch.lsn + 1) := by
      refine mem_times.mpr ⟨.inr ⟨table, (h.plan_eq.symm ▸ htab : table ∈ worker.plan.tables),
        ⟨change.1, batch.lsn, change.2⟩, ?_, rfl⟩, hlsn, Nat.lt_succ_self _⟩
      rw [h.updates_send batch htab, timed, flatMap_append, flatMap_singleton]
      exact mem_append_right _ (mem_append_right _ (mem_map_of_mem hchange))
    simp [hnil] at hmem
  refine eval_congr runtime.values runtime.rounds plan fun table htab => ?_
  rw [accumulated, accumulated, changesOf_concat, hnone table htab, append_nil]

variable (hlsn : worker.frontier ≤ batch.lsn)
include hlsn

theorem Fed.apply_reply (hmax : batch.lsn < maxLsn)
    (hold : value runtime plan seed batches = some old)
    (hnew : value runtime plan seed (batches ++ [batch]) = some new) :
    (worker.apply runtime batch.diffs batch.lsn).1 =
      (Changes.between runtime.listing old new).map fun change =>
        ⟨change.1, batch.lsn, change.2⟩ := by
  have hnext : nextLsn batch.lsn = batch.lsn + 1 := min_eq_left hmax
  rw [apply, h.alive, regresses_eq_false hlsn hmax.le, hnext]
  simp only [Bool.not_true, Bool.false_eq_true, if_false, advanceAndStep]
  rcases h.times_send batch (batch.lsn + 1) with hnil | hone
  · have heq := h.value_eq_of_times_nil runtime hlsn hnil
    rw [hold, hnew, Option.some.injEq] at heq
    simp [hnil, heq, Changes.between_self]
  · rw [hone, flatMap_singleton, emittedAt, h.output_before hlsn, h.output_at hlsn, hold, hnew]

/-- At the last LSN there is no next time to advance to, and nothing comes out. -/
theorem Fed.apply_reply_max (hmax : batch.lsn = maxLsn) :
    (worker.apply runtime batch.diffs batch.lsn).1 = [] := by
  have hnext : nextLsn batch.lsn = batch.lsn := by
    rw [hmax]
    exact min_eq_right (Nat.le_succ _)
  rw [apply, h.alive, regresses_eq_false hlsn hmax.le, hnext]
  simp only [advanceAndStep]
  rcases h.times_send batch batch.lsn with hnil | hone
  · simp [hnil]
  · have hmem : batch.lsn ∈ (worker.send batch.diffs batch.lsn).times batch.lsn := by
      rw [hone]
      exact mem_singleton_self _
    exact absurd (mem_times.mp hmem).2.2 (lt_irrefl _)

theorem Fed.apply (hmax : batch.lsn < maxLsn) :
    Fed plan seed (batches ++ [batch]) (worker.apply runtime batch.diffs batch.lsn).2 := by
  have hnext : nextLsn batch.lsn = batch.lsn + 1 := min_eq_left hmax
  rw [Worker.apply, h.alive, regresses_eq_false hlsn hmax.le, hnext]
  simp only [advanceAndStep]
  refine ⟨h.plan_eq, h.alive, fun table htab => h.updates_send batch htab, Nat.succ_pos _,
    fun earlier hearly => ?_, fun lsn _ hpass => ?_⟩
  · rcases mem_append.mp hearly with hold | hnew
    · have := h.passed earlier hold
      lia
    · rw [mem_singleton.mp hnew]
      exact Nat.lt_succ_self _
  · exact hpass batch (mem_append_right _ (mem_singleton_self _))

end Apply

section
variable {plan : Plan δ} {seed : Inputs δ}

section
omit [DecidableEq δ]

theorem filter_seedDiffs (plan : Plan δ) (seed : Inputs δ) {table : TableId}
    (h : table ∈ plan.tables) : ((seedDiffs plan seed).filter fun diff => diff.1 = table) =
      (seed table).map fun row => (table, row, 1) := by
  have hnd := nodup_dedup plan.tables
  rw [← mem_dedup] at h
  unfold seedDiffs
  generalize plan.tables.dedup = tables at h hnd
  induction tables with
  | nil => cases h
  | cons first rest ih =>
    rw [nodup_cons] at hnd
    rw [flatMap_cons, filter_append]
    rcases mem_cons.mp h with rfl | hrest
    · have hfirst : ((seed table).map fun row => (table, row, (1 : ℤ))).filter
          (fun diff => diff.1 = table) = (seed table).map fun row => (table, row, 1) := by
        simp
      have hlater :
          (rest.flatMap fun table => (seed table).map fun row => (table, row, (1 : ℤ))).filter
          (fun diff => diff.1 = table) = [] := by
        rw [filter_eq_nil_iff]
        intro diff hdiff
        obtain ⟨other, hother, hmem⟩ := mem_flatMap.mp hdiff
        obtain ⟨row, -, rfl⟩ := mem_map.mp hmem
        simp only [decide_eq_true_eq]
        rintro rfl
        exact hnd.1 hother
      rw [hfirst, hlater, append_nil]
    · have hne : first ≠ table := fun heq => hnd.1 (heq ▸ hrest)
      have hfirst : ((seed first).map fun row => (first, row, (1 : ℤ))).filter
          (fun diff => diff.1 = table) = [] := by
        simp [hne]
      rw [hfirst, nil_append, ih hrest hnd.2]

theorem updates_seed {table : TableId} (h : table ∈ plan.tables) :
    ((spawn plan).send (seedDiffs plan seed) 0).updates table = timed seed [] table := by
  rw [send_updates _ _ h, filter_seedDiffs plan seed h]
  simp [spawn, timed, comp_def]

end

theorem fed_seed (plan : Plan δ) (seed) : Fed plan seed [] ((spawn plan).seed runtime seed).2 where
  plan_eq := rfl
  alive := rfl
  updates _ h := updates_seed h
  frontier_pos := Nat.one_pos
  passed _ h := absurd h not_mem_nil
  frontier_le _ hpos _ := hpos

theorem output_seed (plan : Plan δ) (seed) :
    ((spawn plan).send (seedDiffs plan seed) 0).output runtime 0 = value runtime plan seed [] := by
  refine (output_eq (changesOf seed []) fun table htab => ?_).trans rfl
  have hupdates : ((spawn plan).send (seedDiffs plan seed) 0).updates table = timed seed [] table :=
    updates_seed htab
  rw [hupdates]
  exact upTo_timed seed (fun _ h => absurd h not_mem_nil) table

omit [DecidableEq δ] in
theorem times_seed (plan : Plan δ) (seed : Inputs δ) :
    ((spawn plan).send (seedDiffs plan seed) 0).times 1 = [0] := by
  have hmem : 0 ∈ ((spawn plan).send (seedDiffs plan seed) 0).times 1 :=
    mem_times.mpr ⟨.inl rfl, le_rfl, Nat.one_pos⟩
  rcases eq_nil_or_singleton (nodup_times _ _) (a := 0) fun time htime =>
      Nat.lt_one_iff.mp (mem_times.mp htime).2.2 with hnil | hone
  · rw [hnil] at hmem
    cases hmem
  · exact hone

/-- The seed answers with the plan's rows, each once. -/
theorem seed_reply (h : value runtime plan seed [] = some out) :
    (((spawn plan).seed runtime seed).1 : Multiset (Row δ)) = out.dedup := by
  have hemit : ((spawn plan).send (seedDiffs plan seed) 0).emittedAt runtime 0 =
      (Changes.between runtime.listing 0 out).map fun change => ⟨change.1, 0, change.2⟩ := by
    rw [emittedAt, output_seed, h]
    rfl
  have hreply : ((spawn plan).seed runtime seed).1 =
      ((Changes.between runtime.listing 0 out).filter fun change => 0 < change.2).map Prod.fst := by
    have hplan : (spawn plan).plan = plan := rfl
    rw [Worker.seed, hplan, advanceAndStep, times_seed]
    rw [flatMap_singleton, hemit, filter_map, map_map]
    rfl
  rw [hreply, Changes.added_between_zero]

end

end Worker

end Palimpsest.Dataflow
