import Palimpsest.Dataflow.Maintained

/-! What a plan answers to batches at any LSNs, and what it answers to its seed. A worker ends when
a session is asked for a time it has passed; the host maps its silence to an empty answer. -/
namespace Palimpsest.Dataflow
open Sql Function List PersistentHost

section
variable {δ : Type} [DecidableEq δ] {runtime : Runtime δ} {lowered : MirGraph → Option (Plan δ)}
  {graph : MirGraph} {plan : Plan δ} {canonical : String}

theorem accumulated_nil (seed) :
    accumulated seed [] = fun table => (seed table : Multiset (Row δ)) := by
  symm
  apply IsBase.eq_accumulated
  intro table row
  rw [changesOf, flatMap_nil, append_nil, SignedBag.net_map_const, mul_one, Multiset.coe_count]

/-- Both lists of first rows, against the bag the plan evaluates to. -/
structure KeepsDuplicates (runtime : Runtime δ) (lowered : MirGraph → Option (Plan δ))
    (compiled : CompiledPlan) (host : PersistentHost δ) (canonical : String) (inputs : Inputs δ)
    (snapshotLsn : Lsn) (subscriber : ℕ) (out : Multiset (Row δ)) : Prop where
  snapshot : ((engineOf runtime lowered).snapshotRun compiled inputs : Multiset (Row δ)) = out
  reported : (host.seeded (engineOf runtime lowered) canonical compiled inputs snapshotLsn
    subscriber).view canonical = some out

/-- A row derived several times is listed once, so the lists are right exactly when no row is. -/
theorem keepsDuplicates_iff (hplan : lowered graph = some plan) (hkey : host.plans canonical = none)
    (inputs : Inputs δ) (snapshotLsn : Lsn) (subscriber : ℕ) {out : Multiset (Row δ)}
    (hout : eval runtime.values runtime.rounds (fun table => (inputs table : Multiset (Row δ))) plan
      none = some out) :
    KeepsDuplicates runtime lowered
      ⟨graph, plan.tables⟩ host canonical inputs snapshotLsn subscriber
      out ↔ out.Nodup := by
  rw [← accumulated_nil] at hout
  have hreply : (engineOf runtime lowered).seedReply ⟨graph, plan.tables⟩ inputs =
      ((Worker.spawn plan).seed runtime inputs).1 := by
    simp [engineOf, hplan]
  have hlist : ((engineOf runtime lowered).seedReply ⟨graph, plan.tables⟩ inputs :
      Multiset (Row δ)) = out.dedup := by
    rw [hreply]
    exact Worker.seed_reply hout
  have hview : (host.seeded (engineOf runtime lowered) canonical ⟨graph, plan.tables⟩ inputs
      snapshotLsn subscriber).view canonical = some out.dedup := by
    simp [view, seeded, insertSeeded, hkey,
      put, IncrementalDataflow.seed, IncrementalDataflow.spawn, hlist]
  constructor
  · intro h
    have hsame := hview.symm.trans h.reported
    rw [Option.some.injEq] at hsame
    exact Multiset.dedup_eq_self.mp hsame
  · intro hnd
    rw [hnd.dedup] at hlist hview
    exact ⟨hlist, hview⟩

theorem distinct_rows_kept : KeepsDuplicates ⟨numbers, 0, byRow⟩ scanTable ⟨readAll "t", [0]⟩
    empty "k" (fun _ => [[7], [8]]) 4 1 {[7], [8]} :=
  (keepsDuplicates_iff (rfl : scanTable (readAll "t") = some (.baseTable 0)) rfl
    (fun _ => [[7], [8]]) 4 1 rfl).mpr (by decide)

/-- A table that holds the same row twice is shown with one. -/
theorem twin_rows_merged : ¬ KeepsDuplicates ⟨numbers, 0, byRow⟩ scanTable ⟨readAll "t", [0]⟩
    empty "k" (fun _ => [[7], [7]]) 4 1 {[7], [7]} := by
  intro h
  have hcard := congrArg Multiset.card h.snapshot
  exact absurd hcard (by decide)

end

namespace Worker
variable {δ : Type}

def touches (plan : Plan δ) (batch : Batch δ) : Bool :=
  batch.diffs.any fun diff => decide (diff.1 ∈ plan.tables)

theorem changes_of_not_touches {plan : Plan δ} (h : touches plan batch = false)
    (htab : table ∈ plan.tables) : batch.changes table = [] := by
  simp only [touches, any_eq_false, decide_eq_true_eq] at h
  rw [Batch.changes, map_eq_nil_iff, filter_eq_nil_iff]
  intro diff hdiff heq
  rw [decide_eq_true_eq] at heq
  exact h diff hdiff (heq ▸ htab)

def frontierAfter (batches : List (Batch δ)) : Lsn :=
  (batches.getLast?.map fun batch => nextLsn batch.lsn).getD 1

/-- No session is asked for a time it has passed. -/
def InTime (plan : Plan δ) (before : List (Batch δ)) (batch : Batch δ) : Prop :=
  (touches plan batch = true → frontierAfter before ≤ batch.lsn) ∧
    frontierAfter before ≤ nextLsn batch.lsn

theorem regresses_eq_false_iff {worker : Worker δ} {before : List (Batch δ)}
    (hfront : worker.frontier = frontierAfter before) (htabs : worker.plan.tables ≠ []) (batch) :
    worker.regresses batch.diffs batch.lsn = false ↔ InTime worker.plan before batch := by
  have hempty : worker.plan.tables.isEmpty = false := by simpa using htabs
  rw [regresses, hempty, hfront, Bool.or_eq_false_iff]
  simp only [Bool.not_false, Bool.true_and, decide_eq_false_iff_not, not_lt, InTime, touches,
    any_eq_false, any_eq_true, Bool.and_eq_true, decide_eq_true_eq, not_and]
  refine and_congr_left fun _ => ⟨?_, ?_⟩
  · rintro h ⟨diff, hdiff, htab⟩
    exact h diff hdiff htab
  · exact fun h diff hdiff htab => h ⟨diff, hdiff, htab⟩

section InTime
variable [DecidableEq δ] {plan : Plan δ} {seed : Inputs δ}
variable {batch : Batch δ}
  {batches : List (Batch δ)} {worker : Worker δ}

variable (runtime : Runtime δ)

theorem value_of_not_touches (seed batches) (h : touches plan batch = false) :
    value runtime plan seed (batches ++ [batch]) = value runtime plan seed batches := by
  refine eval_congr runtime.values runtime.rounds plan fun table htab => ?_
  rw [accumulated, accumulated, changesOf_concat, changes_of_not_touches h htab, append_nil]

/-- A worker that has taken in every batch so far. Once its sessions stand at the last LSN nothing
more comes out of it. -/
structure InStep (plan : Plan δ) (seed : Inputs δ) (batches : List (Batch δ)) (worker : Worker δ) :
    Prop where
  plan_eq : worker.plan = plan
  alive : worker.alive = true
  frontier : worker.frontier = frontierAfter batches
  fed : Fed plan seed batches worker ∨ worker.frontier = maxLsn

theorem apply_of_inTime (halive : worker.alive = true)
    (hfront : worker.frontier = frontierAfter batches) (htabs : worker.plan.tables ≠ [])
    (h : InTime worker.plan batches batch) : worker.apply runtime batch.diffs batch.lsn =
      (worker.send batch.diffs batch.lsn).advanceAndStep runtime (nextLsn batch.lsn) := by
  simp [apply, halive, (regresses_eq_false_iff hfront htabs batch).mpr h]

theorem alive_apply_iff (halive : worker.alive = true)
    (hfront : worker.frontier = frontierAfter batches) (htabs : worker.plan.tables ≠ [])
    (batch) : (worker.apply runtime batch.diffs batch.lsn).2.alive = true ↔
      InTime worker.plan batches batch := by
  constructor
  · intro h
    by_contra hlate
    have hregresses : worker.regresses batch.diffs batch.lsn = true := by
      rw [← Bool.not_eq_false, regresses_eq_false_iff hfront htabs]
      exact hlate
    simp [apply, halive, hregresses] at h
  · intro h
    rw [apply_of_inTime runtime halive hfront htabs h]
    exact halive

omit [DecidableEq δ] in
theorem Fed.idle (h : Fed plan seed batches worker) (hfront : worker.frontier = batch.lsn + 1) :
    Fed plan seed (batches ++ [batch])
      { worker.send batch.diffs batch.lsn with frontier := batch.lsn + 1 } where
  plan_eq := h.plan_eq
  alive := h.alive
  updates table htab := h.updates_send batch htab
  frontier_pos := Nat.succ_pos _
  passed earlier hearly := by
    rcases mem_append.mp hearly with hold | hnew
    · exact Nat.lt_of_lt_of_eq (h.passed earlier hold) hfront
    · rw [mem_singleton.mp hnew]
      exact Nat.lt_succ_self _
  frontier_le lsn _ hpass := hpass batch (mem_append_right _ (mem_singleton_self _))

theorem nextLsn_of_lt (h : lsn < maxLsn) : nextLsn lsn = lsn + 1 := min_eq_left h

theorem nextLsn_le (lsn : Lsn) : nextLsn lsn ≤ maxLsn := min_le_right _ _

theorem InStep.apply (h : InStep plan seed batches worker) (runtime) (htabs : plan.tables ≠ [])
    (hmax : batch.lsn ≤ maxLsn) (hin : InTime plan batches batch) :
    InStep plan seed (batches ++ [batch]) (worker.apply runtime batch.diffs batch.lsn).2 := by
  obtain ⟨rfl, halive, hfront, hfed⟩ := h
  have hframe := apply_of_inTime runtime halive hfront htabs hin
  have hnow : (worker.apply runtime batch.diffs batch.lsn).2.frontier = nextLsn batch.lsn := by
    rw [hframe]
    rfl
  refine ⟨by rw [hframe]; rfl, by rw [hframe]; exact halive, by simp [hnow, frontierAfter], ?_⟩
  rcases lt_or_eq_of_le hmax with hlt | heq
  · rcases hfed with hfed | hend
    · left
      by_cases hlate : worker.frontier ≤ batch.lsn
      · exact hfed.apply hlate hlt
      · have hnext := hin.2
        rw [nextLsn_of_lt hlt] at hnext
        rw [hframe, nextLsn_of_lt hlt]
        exact hfed.idle (by lia)
    · right
      rw [hnow]
      exact le_antisymm (nextLsn_le _) (hend ▸ hfront ▸ hin.2)
  · right
    rw [hnow, heq]
    exact min_eq_right (Nat.le_succ _)

theorem reply_of_frontier (h : target ≤ worker.frontier) (runtime) (batch : Batch δ) :
    ((worker.send batch.diffs batch.lsn).advanceAndStep runtime target).1 = [] := by
  have hnone : (worker.send batch.diffs batch.lsn).times target = [] := by
    rw [eq_nil_iff_forall_not_mem]
    intro time htime
    obtain ⟨-, hle, hlt⟩ := mem_times.mp htime
    exact absurd (lt_of_lt_of_le hlt h) (not_lt.mpr hle)
  simp [advanceAndStep, hnone]

variable (h : InStep plan seed batches worker)
include h

/-- A batch below the last LSN is answered with the change of the plan's value. -/
theorem InStep.reply_eq {runtime : Runtime δ} (htabs : plan.tables ≠ [])
    (hin : InTime plan batches batch) (hlt : batch.lsn < maxLsn)
    (hold : value runtime plan seed batches = some old)
    (hnew : value runtime plan seed (batches ++ [batch]) = some new) :
    (worker.apply runtime batch.diffs batch.lsn).1 =
      (Changes.between runtime.listing old new).map fun change =>
        ⟨change.1, batch.lsn, change.2⟩ := by
  obtain ⟨rfl, halive, hfront, hfed⟩ := h
  by_cases hlate : worker.frontier ≤ batch.lsn
  · rcases hfed with hfed | hend
    · exact hfed.apply_reply hlate hlt hold hnew
    · exact absurd (hend ▸ hlate) (not_le.mpr hlt)
  · -- the sessions stand just past the batch, so it changes none of the plan's tables
    have hother : touches worker.plan batch = false := by
      rw [← Bool.not_eq_true]
      exact fun htouch => hlate (hfront ▸ hin.1 htouch)
    have hsame := value_of_not_touches runtime seed batches hother
    rw [hold, hnew, Option.some.injEq] at hsame
    rw [apply_of_inTime runtime halive hfront htabs hin, hsame, Changes.between_self,
      nextLsn_of_lt hlt, reply_of_frontier (by lia)]
    rfl

theorem InStep.reply_max (htabs : plan.tables ≠ []) (hin : InTime plan batches batch)
    (hmax : batch.lsn = maxLsn) : (worker.apply runtime batch.diffs batch.lsn).1 = [] := by
  obtain ⟨rfl, halive, hfront, hfed⟩ := h
  rcases hfed with hfed | hend
  · refine hfed.apply_reply_max ?_ hmax
    rw [hfront, hmax]
    exact hin.2.trans (nextLsn_le _)
  · rw [apply_of_inTime runtime halive hfront htabs hin,
      reply_of_frontier (hend ▸ nextLsn_le _)]

/-- What is answered to a batch in time accounts for it, except at the last LSN. -/
theorem InStep.reply_iff {runtime : Runtime δ} (htabs : plan.tables ≠ [])
    (hmax : batch.lsn ≤ maxLsn) (hin : InTime plan batches batch)
    (hold : value runtime plan seed batches = some old)
    (hnew : value runtime plan seed (batches ++ [batch]) = some new) :
    (∀ row, SignedBag.net ((worker.apply runtime batch.diffs batch.lsn).1.map fun delta =>
        (delta.row, delta.diff)) row = new.count row - old.count row) ↔
      (batch.lsn = maxLsn → old = new) := by
  rcases lt_or_eq_of_le hmax with hlt | heq
  · refine iff_of_true (fun row => ?_) fun heq => absurd heq (ne_of_lt hlt)
    rw [h.reply_eq htabs hin hlt hold hnew, map_map]
    exact (congrArg (SignedBag.net · row) (map_id _)).trans (Changes.net_between ..)
  · rw [h.reply_max runtime htabs hin heq]
    constructor
    · intro hnet _
      ext row
      have hrow : (0 : ℤ) = new.count row - old.count row := hnet row
      omega
    · intro hsame row
      simp [hsame heq]

omit h

end InTime

end Worker

section Hosted
variable {δ : Type} [DecidableEq δ]

def EachBatch (P : List (Batch δ) → Batch δ → Prop) (batches : List (Batch δ)) : Prop :=
  ∀ before batch after, batches = before ++ batch :: after → P before batch

omit [DecidableEq δ] in
theorem eachBatch_concat {P : List (Batch δ) → Batch δ → Prop} {batches : List (Batch δ)}
    {batch : Batch δ} :
    EachBatch P (batches ++ [batch]) ↔ EachBatch P batches ∧ P batches batch := by
  constructor
  · intro h
    refine ⟨fun before first after hsplit => h before first (after ++ [batch]) ?_,
      h batches batch [] rfl⟩
    rw [hsplit, append_assoc, cons_append]
  · rintro ⟨hall, hlast⟩ before first after hsplit
    rcases eq_nil_or_concat' after with rfl | ⟨between, last, rfl⟩
    · obtain ⟨rfl, rfl⟩ := append_singleton_inj.mp hsplit
      exact hlast
    · rw [← cons_append, ← append_assoc] at hsplit
      obtain ⟨hinit, -⟩ := append_singleton_inj.mp hsplit
      exact hall before first between hinit

/-- The plan under the key has been sent the seed and the batches. -/
structure Hosted (graph : MirGraph) (canonical : String) (seed : Inputs δ)
    (batches : List (Batch δ))
    (host : PersistentHost δ) (state : PlanState δ) : Prop where
  registered : host.plans canonical = some state
  graph_eq : state.dataflow.plan.graph = graph
  commands : state.dataflow.commands = commandsOf seed batches

def workerAfter (runtime : Runtime δ) (plan : Plan δ) (seed : Inputs δ) (batches : List (Batch δ)) :
    Worker δ :=
  Worker.replay runtime plan (commandsOf seed batches)

variable {runtime : Runtime δ} {lowered : MirGraph → Option (Plan δ)} {graph : MirGraph}
  {plan : Plan δ} {canonical : String} {batches : List (Batch δ)} {host : PersistentHost δ}

theorem workerAfter_concat (batch) : workerAfter runtime plan seed (batches ++ [batch]) =
      ((workerAfter runtime plan seed batches).apply runtime batch.diffs batch.lsn).2 := by
  rw [workerAfter, commandsOf, map_append, ← cons_append]
  exact replay_concat _ batch

/-- The host passes on what the worker answers, and takes the LSN of the batch. -/
theorem Hosted.applied (h : Hosted graph canonical seed batches host state) (runtime)
    (hplan : lowered graph = some plan) (batch) :
    host.returned (engineOf runtime lowered) canonical batch =
        some ((workerAfter runtime plan seed batches).apply runtime batch.diffs batch.lsn).1 ∧
      ∃ state', Hosted graph canonical seed (batches ++ [batch])
        (host.applied (engineOf runtime lowered) canonical batch) state' ∧
        state'.lastLsn = batch.lsn := by
  have hengine : (engineOf runtime lowered).applyReply state.dataflow.plan state.dataflow.commands
      batch.diffs batch.lsn =
        ((workerAfter runtime plan seed batches).apply runtime batch.diffs batch.lsn).1 := by
    simp only [engineOf, h.graph_eq, hplan, h.commands]
    rfl
  constructor
  · simp [returned, applyAndFanout, h.registered, IncrementalDataflow.apply, hengine]
  · simp only [PersistentHost.applied, applyAndFanout, h.registered, IncrementalDataflow.apply]
    refine ⟨_, ⟨update_self .., h.graph_eq, ?_⟩, rfl⟩
    simp [h.commands, commandsOf]

theorem hosted_seeded (hkey : host.plans canonical = none) (seed) (snapshotLsn : Lsn)
    (sub : ℕ) (runtime lowered graph) (plan : Plan δ) :
    ∃ state, Hosted graph canonical seed [] (host.seeded (engineOf runtime lowered) canonical
      ⟨graph, plan.tables⟩ seed snapshotLsn sub) state := by
  simp only [seeded, insertSeeded, hkey]
  exact ⟨_, update_self .., rfl, rfl⟩

theorem hosted_appliedAll (runtime) (hplan : lowered graph = some plan)
    (h : Hosted graph canonical seed [] host state) (batches) :
    ∃ state, Hosted graph canonical seed batches
      (host.appliedAll (engineOf runtime lowered) canonical batches) state := by
  induction batches using reverseRecOn with
  | nil => exact ⟨state, h⟩
  | append_singleton before batch ih =>
    obtain ⟨middle, hmiddle⟩ := ih
    obtain ⟨after, hnow, -⟩ := (hmiddle.applied runtime hplan batch).2
    rw [appliedAll_concat]
    exact ⟨after, hnow⟩

/-- The caller is told that the plan is gone, or the worker has taken the batch in and the deltas
are the change of the plan's value. -/
def Answered (runtime : Runtime δ) (lowered : MirGraph → Option (Plan δ)) (plan : Plan δ)
    (canonical : String) (seed : Inputs δ) (host : PersistentHost δ) (before : List (Batch δ))
    (batch : Batch δ) : Prop :=
  (host.appliedAll (engineOf runtime lowered) canonical before).returned (engineOf runtime lowered)
      canonical batch = none ∨
    (workerAfter runtime plan seed (before ++ [batch])).alive = true ∧
      ∃ deltas old new, (host.appliedAll (engineOf runtime lowered) canonical before).returned
          (engineOf runtime lowered) canonical batch = some deltas ∧
        value runtime plan seed before = some old ∧
        value runtime plan seed (before ++ [batch]) = some new ∧
        ∀ row, SignedBag.net (deltas.map fun delta => (delta.row, delta.diff)) row =
          new.count row - old.count row

/-- The batch comes in time, and changes nothing if it is at the last LSN. -/
def Acceptable (runtime : Runtime δ) (plan : Plan δ) (seed : Inputs δ) (before : List (Batch δ))
    (batch : Batch δ) : Prop :=
  Worker.InTime plan before batch ∧ (batch.lsn = maxLsn →
    value runtime plan seed before = value runtime plan seed (before ++ [batch]))

section
variable (htabs : plan.tables ≠ []) (hrng : ∀ batch ∈ batches, batch.lsn ≤ maxLsn)
include htabs hrng

theorem inStep_of_acceptable (h : EachBatch (Acceptable runtime plan seed) batches) :
    Worker.InStep plan seed batches (workerAfter runtime plan seed batches) := by
  induction batches using reverseRecOn with
  | nil => exact ⟨rfl, rfl, rfl, .inl (Worker.fed_seed plan seed)⟩
  | append_singleton before batch ih =>
    obtain ⟨hwas, hbatch⟩ := eachBatch_concat.mp h
    rw [forall_mem_append] at hrng
    rw [workerAfter_concat]
    exact (ih hrng.1 hwas).apply runtime htabs (hrng.2 batch (mem_singleton_self _))
      hbatch.1

theorem answered_iff_acceptable (hplan : lowered graph = some plan)
    (hhost : Hosted graph canonical seed [] host state)
    (hvals : ∀ before, before <+: batches → (value runtime plan seed before).isSome)
    (hsplit : batches = before ++ [batch]) (h : EachBatch (Acceptable runtime plan seed) before) :
    Answered runtime lowered plan canonical seed host before batch ↔
      Acceptable runtime plan seed before batch := by
  subst hsplit
  rw [forall_mem_append] at hrng
  have hmax := hrng.2 batch (mem_singleton_self _)
  obtain ⟨after, hnow⟩ := hosted_appliedAll runtime hplan hhost before
  have hret := (hnow.applied runtime hplan batch).1
  have hstep := inStep_of_acceptable htabs hrng.1 h
  obtain ⟨old, hold⟩ := Option.isSome_iff_exists.mp (hvals before (prefix_append _ _))
  obtain ⟨new, hnew⟩ := Option.isSome_iff_exists.mp (hvals _ (prefix_refl _))
  have halive := Worker.alive_apply_iff runtime hstep.alive hstep.frontier
    (hstep.plan_eq.symm ▸ htabs) batch
  rw [hstep.plan_eq, ← workerAfter_concat] at halive
  rw [Answered, Acceptable, hret, halive, hold, hnew, Option.some.injEq]
  constructor
  · rintro (hnone | ⟨hin, deltas, old', new', hdeltas, hold', hnew', hnet⟩)
    · cases hnone
    · cases hdeltas
      cases hold'
      cases hnew'
      exact ⟨hin, (hstep.reply_iff htabs hmax hin hold hnew).mp hnet⟩
  · rintro ⟨hin, hsame⟩
    exact .inr ⟨hin, _, old, new, rfl, rfl, rfl,
      (hstep.reply_iff htabs hmax hin hold hnew).mpr hsame⟩

end

/-- No batch of a sequence is lost exactly when each comes in time. -/
theorem answered_iff (hplan : lowered graph = some plan) (htables : plan.tables ≠ [])
    (hkey : host.plans canonical = none) (seed : Inputs δ) (snapshotLsn : Lsn) (subscriber : ℕ)
    (hrange : ∀ batch ∈ batches, batch.lsn ≤ maxLsn)
    (hvalues : ∀ before, before <+: batches → (value runtime plan seed before).isSome) :
    EachBatch (Answered runtime lowered plan canonical seed (host.seeded (engineOf runtime lowered)
        canonical ⟨graph, plan.tables⟩ seed snapshotLsn subscriber)) batches ↔
      EachBatch (Acceptable runtime plan seed) batches := by
  obtain ⟨state, hst⟩ := hosted_seeded hkey seed snapshotLsn subscriber runtime lowered graph plan
  induction batches using reverseRecOn with
  | nil =>
    exact iff_of_true (by rintro (_ | _) _ _ h <;> cases h) (by rintro (_ | _) _ _ h <;> cases h)
  | append_singleton before batch ih =>
    have hwas := ih (fun earlier h => hrange earlier (mem_append_left _ h))
      (fun first h => hvalues first (h.trans (prefix_append _ _)))
    rw [eachBatch_concat, eachBatch_concat, hwas]
    exact and_congr_right fun h =>
      answered_iff_acceptable htables hrange hplan hst hvalues rfl h

/-- A batch of another table at the LSN just passed, between two of the plan's. -/
def interleaved : List (Batch ℕ) :=
  [changeOf [7] 2 5, ⟨[(1, [9], 1)], 5⟩, changeOf [7] (-1) 6]

def scanHost : PersistentHost ℕ :=
  empty.seeded (engineOf ⟨numbers, 0, byRow⟩ scanTable) "k" ⟨readAll "t", [0]⟩
    (fun _ => []) 4 1

theorem interleaved_answered : EachBatch (Answered ⟨numbers, 0, byRow⟩ scanTable (.baseTable 0) "k"
    (fun _ => []) scanHost) interleaved := by
  refine (answered_iff (rfl : scanTable (readAll "t") = some (.baseTable 0)) (by decide) rfl
    (fun _ => []) 4 1 (by decide) fun _ _ => rfl).mpr ?_
  have hnil : EachBatch (Acceptable ⟨numbers, 0, byRow⟩ (.baseTable 0) fun _ => []) [] := by
    rintro (_ | _) _ _ h <;> cases h
  refine eachBatch_concat.mpr ⟨eachBatch_concat.mpr ⟨eachBatch_concat.mpr ⟨hnil, ?_⟩, ?_⟩, ?_⟩ <;>
    exact ⟨by unfold Worker.InTime; decide, fun hmax => absurd hmax (by decide)⟩

/-- Two batches at one LSN, an LSN that moves back, LSN 0: the worker has ended, and the host
answers with no deltas and moves on. -/
theorem late_batches_lost : (∀ late ∈ [changeOf [8] 1 5, changeOf [8] 1 3, changeOf [8] 1 0],
      ¬ Answered ⟨numbers, 0, byRow⟩ scanTable (.baseTable 0) "k" (fun _ => []) scanHost
        [changeOf [7] 1 5] late ∧
      (scanHost.appliedAll (engineOf ⟨numbers, 0, byRow⟩ scanTable) "k" [changeOf [7] 1 5]).returned
        (engineOf ⟨numbers, 0, byRow⟩ scanTable) "k" late = some []) ∧
    ¬ Answered ⟨numbers, 0, byRow⟩ scanTable (.baseTable 0) "k" (fun _ => []) scanHost []
      (changeOf [8] 1 0) := by
  have hsilent : ∀ late ∈ [changeOf [8] 1 5, changeOf [8] 1 3, changeOf [8] 1 0],
      (scanHost.appliedAll (engineOf ⟨numbers, 0, byRow⟩ scanTable) "k" [changeOf [7] 1 5]).returned
        (engineOf ⟨numbers, 0, byRow⟩ scanTable) "k" late = some [] ∧
      (workerAfter ⟨numbers, 0, byRow⟩ (.baseTable 0) (fun _ => [])
        ([changeOf [7] 1 5] ++ [late])).alive = false := by decide +kernel
  have hzero : (scanHost.returned (engineOf ⟨numbers, 0, byRow⟩ scanTable) "k"
      (changeOf [8] 1 0)) = some [] ∧ (workerAfter ⟨numbers, 0, byRow⟩ (.baseTable 0) (fun _ => [])
        [changeOf [8] 1 0]).alive = false := by decide +kernel
  constructor
  · intro late hlate
    obtain ⟨hret, hended⟩ := hsilent late hlate
    refine ⟨?_, hret⟩
    rintro (hnone | ⟨halive, -⟩)
    · exact absurd (hret.symm.trans hnone) (by decide)
    · exact absurd (hended.symm.trans halive) (by decide)
  · rintro (hnone | ⟨halive, -⟩)
    · exact absurd (hzero.1.symm.trans hnone) (by decide)
    · exact absurd (hzero.2.symm.trans halive) (by decide)

end Hosted

end Palimpsest.Dataflow
