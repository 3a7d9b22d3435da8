import Palimpsest.Dataflow.Worker
import Mathlib.Algebra.Order.BigOperators.Group.List

/-! The view a persistent host keeps, against the plan evaluated from scratch. -/
namespace Palimpsest.Dataflow
open Sql Function List PersistentHost

namespace PersistentHost
variable {δ : Type} [DecidableEq δ] (engine : Engine δ)

variable (host : PersistentHost δ) (canonical : String)

def seeded (plan : CompiledPlan) (seed : Inputs δ)
    (snapshotLsn : Lsn) (subscriber : ℕ) : PersistentHost δ :=
  let worker := (IncrementalDataflow.spawn plan).seed engine seed
  host.insertSeeded canonical worker.2 worker.1 snapshotLsn subscriber

def returned (batch : Batch δ) : Option (List (AggregateDelta δ)) :=
  (host.applyAndFanout engine canonical batch.diffs batch.lsn).map (·.1.1)

def applied (batch : Batch δ) : PersistentHost δ :=
  ((host.applyAndFanout engine canonical batch.diffs batch.lsn).map (·.2)).getD host

def appliedAll (batches : List (Batch δ)) : PersistentHost δ :=
  batches.foldl (fun host batch => host.applied engine canonical batch) host

def view : Option (Multiset (Row δ)) :=
  (host.plans canonical).map fun state => (state.lastOutput : Multiset (Row δ))

theorem appliedAll_concat (canonical batches batch) :
    host.appliedAll engine canonical (batches ++ [batch]) =
      (host.appliedAll engine canonical batches).applied engine canonical batch := by
  rw [appliedAll, foldl_concat]
  rfl

end PersistentHost

section Serving
variable {δ : Type} [DecidableEq δ]

def commandsOf (seed : Inputs δ) (batches : List (Batch δ)) : List (DataflowCommand δ) :=
  .seed seed :: batches.map fun batch => .apply batch.diffs batch.lsn

/-- The plan under the key has served the seed and the batches, and its view is the plan's value. -/
structure Serves (runtime : Runtime δ) (graph : MirGraph) (plan : Plan δ) (canonical : String)
    (seed : Inputs δ) (batches : List (Batch δ)) (host : PersistentHost δ) (state : PlanState δ) :
    Prop where
  registered : host.plans canonical = some state
  graph_eq : state.dataflow.plan.graph = graph
  commands : state.dataflow.commands = commandsOf seed batches
  view : value runtime plan seed batches = some (state.lastOutput : Multiset (Row δ))
  fed : Worker.Fed plan seed batches (Worker.replay runtime plan state.dataflow.commands)

variable {runtime : Runtime δ} {lowered : MirGraph → Option (Plan δ)} {plan : Plan δ}
  {seed : Inputs δ} {batches : List (Batch δ)} {host : PersistentHost δ} {state : PlanState δ}

theorem count_coe_rows (rows : List (Row δ)) (row) :
    (rows : Multiset (Row δ)).count row = rows.count row := by
  induction rows with
  | nil => rfl
  | cons first rest ih =>
    simp [← Multiset.cons_coe, Multiset.count_cons, ih, count_cons, eq_comm (a := row)]

theorem coe_applyDeltasToCache (listing new) (lsn : Lsn) :
    (applyDeltasToCache rows ((Changes.between listing rows new).map fun change =>
      ⟨change.1, lsn, change.2⟩) : Multiset (Row δ)) = new := by
  ext row
  rw [count_coe_rows]
  have hnd : (((Changes.between listing rows new).map fun change =>
      (⟨change.1, lsn, change.2⟩ : AggregateDelta δ)).map (·.row)).Nodup := by
    rw [map_map]
    exact Changes.nodup_between listing rows new
  have henough : ∀ delta ∈ (Changes.between listing rows new).map fun change =>
      (⟨change.1, lsn, change.2⟩ : AggregateDelta δ), -delta.diff ≤ rows.count delta.row := by
    refine forall_mem_map.mpr fun change hchange => ?_
    have hdiff := (Changes.mem_between hchange).1
    rw [count_coe_rows] at hdiff
    dsimp only
    omega
  have hcount := count_applyDeltasToCache hnd henough row
  have hid : ((Changes.between listing rows new).map fun change =>
      (⟨change.1, lsn, change.2⟩ : AggregateDelta δ)).map (fun delta => (delta.row, delta.diff)) =
        Changes.between listing rows new := by
    rw [map_map]
    exact map_id _
  rw [hid, Changes.net_between, count_coe_rows] at hcount
  omega

theorem replay_concat (commands) (batch : Batch δ) :
    Worker.replay runtime plan (commands ++ [.apply batch.diffs batch.lsn]) =
      ((Worker.replay runtime plan commands).apply runtime batch.diffs batch.lsn).2 := by
  rw [Worker.replay, foldl_concat]
  rfl

def PlanState.folded (state : PlanState δ) (batch : Batch δ) (deltas : List (AggregateDelta δ)) :
    PlanState δ :=
  { state with
    dataflow := ⟨state.dataflow.plan, state.dataflow.commands ++ [.apply batch.diffs batch.lsn]⟩
    lastOutput := applyDeltasToCache state.lastOutput deltas
    lastLsn := batch.lsn }

variable (h : Serves runtime mir plan canonical seed batches host state)
include h

theorem Serves.applyAndFanout (hplan : lowered mir = some plan) (batch)
    (hreply : ((Worker.replay runtime plan state.dataflow.commands).apply runtime batch.diffs
      batch.lsn).1 = deltas) :
    host.applyAndFanout (engineOf runtime lowered) canonical batch.diffs batch.lsn =
      some ((deltas, state.subscribers), host.put canonical (state.folded batch deltas)) := by
  have hengine : (engineOf runtime lowered).applyReply state.dataflow.plan state.dataflow.commands
      batch.diffs batch.lsn = deltas := by
    simp only [engineOf, h.graph_eq, hplan]
    exact hreply
  rw [PersistentHost.applyAndFanout, h.registered]
  simp only [Option.map_some, IncrementalDataflow.apply, hengine]
  rfl

variable {batch : Batch δ}

theorem Serves.folds (hplan : lowered mir = some plan) (hpos : 0 < batch.lsn)
    (hlater : ∀ earlier ∈ batches, earlier.lsn < batch.lsn) (hmax : batch.lsn < maxLsn)
    (hnew : value runtime plan seed (batches ++ [batch]) = some new)
    (hdeltas : deltas = (Changes.between runtime.listing state.lastOutput new).map fun change =>
      ⟨change.1, batch.lsn, change.2⟩) :
    host.applyAndFanout (engineOf runtime lowered) canonical batch.diffs batch.lsn =
        some ((deltas, state.subscribers), host.put canonical (state.folded batch deltas)) ∧
      Serves runtime mir plan canonical seed (batches ++ [batch])
        (host.put canonical (state.folded batch deltas)) (state.folded batch deltas) := by
  subst hdeltas
  have hfront := h.fed.frontier_le batch.lsn hpos hlater
  refine ⟨h.applyAndFanout hplan batch (h.fed.apply_reply hfront hmax h.view hnew),
    update_self .., h.graph_eq, ?_, ?_, ?_⟩
  · simp [PlanState.folded, h.commands, commandsOf]
  · rw [hnew, PlanState.folded, coe_applyDeltasToCache]
  · rw [PlanState.folded, replay_concat]
    exact h.fed.apply hfront hmax

theorem Serves.applied (hplan : lowered mir = some plan) (hpos : 0 < batch.lsn)
    (hlater : ∀ earlier ∈ batches, earlier.lsn < batch.lsn) (hmax : batch.lsn < maxLsn)
    (hnew : value runtime plan seed (batches ++ [batch]) = some new) :
    ∃ deltas, deltas = ((Changes.between runtime.listing state.lastOutput new).map fun change =>
          (⟨change.1, batch.lsn, change.2⟩ : AggregateDelta δ)) ∧
      host.returned (engineOf runtime lowered) canonical batch = some deltas ∧
      Serves runtime mir plan canonical seed (batches ++ [batch])
        (host.applied (engineOf runtime lowered) canonical batch) (state.folded batch deltas) := by
  obtain ⟨happly, hserves⟩ := h.folds hplan hpos hlater hmax hnew rfl
  refine ⟨_, rfl, ?_, ?_⟩
  · simp [returned, happly]
  · rw [PersistentHost.applied, happly]
    exact hserves

theorem Serves.applied_max (hplan : lowered mir = some plan) (hpos : 0 < batch.lsn)
    (hlater : ∀ earlier ∈ batches, earlier.lsn < batch.lsn) (hmax : batch.lsn = maxLsn) :
    host.returned (engineOf runtime lowered) canonical batch = some [] ∧
      (host.applied (engineOf runtime lowered) canonical batch).view canonical =
        value runtime plan seed batches := by
  have hfront := h.fed.frontier_le batch.lsn hpos hlater
  have happly := h.applyAndFanout hplan batch (h.fed.apply_reply_max hfront hmax)
  constructor
  · rw [returned, happly]
    rfl
  · rw [PersistentHost.applied, happly, PersistentHost.view, h.view]
    simp only [Option.map_some, Option.getD_some, put, update_self]
    rfl

omit h

theorem serves_seeded (hplan : lowered mir = some plan) (hkey : host.plans canonical = none)
    (snapshotLsn : Lsn) (sub : ℕ) (hout : value runtime plan seed [] = some out) (hnd : out.Nodup) :
    ∃ state, Serves runtime mir plan canonical seed []
      (host.seeded (engineOf runtime lowered) canonical ⟨mir, plan.tables⟩ seed snapshotLsn
        sub) state ∧ state.subscribers = [sub] ∧ state.lastLsn = snapshotLsn := by
  have hreply : (engineOf runtime lowered).seedReply ⟨mir, plan.tables⟩ seed =
      ((Worker.spawn plan).seed runtime seed).1 := by
    simp [engineOf, hplan]
  refine ⟨⟨⟨⟨mir, plan.tables⟩, [.seed seed]⟩, ((Worker.spawn plan).seed runtime seed).1,
    snapshotLsn, [sub], sub⟩, ⟨?_, rfl, rfl, ?_, Worker.fed_seed plan seed⟩, rfl, rfl⟩
  · simp only [seeded, insertSeeded, hkey, IncrementalDataflow.seed,
      IncrementalDataflow.spawn, hreply]
    exact update_self ..
  · rw [Worker.seed_reply hout, hnd.dedup, hout]

theorem serves_appliedAll (hplan : lowered mir = some plan)
    (hserves : ∃ state, Serves runtime mir plan canonical seed [] host state)
    (hlsns : batches.Pairwise fun earlier later => earlier.lsn < later.lsn)
    (hrng : ∀ batch ∈ batches, 0 < batch.lsn ∧ batch.lsn < maxLsn)
    (hvals : ∀ before, before <+: batches → (value runtime plan seed before).isSome) :
    ∃ state, Serves runtime mir plan canonical seed batches
      (host.appliedAll (engineOf runtime lowered) canonical batches) state := by
  induction batches using reverseRecOn with
  | nil => exact hserves
  | append_singleton before batch ih =>
    rw [pairwise_append] at hlsns
    obtain ⟨state, hst⟩ := ih hlsns.1 (fun earlier h => hrng earlier (mem_append_left _ h))
      (fun first h => hvals first (h.trans (prefix_append _ _)))
    have hbatch := hrng batch (mem_append_right _ (mem_singleton_self _))
    obtain ⟨new, hnew⟩ := Option.isSome_iff_exists.mp (hvals _ (prefix_refl _))
    obtain ⟨deltas, -, -, hnext⟩ := hst.applied hplan hbatch.1
      (fun earlier h => hlsns.2.2 earlier h batch (mem_singleton_self _)) hbatch.2 hnew
    rw [appliedAll_concat]
    exact ⟨_, hnext⟩

/-- The deltas returned for a batch sum to the difference of the views. -/
def Accounted (engine : Engine δ) (host : PersistentHost δ) (canonical : String)
    (batch : Batch δ) : Prop :=
  ∃ deltas old new, host.returned engine canonical batch = some deltas ∧
    host.view canonical = some old ∧
    (host.applied engine canonical batch).view canonical = some new ∧
    ∀ row, SignedBag.net (deltas.map fun delta => (delta.row, delta.diff)) row =
      new.count row - old.count row

variable (h : Serves runtime mir plan canonical seed batches host state)
include h

theorem Serves.view_eq : host.view canonical = value runtime plan seed batches := by
  simp [PersistentHost.view, h.registered, h.view]

theorem Serves.accounted (hplan : lowered mir = some plan)
    (hpos : 0 < batch.lsn) (hlater : ∀ earlier ∈ batches, earlier.lsn < batch.lsn)
    (hmax : batch.lsn ≤ maxLsn) (hval : (value runtime plan seed (batches ++ [batch])).isSome) :
    Accounted (engineOf runtime lowered) host canonical batch := by
  have hold := h.view_eq.trans h.view
  rcases lt_or_eq_of_le hmax with hlt | heq
  · obtain ⟨new, hnew⟩ := Option.isSome_iff_exists.mp hval
    obtain ⟨deltas, hdeltas, hret, hnext⟩ := h.applied hplan hpos hlater hlt hnew
    refine ⟨deltas, _, new, hret, hold, hnext.view_eq.trans hnew, fun row => ?_⟩
    rw [hdeltas, map_map]
    exact (congrArg (SignedBag.net · row) (map_id _)).trans (Changes.net_between ..)
  · obtain ⟨hret, hview⟩ := h.applied_max hplan hpos hlater heq
    refine ⟨[], _, _, hret, hold, hview.trans h.view, fun row => ?_⟩
    simp

omit h

omit [DecidableEq δ] in
theorem lt_maxLsn_of_prefix {before after : List (Batch δ)}
    (hlsns : (before ++ batch :: after).Pairwise fun earlier later => earlier.lsn < later.lsn)
    (hmax : batch.lsn ≤ maxLsn) : ∀ earlier ∈ before, earlier.lsn < batch.lsn ∧
      earlier.lsn < maxLsn := fun earlier hearly => by
  have hlt := (pairwise_append.mp hlsns).2.2 earlier hearly batch mem_cons_self
  exact ⟨hlt, Nat.lt_of_lt_of_le hlt hmax⟩

section
variable (hplan : lowered mir = some plan)
  (hstart : ∃ state, Serves runtime mir plan canonical seed [] host state)
  (hlsns : batches.Pairwise fun earlier later => earlier.lsn < later.lsn)
  (hrng : ∀ batch ∈ batches, 1 ≤ batch.lsn ∧ batch.lsn ≤ maxLsn)
  (hvals : ∀ before, before <+: batches → (value runtime plan seed before).isSome)
include hplan hstart hlsns hrng hvals

theorem serves_prefix (hwas : before <+: batches) (hbelow : ∀ batch ∈ before, batch.lsn < maxLsn) :
    ∃ state, Serves runtime mir plan canonical seed before
      (host.appliedAll (engineOf runtime lowered) canonical before) state :=
  serves_appliedAll hplan hstart (hlsns.sublist hwas.sublist)
    (fun batch h => ⟨(hrng batch (hwas.subset h)).1, hbelow batch h⟩)
    (fun first h => hvals first (h.trans hwas))

theorem accounted_all {after : List (Batch δ)} (h : batches = before ++ batch :: after) :
    Accounted (engineOf runtime lowered)
      (host.appliedAll (engineOf runtime lowered) canonical before) canonical batch := by
  subst h
  have hbatch := hrng batch (mem_append_right _ mem_cons_self)
  have hbelow := lt_maxLsn_of_prefix hlsns hbatch.2
  obtain ⟨state, hst⟩ := serves_prefix hplan hstart hlsns hrng hvals
    (prefix_append before _) fun earlier hearly => (hbelow earlier hearly).2
  exact hst.accounted hplan hbatch.1 (fun earlier hearly => (hbelow earlier hearly).1)
    hbatch.2 (hvals _ ⟨after, by simp⟩)

theorem view_iff : (host.appliedAll (engineOf runtime lowered) canonical batches).view canonical =
        value runtime plan seed batches ↔ ∀ last ∈ batches, last.lsn = maxLsn →
        value runtime plan seed batches.dropLast = value runtime plan seed batches := by
  rcases batches.eq_nil_or_concat' with rfl | ⟨before, last, rfl⟩
  · obtain ⟨state, hst⟩ := hstart
    exact iff_of_true hst.view_eq fun last hlast => absurd hlast not_mem_nil
  · have hmem : last ∈ before ++ [last] := mem_append_right _ (mem_singleton_self _)
    have hlast := hrng last hmem
    have hbelow := lt_maxLsn_of_prefix hlsns hlast.2
    rw [dropLast_concat]
    by_cases hmax : last.lsn = maxLsn
    · obtain ⟨state, hst⟩ := serves_prefix hplan hstart hlsns hrng hvals
        (prefix_append before _) fun earlier h => (hbelow earlier h).2
      -- the view is the one before the last batch
      have hkept := (hst.applied_max hplan hlast.1 (fun earlier h => (hbelow earlier h).1)
        hmax).2
      rw [appliedAll_concat, hkept]
      exact ⟨fun h _ _ _ => h, fun h => h last hmem hmax⟩
    · have hall : ∀ batch ∈ before ++ [last], batch.lsn < maxLsn := by
        intro batch hbatch
        rcases mem_append.mp hbatch with hearly | hnew
        · exact (hbelow batch hearly).2
        · rw [mem_singleton.mp hnew]
          exact lt_of_le_of_ne hlast.2 hmax
      obtain ⟨state, hst⟩ := serves_prefix hplan hstart hlsns hrng hvals
        (prefix_refl _) hall
      refine iff_of_true hst.view_eq ?_
      exact fun batch hbatch heq => absurd heq (ne_of_lt (hall batch hbatch))

end

/-- The host's answers to a sequence of batches: the view at its end, and the deltas of each. The
base tables are given after every prefix. -/
structure Maintained (runtime : Runtime δ) (lowered : MirGraph → Option (Plan δ)) (plan : Plan δ)
    (host : PersistentHost δ) (canonical : String)
    (bases : List (Batch δ) → TableId → Multiset (Row δ)) (batches : List (Batch δ)) : Prop where
  view : (host.appliedAll (engineOf runtime lowered) canonical batches).view canonical =
    eval runtime.values runtime.rounds (bases batches) plan none
  deltas : ∀ before batch after, batches = before ++ batch :: after →
    Accounted (engineOf runtime lowered)
      (host.appliedAll (engineOf runtime lowered) canonical before) canonical batch

/-- Base tables after some batches: each row counted as its changes sum up. -/
def IsBase (seed : Inputs δ) (batches : List (Batch δ))
    (base : TableId → Multiset (Row δ)) : Prop :=
  ∀ table row, ((base table).count row : ℤ) = SignedBag.net (changesOf seed batches table) row

theorem IsBase.eq_accumulated (h : IsBase seed batches base) : base = accumulated seed batches := by
  funext table
  ext row
  have hcount : ((accumulated seed batches table).count row : ℤ) = (base table).count row := by
    rw [h table row]
    refine Changes.count_total ?_
    rw [← h table row]
    exact Int.natCast_nonneg _
  exact_mod_cast hcount.symm

theorem exists_rounds (vals) {bases : List (Batch δ) → TableId → Multiset (Row δ)}
    (h : ∀ before, before <+: batches →
      ∃ rounds, (eval vals rounds (bases before) plan none).isSome) :
    ∃ enough, ∀ rounds, enough ≤ rounds → ∀ before, before <+: batches →
      (eval vals rounds (bases before) plan none).isSome := by
  choose! needed hneeded using h
  refine ⟨(batches.inits.map needed).sum, fun rounds hrounds before hwas => ?_⟩
  obtain ⟨result, hres⟩ := Option.isSome_iff_exists.mp (hneeded before hwas)
  have hle : needed before ≤ (batches.inits.map needed).sum :=
    le_sum_of_mem (mem_map_of_mem ((mem_inits _ _).mpr hwas))
  simp [eval_mono vals (hle.trans hrounds) hres]

/-- The view follows the base tables through every sequence of batches, except for a batch at the
last LSN that changes the plan's result: it is never taken up. -/
theorem maintained_iff (values : Datums δ) (listing : Changes.Listing (Row δ))
    (lowered : MirGraph → Option (Plan δ)) (graph : MirGraph) (hplan : lowered graph = some plan)
    (host : PersistentHost δ) (canonical : String) (hkey : host.plans canonical = none)
    (snapshotLsn : Lsn) (subscriber : ℕ) (seed : Inputs δ)
    (bases : List (Batch δ) → TableId → Multiset (Row δ))
    (hbases : ∀ before, before <+: batches → IsBase seed before (bases before))
    (hvalues : ∀ before, before <+: batches →
      ∃ rounds, (eval values rounds (bases before) plan none).isSome)
    (hseed : ∀ rounds out, eval values rounds (bases []) plan none = some out → out.Nodup)
    (hlsns : batches.Pairwise fun earlier later => earlier.lsn < later.lsn)
    (hrange : ∀ batch ∈ batches, 1 ≤ batch.lsn ∧ batch.lsn ≤ maxLsn) :
    ∃ enough, ∀ rounds, enough ≤ rounds → (Maintained ⟨values, rounds, listing⟩ lowered plan
          (host.seeded (engineOf ⟨values, rounds, listing⟩ lowered) canonical ⟨graph, plan.tables⟩
            seed snapshotLsn subscriber) canonical bases batches ↔
        ∀ last ∈ batches, last.lsn = maxLsn →
          eval values rounds (bases batches.dropLast) plan none =
            eval values rounds (bases batches) plan none) := by
  obtain ⟨enough, henough⟩ := exists_rounds values hvalues
  refine ⟨enough, fun rounds hrounds => ?_⟩
  have hsome := henough rounds hrounds
  generalize hruntime : (⟨values, rounds, listing⟩ : Runtime δ) = runtime
  have hval : ∀ before, before <+: batches →
      value runtime plan seed before = eval values rounds (bases before) plan none := by
    intro before hwas
    rw [(hbases before hwas).eq_accumulated, ← hruntime]
    rfl
  have hrest : ∀ before, before <+: batches → (value runtime plan seed before).isSome :=
    fun before hwas => hval before hwas ▸ hsome before hwas
  obtain ⟨out, hout⟩ := Option.isSome_iff_exists.mp (hrest [] nil_prefix)
  have hnd : out.Nodup := hseed rounds out (hval [] nil_prefix ▸ hout)
  obtain ⟨state, hserves, -⟩ := serves_seeded hplan hkey snapshotLsn subscriber hout hnd
  have hstart : ∃ state, Serves runtime graph plan canonical seed [] _ state := ⟨state, hserves⟩
  have hview := view_iff hplan hstart hlsns hrange hrest
  rw [hval batches (prefix_refl _), hval _ ( dropLast_prefix batches)] at hview
  rw [← hview]
  subst hruntime
  exact ⟨fun h => h.view, fun h => ⟨h, fun _ _ _ hsplit =>
    accounted_all hplan hstart hlsns hrange hrest hsplit⟩⟩

end Serving

/-! A scan of one table of numbers. -/
section

def numbers : Datums ℕ :=
  ⟨0, compare, compare, fun _ bag => bag.sum, inferInstance, inferInstance, inferInstance⟩

def byRow : Changes.Listing (Row ℕ) := .sorted (· ≤ ·)

def scanTable : MirGraph → Option (Plan ℕ) := fun _ => some (.baseTable 0)

def changeOf (row : Row ℕ) (diff : ℤ) (lsn : Lsn) : Batch ℕ := ⟨[(0, row, diff)], lsn⟩

def comesAndGoes : List (Batch ℕ) := [changeOf [7] 2 5, changeOf [7] (-1) 6]

theorem isBase_of_prefix (h : before <+: comesAndGoes) :
    IsBase (fun _ => []) before (accumulated (fun _ => []) before) := by
  intro table row
  refine Changes.count_total ?_
  rw [← mem_inits] at h
  simp only [comesAndGoes, inits, map_cons, map_nil, mem_cons, not_mem_nil, or_false] at h
  rcases h with rfl | rfl | rfl <;>
  · by_cases htab : 0 = table <;> by_cases hrow : [7] = row <;>
      simp [changesOf, Batch.changes, changeOf, htab, hrow]

theorem scan_maintained : ∃ enough, ∀ rounds, enough ≤ rounds →
    Maintained ⟨numbers, rounds, byRow⟩ scanTable (.baseTable 0)
      (empty.seeded (engineOf ⟨numbers, rounds, byRow⟩ scanTable) "k"
        ⟨readAll "t", [0]⟩ (fun _ => []) 4 1) "k" (accumulated fun _ => []) comesAndGoes := by
  have hout : ∀ rounds (out : Multiset (Row ℕ)), eval numbers rounds
      (accumulated (fun _ => []) []) (.baseTable 0) none = some out → out.Nodup := by
    intro rounds out hout
    cases hout
    exact Multiset.nodup_zero
  obtain ⟨enough, h⟩ := maintained_iff numbers byRow scanTable (readAll "t") rfl
    empty "k" rfl 4 1 (fun _ => []) (accumulated fun _ => [])
    (fun _ => isBase_of_prefix) (fun _ _ => ⟨0, rfl⟩) hout (by decide) (by decide)
  have hbelow : ∀ batch ∈ comesAndGoes, batch.lsn ≠ maxLsn := by decide
  exact ⟨enough, fun rounds hrounds =>
    (h rounds hrounds).mpr fun last hlast hmax => absurd hmax (hbelow last hlast)⟩

/-- A row inserted at the last LSN never shows up. -/
theorem last_insert_missed : ¬ Maintained ⟨numbers, 0, byRow⟩ scanTable (.baseTable 0)
    (empty.seeded (engineOf ⟨numbers, 0, byRow⟩ scanTable) "k"
      ⟨readAll "t", [0]⟩ (fun _ => []) 4 1) "k" (accumulated fun _ => [])
      [changeOf [7] 1 maxLsn] := by
  intro h
  obtain ⟨state, hst, -⟩ : ∃ state, Serves ⟨numbers, 0, byRow⟩ (readAll "t") (.baseTable 0) "k"
      (fun _ => []) [] (empty.seeded (engineOf ⟨numbers, 0, byRow⟩ scanTable) "k"
        ⟨readAll "t", [0]⟩ (fun _ => []) 4 1) state ∧ state.subscribers = [1] ∧ state.lastLsn = 4 :=
    serves_seeded rfl rfl 4 1 rfl Multiset.nodup_zero
  have hkept : ((empty.seeded (engineOf ⟨numbers, 0, byRow⟩ scanTable) "k"
      ⟨readAll "t", [0]⟩ (fun _ => []) 4 1).applied (engineOf ⟨numbers, 0, byRow⟩ scanTable) "k"
        (changeOf [7] 1 maxLsn)).view "k" = some 0 :=
    (hst.applied_max rfl (by decide) (fun _ h => absurd h not_mem_nil) rfl).2
  have hsame := h.view.symm.trans hkept
  have hcount := congrArg (Option.map (Multiset.count [7])) hsame
  revert hcount
  decide

end

end Palimpsest.Dataflow
