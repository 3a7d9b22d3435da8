import Palimpsest.Sql.Mir

/-! Compiled plans, the engine that runs them, and the host that shares one running plan among all
subscribers of a canonical key. -/
namespace Palimpsest.Dataflow
open Sql Function List Option

/-! Tables as functions: where an entry comes from after one of them is set. -/
section
variable {α β : Type*} [DecidableEq α] {f : α → Option β}

theorem update_some (h : update f a (some b) a' = some b') : f a' = some b' ∨ a' = a ∧ b' = b := by
  by_cases ha : a' = a
  · subst ha
    rw [update_self] at h
    exact .inr ⟨rfl, (some.inj h).symm⟩
  · rw [update_of_ne ha] at h
    exact .inl h

theorem update_none (h : update f a none a' = some b') : a' ≠ a ∧ f a' = some b' := by
  by_cases ha : a' = a
  · subst ha
    simp at h
  · rw [update_of_ne ha] at h
    exact ⟨ha, h⟩

end

abbrev Lsn := ℕ

abbrev TableId := ℕ

abbrev Row (δ : Type) := List δ

abbrev Inputs (δ : Type) := TableId → List (Row δ)

/-- A plan holds the graph it was compiled from and the tables it reads. -/
structure CompiledPlan where
  graph : MirGraph
  inputs : List TableId

structure AggregateDelta (δ : Type) where
  row : Row δ
  lsn : Lsn
  diff : ℤ
deriving Repr, DecidableEq

abbrev TableDiff (δ : Type) := TableId × Row δ × ℤ

inductive DataflowCommand (δ : Type) where
  | seed (inputs : Inputs δ)
  | apply (diffs : List (TableDiff δ)) (lsn : Lsn)

/-- The plan compiler and the dataflow runtime. A graph either compiles, to a plan reading the
given tables, or it does not. A running plan answers each command from the plan and the commands
before it. Whatever it is fed, it only ever emits rows that belong to the plan's output. -/
structure Engine (δ : Type) where
  compile : MirGraph → Option (List TableId)
  snapshotRun : CompiledPlan → Inputs δ → List (Row δ)
  seedReply : CompiledPlan → Inputs δ → List (Row δ)
  applyReply : CompiledPlan → List (DataflowCommand δ) → List (TableDiff δ) → Lsn →
    List (AggregateDelta δ)
  rowsOf : CompiledPlan → Set (Row δ)
  mem_snapshotRun : ∀ plan inputs, ∀ row ∈ snapshotRun plan inputs, row ∈ rowsOf plan
  mem_seedReply : ∀ plan inputs, ∀ row ∈ seedReply plan inputs, row ∈ rowsOf plan
  mem_applyReply : ∀ plan log diffs lsn, ∀ delta ∈ applyReply plan log diffs lsn,
    delta.row ∈ rowsOf plan

variable {δ : Type}

def compileMir (engine : Engine δ) (graph : MirGraph) : Option CompiledPlan :=
  (engine.compile graph).map fun inputs => ⟨graph, inputs⟩

/-- A worker thread: the plan it was spawned with and the commands it has served. -/
structure IncrementalDataflow (δ : Type) where
  plan : CompiledPlan
  commands : List (DataflowCommand δ)

namespace IncrementalDataflow

def spawn (plan : CompiledPlan) : IncrementalDataflow δ := ⟨plan, []⟩

def seed (engine : Engine δ) (dataflow : IncrementalDataflow δ) (inputs : Inputs δ) :
    List (Row δ) × IncrementalDataflow δ :=
  (engine.seedReply dataflow.plan inputs,
    { dataflow with commands := dataflow.commands ++ [.seed inputs] })

def apply (engine : Engine δ) (dataflow : IncrementalDataflow δ) (diffs : List (TableDiff δ))
    (lsn : Lsn) : List (AggregateDelta δ) × IncrementalDataflow δ :=
  (engine.applyReply dataflow.plan dataflow.commands diffs lsn,
    { dataflow with commands := dataflow.commands ++ [.apply diffs lsn] })

end IncrementalDataflow

/-- The builder is a history variable: the subscriber that seeded the plan. -/
structure PlanState (δ : Type) where
  dataflow : IncrementalDataflow δ
  lastOutput : List (Row δ)
  lastLsn : Lsn
  subscribers : List ℕ
  builder : ℕ

structure PersistentHost (δ : Type) where
  plans : String → Option (PlanState δ)

section
variable [DecidableEq δ]

/-- Removes one copy of a row, if there is one; the last row takes its place. -/
def retract (rows : List (Row δ)) (row : Row δ) : List (Row δ) :=
  match rows.idxOf? row with
  | some position => IndexedDigraph.swapRemove rows position
  | none => rows

def applyDeltaToCache (rows : List (Row δ)) (delta : AggregateDelta δ) : List (Row δ) :=
  if 0 < delta.diff then rows ++ replicate delta.diff.toNat delta.row
  else Nat.iterate (fun rows => retract rows delta.row) (-delta.diff).toNat rows

def applyDeltasToCache (rows : List (Row δ)) (deltas : List (AggregateDelta δ)) : List (Row δ) :=
  deltas.foldl applyDeltaToCache rows

theorem swapRemove_subset (xs : List γ) (hi : i < xs.length) :
    IndexedDigraph.swapRemove xs i ⊆ xs := by
  have hperm := IndexedDigraph.swapRemove_perm (getElem?_eq_getElem hi)
  intro x hx
  exact hperm.subset (mem_cons_of_mem _ hx)

theorem retract_subset (rows : List (Row δ)) (row) : retract rows row ⊆ rows := by
  unfold retract
  split
  next pos hpos =>
    exact swapRemove_subset rows (idxOf?_eq_some_iff.mp hpos).1
  next => exact .refl _

theorem iterate_retract_subset (row : Row δ) (n : ℕ) (rows) :
    Nat.iterate (fun rows => retract rows row) n rows ⊆ rows := by
  induction n generalizing rows with
  | zero => exact .refl _
  | succ n ih => exact Subset.trans (ih _) (retract_subset rows row)

theorem mem_applyDeltasToCache {deltas : List (AggregateDelta δ)}
    (h : row ∈ applyDeltasToCache rows deltas) :
    row ∈ rows ∨ ∃ delta ∈ deltas, delta.row = row := by
  induction deltas generalizing rows with
  | nil => exact .inl h
  | cons delta deltas ih =>
    rcases ih h with hmem | ⟨later, hlater, rfl⟩
    · unfold applyDeltaToCache at hmem
      split at hmem
      · rcases mem_append.mp hmem with hold | hnew
        · exact .inl hold
        · exact .inr ⟨delta, mem_cons_self, (eq_of_mem_replicate hnew).symm⟩
      · exact .inl (iterate_retract_subset delta.row _ rows hmem)
    · exact .inr ⟨later, mem_cons_of_mem _ hlater, rfl⟩

end

namespace PersistentHost

def empty : PersistentHost δ := ⟨fun _ => none⟩

def put (host : PersistentHost δ) (canonical : String) (state : PlanState δ) : PersistentHost δ :=
  ⟨update host.plans canonical (some state)⟩

def attach (host : PersistentHost δ) (canonical : String) (state : PlanState δ)
    (subscriber : ℕ) : PersistentHost δ :=
  host.put canonical { state with subscribers := state.subscribers ++ [subscriber] }

def cachedView (host : PersistentHost δ) (canonical : String) (subscriber : ℕ) :
    Option ((List (Row δ) × Lsn) × PersistentHost δ) :=
  (host.plans canonical).map fun state =>
    ((state.lastOutput, state.lastLsn), host.attach canonical state subscriber)

/-- The last section of registration: the plan another thread registered in the meantime wins. -/
def insertSeeded (host : PersistentHost δ) (canonical : String) (dataflow : IncrementalDataflow δ)
    (initial : List (Row δ)) (snapshotLsn : Lsn) (subscriber : ℕ) : PersistentHost δ :=
  match host.plans canonical with
  | some state => host.attach canonical state subscriber
  | none => host.put canonical ⟨dataflow, initial, snapshotLsn, [subscriber], subscriber⟩

def applyAndFanout [DecidableEq δ] (engine : Engine δ) (host : PersistentHost δ)
    (canonical : String) (diffs : List (TableDiff δ)) (lsn : Lsn) :
    Option ((List (AggregateDelta δ) × List ℕ) × PersistentHost δ) :=
  (host.plans canonical).map fun state =>
    let applied := state.dataflow.apply engine diffs lsn
    ((applied.1, state.subscribers), host.put canonical
      { state with
        dataflow := applied.2
        lastOutput := applyDeltasToCache state.lastOutput applied.1
        lastLsn := lsn })

/-- Removes one listing of the subscriber; the last one listed takes its place. -/
def dropSubscriber (subscribers : List ℕ) (subscriber : ℕ) : List ℕ :=
  match subscribers.idxOf? subscriber with
  | some position => IndexedDigraph.swapRemove subscribers position
  | none => subscribers

/-- The plan is torn down with its last subscriber. -/
def release (host : PersistentHost δ) (canonical : String) (subscriber : ℕ) : PersistentHost δ :=
  match host.plans canonical with
  | none => host
  | some state =>
    if dropSubscriber state.subscribers subscriber = [] then
      ⟨update host.plans canonical none⟩
    else
      host.put canonical { state with subscribers := dropSubscriber state.subscribers subscriber }

theorem dropSubscriber_subset (subscribers) (sub : ℕ) :
    dropSubscriber subscribers sub ⊆ subscribers := by
  unfold dropSubscriber
  split
  next pos hpos =>
    exact swapRemove_subset subscribers (idxOf?_eq_some_iff.mp hpos).1
  next => exact .refl _

theorem dropSubscriber_perm (h : sub ∈ subscribers) :
    (sub :: dropSubscriber subscribers sub).Perm subscribers := by
  unfold dropSubscriber
  split
  next pos hpos =>
    obtain ⟨hlt, hat, -⟩ := idxOf?_eq_some_iff.mp hpos
    have hperm := IndexedDigraph.swapRemove_perm (getElem?_eq_getElem hlt)
    rwa [hat] at hperm
  next hnone => exact absurd h (idxOf?_eq_none_iff.mp hnone)

theorem dropSubscriber_of_not_mem (h : sub ∉ subscribers) :
    dropSubscriber subscribers sub = subscribers := by
  rw [dropSubscriber, idxOf?_eq_none_iff.mpr h]

theorem nodup_dropSubscriber (h : subscribers.Nodup) (sub : ℕ) :
    (dropSubscriber subscribers sub).Nodup := by
  by_cases hmem : sub ∈ subscribers
  · exact (nodup_cons.mp ((dropSubscriber_perm hmem).nodup_iff.mpr h)).2
  · rwa [dropSubscriber_of_not_mem hmem]

theorem not_mem_dropSubscriber (h : subscribers.Nodup) (subscriber : ℕ) :
    subscriber ∉ dropSubscriber subscribers subscriber := by
  by_cases hmem : subscriber ∈ subscribers
  · exact (nodup_cons.mp ((dropSubscriber_perm hmem).nodup_iff.mpr h)).1
  · rwa [dropSubscriber_of_not_mem hmem]

theorem mem_dropSubscriber_of_ne (h : other ∈ subscribers) (hne : other ≠ subscriber) :
    other ∈ dropSubscriber subscribers subscriber := by
  by_cases hmem : subscriber ∈ subscribers
  · exact (mem_cons.mp ((dropSubscriber_perm hmem).mem_iff.mpr h)).resolve_left hne
  · rwa [dropSubscriber_of_not_mem hmem]

/-- What is registered after a release was registered before, with no new subscriber. -/
theorem release_plans {host : PersistentHost δ}
    (h : (host.release canonical sub).plans key = some state) : ∃ prev, host.plans key = some prev ∧
      ∃ subscribers ⊆ prev.subscribers, state = { prev with subscribers := subscribers } := by
  have hne : key ≠ canonical → host.plans key = some state := by
    intro hkey
    unfold release at h
    split at h
    · exact h
    · split at h
      · simpa [update_of_ne hkey] using h
      · simpa [put, update_of_ne hkey] using h
  rcases eq_or_ne key canonical with rfl | hkey
  · unfold release at h
    split at h
    next hnone => simp [hnone] at h
    next prev hwas =>
      split at h
      · simp at h
      · simp only [put, update_self, some.injEq] at h
        subst h
        exact ⟨prev, hwas, _, dropSubscriber_subset _ _, rfl⟩
  · exact ⟨state, hne hkey, _, .refl _, rfl⟩

def subscribers (host : PersistentHost δ) (canonical : String) : Option (List ℕ) :=
  (host.plans canonical).map PlanState.subscribers

def Lists (host : PersistentHost δ) (canonical : String) (subscriber : ℕ) : Prop :=
  ∃ list, host.subscribers canonical = some list ∧ subscriber ∈ list

theorem lists_congr {host host' : PersistentHost δ} (h : host'.subscribers = host.subscribers) :
    host'.Lists canonical subscriber ↔ host.Lists canonical subscriber := by
  unfold Lists
  rw [h]

variable (host : PersistentHost δ) (canonical : String)

theorem subscribers_put (state) : (host.put canonical state).subscribers =
      update host.subscribers canonical (some state.subscribers) := by
  funext key
  rcases eq_or_ne key canonical with rfl | hkey
  · simp [subscribers, put]
  · simp [subscribers, put, update_of_ne hkey]

def enlist (lists : String → Option (List ℕ)) (canonical : String) (subscriber : ℕ) :
    String → Option (List ℕ) :=
  update lists canonical (some ((lists canonical).getD [] ++ [subscriber]))

theorem subscribers_attach {host : PersistentHost δ} {canonical : String}
    (h : host.plans canonical = some state) (subscriber : ℕ) :
    (host.attach canonical state subscriber).subscribers =
      enlist host.subscribers canonical subscriber := by
  simp [attach, subscribers_put, enlist, subscribers, h]

theorem subscribers_insertSeeded (dataflow initial) (snapshotLsn : Lsn) (subscriber : ℕ) :
    (host.insertSeeded canonical dataflow initial snapshotLsn subscriber).subscribers =
      enlist host.subscribers canonical subscriber := by
  unfold insertSeeded
  split
  next hst => exact subscribers_attach hst subscriber
  next hnone => simp [subscribers_put, enlist, subscribers, hnone]

theorem lists_enlist {host host' : PersistentHost δ} {canonical : String}
    (h : host'.subscribers = enlist host.subscribers canonical subscriber) {id : ℕ} :
    host'.Lists key id ↔ host.Lists key id ∨ key = canonical ∧ id = subscriber := by
  unfold Lists
  rw [h]
  rcases eq_or_ne key canonical with rfl | hkey
  · cases hlist : host.subscribers key <;> simp [enlist, hlist]
  · simp [enlist, hkey]

theorem subscribers_release (sub : ℕ) : (host.release canonical sub).subscribers =
      update host.subscribers canonical ((host.subscribers canonical).bind fun list =>
        if dropSubscriber list sub = [] then none
        else some (dropSubscriber list sub)) := by
  unfold release
  split
  next hnone =>
    have hlist : host.subscribers canonical = none := by simp [subscribers, hnone]
    rw [hlist, bind_none, ← hlist, update_eq_self]
  next state hst =>
    have hlist : host.subscribers canonical = some state.subscribers := by
      simp [subscribers, hst]
    rw [hlist, bind_some]
    split
    · funext key
      rcases eq_or_ne key canonical with rfl | hkey
      · simp [subscribers]
      · simp [subscribers, update_of_ne hkey]
    · exact subscribers_put ..

variable {host canonical} {id : ℕ}

theorem lists_of_release (h : (host.release canonical sub).Lists key id) : host.Lists key id := by
  obtain ⟨list, hlist, hid⟩ := h
  rw [subscribers_release] at hlist
  rcases eq_or_ne key canonical with rfl | hkey
  · rw [update_self] at hlist
    obtain ⟨prev, hwas, hdrop⟩ := bind_eq_some_iff.mp hlist
    split at hdrop
    · cases hdrop
    · cases hdrop
      exact ⟨prev, hwas, dropSubscriber_subset _ _ hid⟩
  · rw [update_of_ne hkey] at hlist
    exact ⟨list, hlist, hid⟩

/-- A release takes no other subscriber off a list, and so no other subscriber's plan down. -/
theorem lists_release_of_ne (h : host.Lists key id) (hne : id ≠ sub ∨ key ≠ canonical) :
    (host.release canonical sub).Lists key id := by
  obtain ⟨list, hlist, hid⟩ := h
  rw [Lists, subscribers_release]
  rcases eq_or_ne key canonical with rfl | hkey
  · have hmem := mem_dropSubscriber_of_ne hid (hne.resolve_right (fun h => h rfl))
    rw [update_self, hlist, bind_some, if_neg (ne_nil_of_mem hmem)]
    exact ⟨_, rfl, hmem⟩
  · rw [update_of_ne hkey]
    exact ⟨list, hlist, hid⟩

theorem not_lists_release (h : ∀ list, host.subscribers canonical = some list → list.Nodup) :
    ¬ (host.release canonical subscriber).Lists canonical subscriber := by
  rintro ⟨list, hlist, hid⟩
  rw [subscribers_release, update_self] at hlist
  obtain ⟨prev, hwas, hdrop⟩ := bind_eq_some_iff.mp hlist
  split at hdrop
  · cases hdrop
  · cases hdrop
    exact not_mem_dropSubscriber (h prev hwas) subscriber hid

theorem subscribers_applyAndFanout [DecidableEq δ]
    (h : host.applyAndFanout engine canonical diffs lsn = some (fanout, host')) :
    host'.subscribers = host.subscribers ∧ host.subscribers canonical = some fanout.2 := by
  obtain ⟨state, hst, ⟨⟩⟩ := map_eq_some_iff.mp h
  have hlist : host.subscribers canonical = some state.subscribers := by
    simp [subscribers, hst]
  refine ⟨?_, hlist⟩
  rw [subscribers_put]
  exact update_eq_self_iff.mpr hlist.symm

end PersistentHost

end Palimpsest.Dataflow
