import Palimpsest.Server.Registry
import Palimpsest.Permissions.Rewriter

/-! The subscription router, one definition for each section it runs under its lock. -/
namespace Palimpsest.Server
open Sql Dataflow Permissions Function

structure RouterConfig where
  channelCapacity : ℕ
  backpressure : BackpressurePolicy
  defaultLatestKnownLsn : Lsn
  capacity_pos : 0 < channelCapacity

structure RouterInner (δ : Type) where
  registry : SubscriptionRegistry
  ack : AckTracker
  subgraphs : SharedSubgraphRegistry
  channels : SubscriptionId → Option (BoundedDiffChannel δ)
  subgraphHolders : SubscriptionId → Option SharedSubgraphId
  rules : List CompiledRule

/-- What a client asks for, with the query text already lowered. -/
structure SubscribeRequest where
  connection : ConnectionId
  clientId : ClientSubscriptionId
  query : QueryId
  graph : MirGraph
  userCtx : UserContext
  resumeLsn : Option Lsn

section

/-- Each value is preceded by its length in bytes. -/
def keyFrame (entry : String × String) : String :=
  entry.1 ++ "=" ++ toString entry.2.utf8ByteSize ++ ":" ++ entry.2 ++ ";"

def keyEntries (userCtx : UserContext) : List (String × String) :=
  (userCtx.values.map fun p => (p.1, p.2.canonicalRepr)).insertionSort
    fun a b => a.1 < b.1 ∨ a.1 = b.1 ∧ a.2 ≤ b.2

def canonicalSubgraphKey (query : QueryId) (userCtx : UserContext) : String :=
  query ++ "|" ++ String.join ((keyEntries userCtx).map keyFrame)

end

section

/-- The first base table a non-tautological row-visibility rule is written on. -/
def firstRuleGuardedTable (graph : MirGraph) (rules : List CompiledRule) : Option String :=
  graph.graph.nodes.findSome? fun node =>
    match node with
    | .baseTable table _ =>
      if rules.any fun rule => rule.mode.affectsVisibility && !rule.predicate.isTautology &&
          rule.table == table then some table else none
    | _ => none

def installPermissionFilters (graph : MirGraph) (rules : List CompiledRule)
    (userCtx : UserContext) : Except RouterError RewriteOutcome :=
  match rewrite graph rules userCtx with
  | .ok outcome => .ok outcome
  | .error error => .error (.permission error)

/-- The check `subscribe` makes under the rules it reads: the rewrite must succeed, and where it
splices a filter there must be a compiled plan to enforce it. -/
def checkPermissions (graph : MirGraph) (rules : List CompiledRule) (userCtx : UserContext)
    (compiledPlan : Option CompiledPlan) : Except RouterError RewriteStats := do
  let outcome ← installPermissionFilters graph rules userCtx
  if 0 < outcome.stats.filtersInserted ∧ compiledPlan.isNone then
    .error (.permissionUnenforceable ((firstRuleGuardedTable graph rules).getD "<unknown>"))
  else .ok outcome.stats

end

section
variable {δ : Type}

structure SnapshotBatch (δ : Type) where
  snapshotLsn : Lsn
  rows : List (TableId × List (Row δ))

/-- A later entry for a table replaces an earlier one. -/
def SnapshotBatch.inputs (batch : SnapshotBatch δ) : Inputs δ := fun table =>
  ((batch.rows.reverse.find? fun entry => entry.1 == table).map Prod.snd).getD []

/-- The rows of the batch, each to be added once to its table. -/
def snapshotToSeedUpdates (batch : SnapshotBatch δ) : List (TableDiff δ) :=
  batch.rows.flatMap fun entry => entry.2.map fun row => (entry.1, row, 1)

/-- Rows of the first event: the query's result where there is a plan, else the tables as they
are. -/
def initialRows (engine : Engine δ) (compiledPlan : Option CompiledPlan)
    (batch : SnapshotBatch δ) : List (Row δ) :=
  match compiledPlan with
  | some plan => engine.snapshotRun plan batch.inputs
  | none => batch.rows.flatMap Prod.snd

inductive ResumeDecision where
  | freshInitial (reason : ResyncReason)
  | replay (fromLsn : Lsn)
deriving Repr, DecidableEq

structure CompactionWindow where
  earliestReplayable : Lsn
  latestKnown : Lsn
deriving Repr, DecidableEq

/-- Only the lower end counts. -/
def CompactionWindow.contains (window : CompactionWindow) (lsn : Lsn) : Bool :=
  window.earliestReplayable ≤ lsn

def resolveResume (lastAckedLsn : Option Lsn) (window : CompactionWindow) : ResumeDecision :=
  match lastAckedLsn with
  | none => .freshInitial .lsnCompacted
  | some last => if window.contains last then .replay last else .freshInitial .lsnCompacted

/-- What the unlocked part of `subscribe` prepares: the snapshot position, the channel with its
first event, and the updates that seed the plan. -/
structure Opened (δ : Type) where
  snapshotLsn : Lsn
  seedUpdates : List (TableDiff δ)
  channel : BoundedDiffChannel δ

/-- The rows come from the cached view when there is one, and from a fresh snapshot otherwise. -/
def takeSnapshot (engine : Engine δ) (compiledPlan : Option CompiledPlan)
    (prerunInitial : Option (List (Row δ) × Lsn)) (fetched : Except String (SnapshotBatch δ)) :
    Except RouterError (Lsn × List (Row δ) × List (TableDiff δ)) :=
  match prerunInitial with
  | some (rows, lsn) => .ok (lsn, rows, [])
  | none =>
    match fetched with
    | .error detail => .error (.snapshot detail)
    | .ok batch =>
      .ok (batch.snapshotLsn, initialRows engine compiledPlan batch, snapshotToSeedUpdates batch)

def freshChannel (config : RouterConfig) : BoundedDiffChannel δ :=
  .new config.channelCapacity config.capacity_pos config.backpressure

def openChannel (config : RouterConfig) (resumeLsn : Option Lsn)
    (snapshot : Lsn × List (Row δ) × List (TableDiff δ)) : Except RouterError (Opened δ) :=
  match resolveResume resumeLsn ⟨snapshot.1, config.defaultLatestKnownLsn⟩ with
  | .freshInitial _ =>
    let sent := (freshChannel config).trySend (.initial snapshot.1 snapshot.2.1)
    if sent.1 = .sent then .ok ⟨snapshot.1, snapshot.2.2, sent.2⟩ else .error .channelSaturated
  | .replay _ => .ok ⟨snapshot.1, snapshot.2.2, freshChannel config⟩

theorem openChannel_ok (config resumeLsn) (snap : Lsn × List (Row δ) × List (TableDiff δ)) :
    ∃ chan, openChannel config resumeLsn snap = .ok ⟨snap.1, snap.2.2, chan⟩ ∧
      (chan.sender.queue = [] ∨ chan.sender.queue = [.initial snap.1 snap.2.1]) := by
  have hroom : (freshChannel config : BoundedDiffChannel δ).sender.hasRoom :=
    ⟨rfl, config.capacity_pos⟩
  obtain ⟨hsent, hq⟩ := Mpsc.trySend_of_hasRoom hroom (.initial snap.1 snap.2.1)
  unfold openChannel
  split
  · refine ⟨_, if_pos ((BoundedDiffChannel.trySend_sent_iff _ _).mpr hsent), .inr ?_⟩
    rw [BoundedDiffChannel.sender_trySend, hq]
    rfl
  · exact ⟨_, rfl, .inl rfl⟩

end

namespace RouterInner
variable {δ : Type}

def empty : RouterInner δ :=
  ⟨.empty, .empty, .empty, fun _ => none, fun _ => none, []⟩

def setRules (router : RouterInner δ) (rules : List CompiledRule) : RouterInner δ :=
  { router with
    rules := rules
    channels := fun id => (router.channels id).map fun channel =>
      channel.forceResync .permissionsChanged }

def register (router : RouterInner δ) (id : SubscriptionId) (request : SubscribeRequest)
    (opened : Opened δ) : Except RouterError (RouterInner δ) := do
  let registry ← router.registry.insert
    ⟨id, request.clientId, request.connection, request.query, request.userCtx,
      opened.snapshotLsn, opened.snapshotLsn, .seeding⟩
  let acquired := router.subgraphs.acquire (canonicalSubgraphKey request.query request.userCtx)
  .ok
    { router with
      registry := registry
      subgraphs := acquired.2
      subgraphHolders := update router.subgraphHolders id (some acquired.1)
      ack := router.ack.install id opened.snapshotLsn
      channels := update router.channels id (some opened.channel) }

def pumpEvent (router : RouterInner δ) (id : SubscriptionId) (event : DiffEvent δ) :
    Except RouterError Unit × RouterInner δ :=
  match router.channels id with
  | none => (.error (.unknownSubscription id), router)
  | some channel =>
    let sent := channel.trySend event
    match sent.1 with
    | .sent =>
      (.ok (), { router with
        channels := update router.channels id (some sent.2)
        registry := router.registry.setState id .streaming })
    | .closed =>
      (.error (.unknownSubscription id),
        { router with channels := update router.channels id (some sent.2) })
    | _ =>
      (.error .channelSaturated, { router with
        channels := update router.channels id (some (sent.2.forceResync .backpressure))
        registry := router.registry.setState id .draining })

def unsubscribe (router : RouterInner δ) (id : SubscriptionId) :
    Except RouterError Unit × RouterInner δ :=
  match router.registry.remove id with
  | none => (.error (.unknownSubscription id), router)
  | some registry =>
    (.ok (), { router with
      registry := registry
      ack := router.ack.remove id
      subgraphs := match router.subgraphHolders id with
        | some holder => router.subgraphs.release holder
        | none => router.subgraphs
      subgraphHolders := update router.subgraphHolders id none
      channels := update router.channels id none })

variable {router : RouterInner δ} {id : SubscriptionId}

theorem register_channels (h : router.register id req opened = .ok router') :
    router'.channels = update router.channels id (some opened.channel) ∧
      router'.rules = router.rules := by
  unfold register at h
  cases hinsert : router.registry.insert ⟨id, req.clientId, req.connection, req.query,
      req.userCtx, opened.snapshotLsn, opened.snapshotLsn, .seeding⟩ with
  | error error =>
    rw [hinsert] at h
    cases h
  | ok registry =>
    rw [hinsert] at h
    cases h
    exact ⟨rfl, rfl⟩

theorem pumpEvent_rules (router : RouterInner δ) (id event) :
    (router.pumpEvent id event).2.rules = router.rules := by
  unfold pumpEvent
  split
  · rfl
  · dsimp only
    split <;> rfl

theorem pumpEvent_of_none (event) (h : router.channels id = none) :
    (router.pumpEvent id event).2 = router := by
  simp [pumpEvent, h]

/-- An event is queued behind the others when there is room. Otherwise nothing is queued: the
resync that should replace it finds the same full channel. -/
theorem pumpEvent_channels (event) (h : router.channels id = some chan) :
    ∃ channel', (router.pumpEvent id event).2.channels = update router.channels id (some channel') ∧
      channel'.sender = (chan.sender.trySend event).2 := by
  have hsend := chan.sender_trySend event
  unfold pumpEvent
  simp only [h]
  split
  next => exact ⟨_, rfl, hsend⟩
  next => exact ⟨_, rfl, hsend⟩
  next hne _ =>
    refine ⟨_, rfl, ?_⟩
    have hfull : ¬ chan.sender.hasRoom := fun hroom =>
      hne ((chan.trySend_sent_iff event).mpr (Mpsc.trySend_of_hasRoom hroom event).1)
    show ((chan.trySend event).2.sender.trySend _).2 = _
    rw [hsend, (Mpsc.trySend_of_not_hasRoom hfull event).2]
    exact (Mpsc.trySend_of_not_hasRoom hfull _).2

theorem unsubscribe_channels (h : (router.unsubscribe id).2.channels id' = some channel) :
    router.channels id' = some channel := by
  unfold unsubscribe at h
  split at h
  · exact h
  · exact (update_none h).2

theorem unsubscribe_rules (router : RouterInner δ) (id) :
    (router.unsubscribe id).2.rules = router.rules := by
  unfold unsubscribe
  split <;> rfl

end RouterInner

end Palimpsest.Server
