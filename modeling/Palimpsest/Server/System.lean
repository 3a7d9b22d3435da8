import Palimpsest.Server.Router

/-! The server as a transition system. A subscribe call is cut where it gives up a lock, so that
rule changes, other subscribes, pumps and consumers may run between any two of its sections. -/
namespace Palimpsest.Server
open Sql Dataflow Permissions Function

variable {δ : Type}

inductive SubscribeBlockingError where
  | schemaLookup (detail : String)
  | router (error : RouterError)
deriving Repr, DecidableEq

/-- What a subscriber's rows come from: a plan compiled by some subscribe call, or the tables
themselves. -/
inductive Source where
  | planOf (builder : SubscriptionId)
  | passThrough
deriving Repr, DecidableEq

inductive Stage (δ : Type) where
  | compiled
  | looked (prerunInitial : Option (List (Row δ) × Lsn))
  | checked (prerunInitial : Option (List (Row δ) × Lsn))
  | opened (opened : Opened δ)
  | registered (snapshotLsn : Lsn) (seedUpdates : List (TableDiff δ))
  | seeded (dataflow : IncrementalDataflow δ) (initial : List (Row δ)) (snapshotLsn : Lsn)
  | accepted
  | rejected (error : SubscribeBlockingError)

/-- A subscribe call. The last four fields are history variables: how often the rules had been
replaced when the call read them to compile, when it read them again to check, and when it
registered, and what has served it. -/
structure Call (δ : Type) where
  request : SubscribeRequest
  compiledPlan : Option CompiledPlan
  stage : Stage δ
  generation : ℕ
  checkedAt : Option ℕ
  registeredAt : Option ℕ
  servedBy : List Source

/-- Only plans with inputs run on the host. -/
def Call.canonicalKey (call : Call δ) : Option String :=
  match call.compiledPlan with
  | some plan =>
    if plan.inputs = [] then none
    else some (canonicalSubgraphKey call.request.query call.request.userCtx)
  | none => none

/-- A pump, with the event it is handing to the rest of a subscriber list. -/
structure Pump (δ : Type) where
  defaultTable : Option TableId
  delivering : Option (DiffEvent δ × List SubscriptionId)

/-- The server. The last two fields are history variables: the rule sets replaced so far, and for
each subscription every event ever queued with the number of rule changes before it. -/
structure State (δ : Type) where
  router : RouterInner δ
  host : PersistentHost δ
  calls : SubscriptionId → Option (Call δ)
  nextId : SubscriptionId
  pumps : String → Option (Pump δ)
  past : List (List CompiledRule)
  log : SubscriptionId → List (ℕ × DiffEvent δ)

structure Deployment (δ : Type) where
  engine : Engine δ
  config : RouterConfig
  datumToKeyBytes : δ → List ℕ

namespace State

def start : State δ :=
  ⟨.empty, .empty, fun _ => none, 1, fun _ => none, [], fun _ => []⟩

def generation (s : State δ) : ℕ := s.past.length

/-- The rule set that was in force after `n` replacements. -/
def rulesAt (s : State δ) (n : ℕ) : Option (List CompiledRule) := (s.past ++ [s.router.rules])[n]?

def setCall (s : State δ) (id : SubscriptionId) (call : Call δ) : State δ :=
  { s with calls := update s.calls id (some call) }

/-- Records an event that a channel with room is about to take. -/
def note (s : State δ) (id : SubscriptionId) (event : DiffEvent δ) (sent : Bool) : State δ :=
  if sent then
    { s with log := update s.log id (s.log id ++ [(s.generation, event)]) }
  else s

section
variable (s : State δ) (id : SubscriptionId) (event : DiffEvent δ) (sent : Bool)

@[simp]
theorem note_router : (s.note id event sent).router = s.router := by
  cases sent <;> rfl

@[simp]
theorem note_host : (s.note id event sent).host = s.host := by
  cases sent <;> rfl

@[simp]
theorem note_calls : (s.note id event sent).calls = s.calls := by
  cases sent <;> rfl

@[simp]
theorem note_nextId : (s.note id event sent).nextId = s.nextId := by
  cases sent <;> rfl

@[simp]
theorem note_pumps : (s.note id event sent).pumps = s.pumps := by
  cases sent <;> rfl

@[simp]
theorem note_past : (s.note id event sent).past = s.past := by
  cases sent <;> rfl

end

end State

section Subscribe

/-- The plan is compiled from the rewritten graph, and from the graph as it is when the rewrite
fails. -/
def compileRequest (engine : Engine δ) (rules : List CompiledRule) (request : SubscribeRequest) :
    Option CompiledPlan :=
  match rewrite request.graph rules request.userCtx with
  | .ok outcome => compileMir engine outcome.graph
  | .error _ => compileMir engine request.graph

/-- Without a plan the result schema must come from the source database. -/
def firstStage (compiledPlan : Option CompiledPlan) (schema : Except String Unit) : Stage δ :=
  match compiledPlan, schema with
  | none, .error detail => .rejected (.schemaLookup detail)
  | _, _ => .compiled

/-- Reads the rules, compiles the plan and allocates the id. -/
def begin (d : Deployment δ) (s : State δ) (request : SubscribeRequest)
    (schema : Except String Unit) : State δ :=
  let compiledPlan := compileRequest d.engine s.router.rules request
  { s.setCall s.nextId
      ⟨request, compiledPlan, firstStage compiledPlan schema, s.generation, none, none, []⟩ with
    nextId := s.nextId + 1 }

theorem firstStage_cases (compiledPlan schema) :
    firstStage (δ := δ) compiledPlan schema = .compiled ∨
      ∃ error, firstStage (δ := δ) compiledPlan schema = .rejected error := by
  unfold firstStage
  split
  · exact .inr ⟨_, rfl⟩
  · exact .inl rfl

theorem firstStage_elim {P : Stage δ → Prop} (hcomp : P .compiled)
    (hrejected : ∀ error, P (.rejected error)) (compiledPlan schema) :
    P (firstStage compiledPlan schema) := by
  rcases firstStage_cases (δ := δ) compiledPlan schema with hstage | ⟨error, hstage⟩
  · rwa [hstage]
  · rw [hstage]
    exact hrejected error

/-- Attaches to the plan registered under the call's key, if there is one, and takes its view. -/
def lookUp (s : State δ) (id : SubscriptionId) (call : Call δ) : State δ :=
  match call.canonicalKey with
  | none => s.setCall id { call with stage := .looked none }
  | some key =>
    match s.host.plans key with
    | none => s.setCall id { call with stage := .looked none }
    | some state =>
      { s.setCall id { call with
          stage := .looked (some (state.lastOutput, state.lastLsn))
          servedBy := call.servedBy ++ [.planOf state.builder] } with
        host := s.host.attach key state id }

/-- Reads the rules again and checks the request against them. -/
def check (s : State δ) (id : SubscriptionId) (call : Call δ)
    (prerunInitial : Option (List (Row δ) × Lsn)) : State δ :=
  match checkPermissions call.request.graph s.router.rules call.request.userCtx
      call.compiledPlan with
  | .error error => s.setCall id { call with stage := .rejected (.router error) }
  | .ok _ =>
    s.setCall id { call with stage := .checked prerunInitial, checkedAt := some s.generation }

/-- What the first event is made from. -/
def Call.ownSource (call : Call δ) (id : SubscriptionId) : Source :=
  if call.compiledPlan.isSome then .planOf id else .passThrough

/-- A call that fails here detaches from the shared plan only when its channel was saturated. -/
def failOpen (s : State δ) (id : SubscriptionId) (call : Call δ) (error : RouterError) : State δ :=
  let failed := s.setCall id { call with stage := .rejected (.router error) }
  match call.canonicalKey, error with
  | some key, .channelSaturated => { failed with host := failed.host.release key id }
  | _, _ => failed

/-- Takes the snapshot and queues the first event. -/
def openUp (d : Deployment δ) (s : State δ) (id : SubscriptionId) (call : Call δ)
    (prerunInitial : Option (List (Row δ) × Lsn)) (fetched : Except String (SnapshotBatch δ)) :
    State δ :=
  match takeSnapshot d.engine call.compiledPlan prerunInitial fetched with
  | .error error => failOpen s id call error
  | .ok snapshot =>
    match openChannel d.config call.request.resumeLsn snapshot with
    | .error error => failOpen s id call error
    | .ok opened =>
      let served := if prerunInitial.isSome then [] else [call.ownSource id]
      (s.note id (.initial snapshot.1 snapshot.2.1) (opened.channel.sender.queue ≠ [])).setCall id
        { call with stage := .opened opened, servedBy := call.servedBy ++ served }

def registerCall (s : State δ) (id : SubscriptionId) (call : Call δ) (opened : Opened δ) :
    State δ :=
  match s.router.register id call.request opened with
  | .error error => failOpen s id call error
  | .ok router =>
    { s.setCall id { call with
        stage := .registered opened.snapshotLsn opened.seedUpdates
        registeredAt := some s.generation } with
      router := router }

def groupSeed (updates : List (TableDiff δ)) : Inputs δ := fun table =>
  (updates.filter fun update => update.1 == table && (0 < update.2.2 : Bool)).map fun update =>
    update.2.1

/-- Attaches to a plan that was registered in the meantime, or seeds a worker of its own. -/
def seed (d : Deployment δ) (s : State δ) (id : SubscriptionId) (call : Call δ)
    (snapshotLsn : Lsn) (seedUpdates : List (TableDiff δ)) : State δ :=
  match call.compiledPlan, call.canonicalKey with
  | some plan, some key =>
    if seedUpdates = [] then s.setCall id { call with stage := .accepted }
    else
      match s.host.plans key with
      | some state =>
        { s.setCall id { call with
            stage := .accepted
            servedBy := call.servedBy ++ [.planOf state.builder] } with
          host := s.host.attach key state id }
      | none =>
        let seeded := (IncrementalDataflow.spawn plan).seed d.engine (groupSeed seedUpdates)
        s.setCall id { call with stage := .seeded seeded.2 seeded.1 snapshotLsn }
  | _, _ => s.setCall id { call with stage := .accepted }

/-- Registers the seeded worker, unless another call was faster. -/
def insertPlan (s : State δ) (id : SubscriptionId) (call : Call δ)
    (dataflow : IncrementalDataflow δ) (initial : List (Row δ)) (snapshotLsn : Lsn) : State δ :=
  match call.canonicalKey with
  | none => s.setCall id { call with stage := .accepted }
  | some key =>
    let builder := match s.host.plans key with
      | some state => state.builder
      | none => id
    { s.setCall id { call with
        stage := .accepted
        servedBy := call.servedBy ++ [.planOf builder] } with
      host := s.host.insertSeeded key dataflow initial snapshotLsn id }

/-- One section of the call; the argument is what the snapshot provider would answer. -/
def advance (d : Deployment δ) (s : State δ) (id : SubscriptionId)
    (fetched : Except String (SnapshotBatch δ)) : State δ :=
  match s.calls id with
  | none => s
  | some call =>
    match call.stage with
    | .compiled => lookUp s id call
    | .looked prerunInitial => check s id call prerunInitial
    | .checked prerunInitial => openUp d s id call prerunInitial fetched
    | .opened opened => registerCall s id call opened
    | .registered snapshotLsn seedUpdates => seed d s id call snapshotLsn seedUpdates
    | .seeded dataflow initial snapshotLsn => insertPlan s id call dataflow initial snapshotLsn
    | .accepted => s
    | .rejected _ => s

end Subscribe

section

/-- An accepted call on the host makes sure that its key has a pump. -/
def ensurePump (s : State δ) (id : SubscriptionId) : State δ :=
  match s.calls id with
  | some ⟨request, some plan, .accepted, _, _, _, _⟩ =>
    let key := canonicalSubgraphKey request.query request.userCtx
    if plan.inputs = [] ∨ (s.pumps key).isSome then s
    else
      let defaultTable := match plan.inputs with
        | [table] => some table
        | _ => none
      { s with pumps := update s.pumps key (some ⟨defaultTable, none⟩) }
  | _ => s

/-- Diffs no table can be named for are dropped. -/
def attributed (defaultTable : Option TableId) (delta : QueryTransactionDelta δ) :
    List (TableDiff δ) :=
  delta.diffs.filterMap fun diff =>
    (diff.table.or defaultTable).map fun table => (table, diff.row, diff.diff)

def outputDelta (delta : QueryTransactionDelta δ) (deltas : List (AggregateDelta δ)) :
    QueryTransactionDelta δ :=
  { delta with diffs := deltas.map fun d => ⟨none, d.row, d.lsn, d.diff⟩ }

/-- An idle pump feeds one transaction to its plan and takes the subscriber list; it exits when
the plan is gone. -/
def pumpTransaction [DecidableEq δ] (d : Deployment δ) (s : State δ) (key : String)
    (delta : QueryTransactionDelta δ) : State δ :=
  match s.pumps key with
  | some ⟨defaultTable, none⟩ =>
    match s.host.applyAndFanout d.engine key (attributed defaultTable delta) delta.commitLsn with
    | none => { s with pumps := update s.pumps key none }
    | some ((deltas, subscribers), host) =>
      if deltas = [] then { s with host := host }
      else
        let event := pairTransaction (primaryKeyBytes d.datumToKeyBytes [0])
          (outputDelta delta deltas)
        { s with
          host := host
          pumps := update s.pumps key (some ⟨defaultTable, some (event, subscribers)⟩) }
  | _ => s

/-- Between transactions a pump notices that its plan is gone and exits. -/
def pumpTick (s : State δ) (key : String) : State δ :=
  match s.pumps key, s.host.plans key with
  | some ⟨_, none⟩, none => { s with pumps := update s.pumps key none }
  | _, _ => s

def sendsTo (s : State δ) (id : SubscriptionId) : Bool :=
  match s.router.channels id with
  | some channel => decide channel.sender.hasRoom
  | none => false

/-- The pump hands its event to the next subscriber on its list. -/
def deliver (s : State δ) (key : String) : State δ :=
  match s.pumps key with
  | some ⟨defaultTable, some (event, target :: rest)⟩ =>
    { s.note target event (sendsTo s target) with
      router := (s.router.pumpEvent target event).2
      pumps := update s.pumps key (some ⟨defaultTable, some (event, rest)⟩) }
  | some ⟨defaultTable, some (_, [])⟩ =>
    { s with pumps := update s.pumps key (some ⟨defaultTable, none⟩) }
  | _ => s

/-- A subscription that does not run on the host gets the table diffs themselves. -/
def pumpCursor (d : Deployment δ) (s : State δ) (id : SubscriptionId) (primaryKey : List ℕ)
    (delta : QueryTransactionDelta δ) : State δ :=
  match s.calls id with
  | none => s
  | some call =>
    match call.canonicalKey, call.stage with
    | none, .accepted =>
      if delta.isEmpty then s
      else
        let event := pairTransaction (primaryKeyBytes d.datumToKeyBytes primaryKey) delta
        { (s.note id event (sendsTo s id)).setCall id
            { call with servedBy := call.servedBy ++ [.passThrough] } with
          router := (s.router.pumpEvent id event).2 }
    | _, _ => s

end

/-- Replaces the rules and queues a resync on every channel that has room. -/
def setRules (s : State δ) (rules : List CompiledRule) : State δ :=
  { s with
    router := s.router.setRules rules
    past := s.past ++ [s.router.rules]
    log := fun id => if sendsTo s id then
        s.log id ++ [(s.generation + 1, .resync .permissionsChanged)]
      else s.log id }

def updateChannel (s : State δ) (id : SubscriptionId)
    (f : Mpsc (DiffEvent δ) → Mpsc (DiffEvent δ)) : State δ :=
  { s with router := { s.router with
      channels := update s.router.channels id
        ((s.router.channels id).map fun channel => { channel with sender := f channel.sender }) } }

inductive Action (δ : Type) where
  | begin (request : SubscribeRequest) (schema : Except String Unit)
  | advance (id : SubscriptionId) (fetched : Except String (SnapshotBatch δ))
  | ensurePump (id : SubscriptionId)
  | pumpTransaction (key : String) (delta : QueryTransactionDelta δ)
  | pumpTick (key : String)
  | deliver (key : String)
  | pumpCursor (id : SubscriptionId) (primaryKey : List ℕ) (delta : QueryTransactionDelta δ)
  | setRules (rules : List CompiledRule)
  | unsubscribe (id : SubscriptionId)
  | release (key : String) (id : SubscriptionId)
  | receive (id : SubscriptionId)
  | hangUp (id : SubscriptionId)

def step [DecidableEq δ] (d : Deployment δ) (s : State δ) : Action δ → State δ
  | .begin request schema => begin d s request schema
  | .advance id fetched => advance d s id fetched
  | .ensurePump id => ensurePump s id
  | .pumpTransaction key delta => pumpTransaction d s key delta
  | .pumpTick key => pumpTick s key
  | .deliver key => deliver s key
  | .pumpCursor id primaryKey delta => pumpCursor d s id primaryKey delta
  | .setRules rules => setRules s rules
  | .unsubscribe id => { s with router := (s.router.unsubscribe id).2 }
  | .release key id => { s with host := s.host.release key id }
  | .receive id => updateChannel s id Mpsc.receive
  | .hangUp id => updateChannel s id Mpsc.hangUp

end Palimpsest.Server
