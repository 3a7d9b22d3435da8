import Palimpsest.Server.Pairing
import Palimpsest.Server.System
import Palimpsest.Dataflow.Maintained
import Palimpsest.Foundation.Runs

/-! The subscribers of one canonical query. Attaching to the shared plan, building the first event,
registering the channel and starting the pump are separate critical sections. -/
namespace Palimpsest.Server
open Sql Dataflow Function

/-- A query under one canonical key: its plan, the encoding of primary keys, and its tables before
the first transaction. -/
structure SharedQuery (δ : Type) [DecidableEq δ] where
  runtime : Runtime δ
  lowered : MirGraph → Option (Plan δ)
  graph : MirGraph
  plan : Plan δ
  lowers : lowered graph = some plan
  canonical : String
  config : RouterConfig
  keyOf : Row δ → List (List ℕ)
  base : Inputs δ
  starts : (value runtime plan base []).isSome

/-- Where a subscribe call stands. A worker seeded outside the lock is determined by its inputs. -/
inductive SharingPhase (δ : Type) where
  | idle
  | looked (prerunInitial : Option (List (Row δ) × Lsn))
  | opened (opened : Opened δ)
  | registered (snapshotLsn : Lsn) (seedUpdates : List (TableDiff δ))
  | seeded (inputs : Inputs δ) (snapshotLsn : Lsn)
  | accepted (snapshotLsn : Lsn)
  | rejected

/-- The pump: the position of its cursor, and the event it is handing out. -/
structure CanonicalPump (δ : Type) where
  cursorLsn : Lsn
  delivering : Option (DiffEvent δ × List SubscriptionId)
deriving DecidableEq

/-- The transactions committed on the query's tables, the clock of the source, and what the server
holds for the query. The last field is a history variable: every event queued to a subscriber. -/
structure Sharing (δ : Type) where
  wal : List (QueryTransactionDelta δ)
  clock : Lsn
  host : PersistentHost δ
  router : RouterInner δ
  calls : SubscriptionId → SharingPhase δ
  pump : Option (CanonicalPump δ)
  log : SubscriptionId → List (DiffEvent δ)

inductive SharingAction (δ : Type) where
  | commit (delta : QueryTransactionDelta δ)
  | pass (lsn : Lsn)
  | look (id : SubscriptionId)
  | refuse (id : SubscriptionId)
  | openUp (id : SubscriptionId) (resumeLsn : Option Lsn)
      (fetched : Except String (SnapshotBatch δ))
  | register (id : SubscriptionId) (request : SubscribeRequest)
  | seed (id : SubscriptionId)
  | insert (id : SubscriptionId)
  | ensurePump (id : SubscriptionId)
  | pump
  | deliver
  | tick
  | unsubscribe (id : SubscriptionId)
  | release (id : SubscriptionId)
  | receive (id : SubscriptionId)
  | hangUp (id : SubscriptionId)

namespace Sharing
variable {δ : Type} (s : Sharing δ) (id : SubscriptionId)

def start : Sharing δ := ⟨[], 0, .empty, .empty, fun _ => .idle, none, fun _ => []⟩

@[simp] def setPhase (phase : SharingPhase δ) : Sharing δ :=
  { s with calls := update s.calls id phase }

def upTo (wal : List (QueryTransactionDelta δ)) (lsn : Lsn) : List (QueryTransactionDelta δ) :=
  wal.filter fun delta => delta.commitLsn ≤ lsn

/-- What the cursor hands out next. -/
def next (cursorLsn : Lsn) : Option (QueryTransactionDelta δ) :=
  s.wal.find? fun delta => cursorLsn < delta.commitLsn

def updateSender (f : Mpsc (DiffEvent δ) → Mpsc (DiffEvent δ)) : Sharing δ :=
  { s with router := { s.router with
      channels := update s.router.channels id
        ((s.router.channels id).map fun channel => { channel with sender := f channel.sender }) } }

def sends : Bool :=
  match s.router.channels id with
  | some channel => decide channel.sender.hasRoom
  | none => false

/-- The permission check fails. Nothing detaches the call from the plan. -/
def refuse : Sharing δ :=
  match s.calls id with
  | .looked _ => s.setPhase id .rejected
  | _ => s

def register (request : SubscribeRequest) : Sharing δ :=
  match s.calls id with
  | .opened opened =>
    match s.router.register id request opened with
    | .error _ => s.setPhase id .rejected
    | .ok router =>
      { s.setPhase id (.registered opened.snapshotLsn opened.seedUpdates) with router := router }
  | _ => s

/-- A pump that is still running is kept, wherever its cursor stands. -/
def ensurePump : Sharing δ :=
  match s.calls id, s.pump with
  | .accepted snapshotLsn, none => { s with pump := some ⟨snapshotLsn, none⟩ }
  | _, _ => s

def deliver : Sharing δ :=
  match s.pump with
  | some ⟨cursorLsn, some (event, target :: rest)⟩ =>
    { s with
      router := (s.router.pumpEvent target event).2
      log := if s.sends target then update s.log target (s.log target ++ [event]) else s.log
      pump := some ⟨cursorLsn, some (event, rest)⟩ }
  | some ⟨cursorLsn, some (_, [])⟩ => { s with pump := some ⟨cursorLsn, none⟩ }
  | _ => s

end Sharing

namespace SharedQuery
variable {δ : Type} [DecidableEq δ] (q : SharedQuery δ) (s : Sharing δ)

def engine : Engine δ := engineOf q.runtime q.lowered

def compiled : CompiledPlan := ⟨q.graph, q.plan.tables⟩

def defaultTable : Option TableId :=
  match q.plan.tables with
  | [table] => some table
  | _ => none

def batchOf (delta : QueryTransactionDelta δ) : Batch δ :=
  ⟨attributed q.defaultTable delta, delta.commitLsn⟩

def outputAfter (transactions : List (QueryTransactionDelta δ)) : Option (Multiset (Row δ)) :=
  value q.runtime q.plan q.base (transactions.map q.batchOf)

def outputAt (lsn : Lsn) : Option (Multiset (Row δ)) :=
  q.outputAfter (Sharing.upTo s.wal lsn)

section

def look (id : SubscriptionId) : Sharing δ :=
  match s.calls id with
  | .idle =>
    match s.host.cachedView q.canonical id with
    | some (view, host) => { s.setPhase id (.looked (some view)) with host := host }
    | none => s.setPhase id (.looked none)
  | _ => s

def openUp (id : SubscriptionId) (resumeLsn : Option Lsn)
    (fetched : Except String (SnapshotBatch δ)) : Sharing δ :=
  match s.calls id with
  | .looked prerunInitial =>
    match takeSnapshot q.engine (some q.compiled) prerunInitial fetched with
    | .error _ => s.setPhase id .rejected
    | .ok snapshot =>
      match openChannel q.config resumeLsn snapshot with
      | .error _ => { s.setPhase id .rejected with host := s.host.release q.canonical id }
      | .ok opened =>
        { s.setPhase id (.opened opened) with
          log := update s.log id opened.channel.sender.queue }
  | _ => s

/-- An empty seed registers no plan. -/
def seed (id : SubscriptionId) : Sharing δ :=
  match s.calls id with
  | .registered snapshotLsn seedUpdates =>
    if seedUpdates = [] then s.setPhase id (.accepted snapshotLsn)
    else
      match s.host.plans q.canonical with
      | some state =>
        { s.setPhase id (.accepted snapshotLsn) with host := s.host.attach q.canonical state id }
      | none => s.setPhase id (.seeded (groupSeed seedUpdates) snapshotLsn)
  | _ => s

def insert (id : SubscriptionId) : Sharing δ :=
  match s.calls id with
  | .seeded inputs snapshotLsn =>
    { s.setPhase id (.accepted snapshotLsn) with
      host := s.host.seeded q.engine q.canonical q.compiled inputs snapshotLsn id }
  | _ => s

/-- Feeds the next transaction to the plan and takes the subscriber list. -/
def runPump : Sharing δ :=
  match s.pump with
  | some ⟨cursorLsn, none⟩ =>
    match s.next cursorLsn with
    | none => s
    | some delta =>
      match s.host.applyAndFanout q.engine q.canonical (q.batchOf delta).diffs
          delta.commitLsn with
      | none => { s with pump := none }
      | some ((deltas, subscribers), host) =>
        { s with
          host := host
          pump := some ⟨delta.commitLsn,
            if deltas = [] then none
            else some (pairTransaction q.keyOf (outputDelta delta deltas), subscribers)⟩ }
  | _ => s

def tick : Sharing δ :=
  match s.pump, s.host.plans q.canonical with
  | some ⟨_, none⟩, none => { s with pump := none }
  | _, _ => s

end

def step : SharingAction δ → Sharing δ
  | .commit delta => { s with wal := s.wal ++ [delta], clock := delta.commitLsn }
  | .pass lsn => { s with clock := lsn }
  | .look id => q.look s id
  | .refuse id => s.refuse id
  | .openUp id resumeLsn fetched => q.openUp s id resumeLsn fetched
  | .register id request => s.register id request
  | .seed id => q.seed s id
  | .insert id => q.insert s id
  | .ensurePump id => s.ensurePump id
  | .pump => q.runPump s
  | .deliver => s.deliver
  | .tick => q.tick s
  | .unsubscribe id => { s with router := (s.router.unsubscribe id).2 }
  | .release id => { s with host := s.host.release q.canonical id }
  | .receive id => s.updateSender id Mpsc.receive
  | .hangUp id => s.updateSender id Mpsc.hangUp

/-- What the source database and its snapshots do. Transactions commit at rising LSNs and name the
table of each change; a snapshot shows the tables as they are. -/
def Environment : SharingAction δ → Prop
  | .commit delta => s.clock < delta.commitLsn ∧ delta.commitLsn ≤ maxLsn ∧
    (∀ diff ∈ delta.diffs, diff.table.isSome) ∧
    IsBase q.base ((s.wal ++ [delta]).map q.batchOf)
      (accumulated q.base ((s.wal ++ [delta]).map q.batchOf)) ∧
    (q.outputAfter (s.wal ++ [delta])).isSome
  | .pass lsn => s.clock ≤ lsn
  | .openUp _ _ (.ok batch) => batch.snapshotLsn = s.clock ∧ (batch.rows.map Prod.fst).Nodup ∧
    ∀ table ∈ q.plan.tables,
      (batch.inputs table : Multiset (Row δ)) = accumulated q.base (s.wal.map q.batchOf) table
  | _ => True

end SharedQuery

namespace Sharing
variable {δ : Type} (s : Sharing δ) (id : SubscriptionId)

/-- Between taking its first rows and registering its channel. -/
def awaiting : Bool :=
  match s.calls id with
  | .looked _ | .opened _ => true
  | _ => false

/-- An event may still reach the subscriber. -/
def Listening : Prop :=
  s.awaiting id = true ∨
    ∃ channel, s.router.channels id = some channel ∧ channel.sender.receiving = true

/-- The event the pump still has to hand to a subscriber. -/
def pendingFor : List (DiffEvent δ) :=
  match s.pump with
  | some ⟨_, some (event, targets)⟩ => if id ∈ targets then [event] else []
  | _ => []

end Sharing

def DiffEvent.updateLsn {δ : Type} : DiffEvent δ → Option Lsn
  | .transactionUpdate _ _ commitLsn _ _ => some commitLsn
  | _ => none

/-- The first rows with some events added. -/
def tally {δ : Type} [DecidableEq δ] (rows : List (Row δ)) (events : List (DiffEvent δ))
    (row : Row δ) : ℤ :=
  (rows : Multiset (Row δ)).count row + SignedBag.net (events.flatMap DiffEvent.signed) row

namespace SharedQuery
variable {δ : Type} [DecidableEq δ] (q : SharedQuery δ)

/-- The conditions that keep subscribers coherent: a snapshot shows no duplicate row; a call that
joins or starts a plan, and a pump that is kept or spawned, stand where the plan stands; a result
changes by at most one copy of a row; an event meets neither a call that has yet to register its
channel nor a full channel. -/
def Orderly (s : Sharing δ) : SharingAction δ → Prop
  | .commit delta => delta.commitLsn ≠ maxLsn
  | .openUp id _ _ => s.calls id = .looked none → ∀ out, q.outputAfter s.wal = some out → out.Nodup
  | .seed id => ∀ lsn updates state, s.calls id = .registered lsn updates → updates ≠ [] →
    s.host.plans q.canonical = some state →
      Sharing.upTo s.wal lsn = Sharing.upTo s.wal state.lastLsn
  | .insert id => ∀ inputs lsn, s.calls id = .seeded inputs lsn →
    (∀ state, s.host.plans q.canonical = some state →
      Sharing.upTo s.wal lsn = Sharing.upTo s.wal state.lastLsn) ∧
    (s.host.plans q.canonical = none → ∀ pump, s.pump = some pump →
      Sharing.upTo s.wal pump.cursorLsn = Sharing.upTo s.wal lsn)
  | .ensurePump id => ∀ lsn state, s.calls id = .accepted lsn → s.pump = none →
    s.host.plans q.canonical = some state →
      Sharing.upTo s.wal lsn = Sharing.upTo s.wal state.lastLsn
  | .pump => ∀ cursorLsn delta old new, s.pump = some ⟨cursorLsn, none⟩ →
    s.next cursorLsn = some delta → q.outputAt s cursorLsn = some old →
    q.outputAt s delta.commitLsn = some new →
      ∀ row, new.count row ≤ old.count row + 1 ∧ old.count row ≤ new.count row + 1
  | .deliver => ∀ cursorLsn event target rest,
    s.pump = some ⟨cursorLsn, some (event, target :: rest)⟩ →
      s.awaiting target = false ∧ ∀ channel, s.router.channels target = some channel →
        channel.sender.receiving = true → channel.sender.hasRoom
  | _ => True

/-- Each queued update rises, and the first rows with the updates up to it are the query's result
at its LSN. -/
structure Ledger (s : Sharing δ) (lsn : Lsn) (rows : List (Row δ)) (events : List (DiffEvent δ)) :
    Prop where
  rising : (lsn :: events.filterMap DiffEvent.updateLsn).Pairwise (· < ·)
  known : ∀ known ∈ lsn :: events.filterMap DiffEvent.updateLsn, known ≤ s.clock
  sums : ∀ done event later, events = done ++ event :: later →
    ∃ position out, event.updateLsn = some position ∧ q.outputAt s position = some out ∧
      ∀ row, tally rows (done ++ [event]) row = out.count row

/-- What a subscriber has been told is the query's result at each step; and once the pump has
nothing left for it, it is the shared plan's output. -/
structure Coherent (s : Sharing δ) (id : SubscriptionId) : Prop where
  queued : ∀ snapshotLsn lsn rows rest, s.calls id = .accepted snapshotLsn →
    s.log id = .initial lsn rows :: rest → q.Ledger s lsn rows rest
  caughtUp : ∀ snapshotLsn lsn rows rest state, s.calls id = .accepted snapshotLsn →
    s.log id = .initial lsn rows :: rest → s.host.plans q.canonical = some state →
    id ∈ state.subscribers → s.Listening id → s.pendingFor id = [] →
      ∀ row, tally rows rest row = (state.lastOutput : Multiset (Row δ)).count row

end SharedQuery

end Palimpsest.Server
