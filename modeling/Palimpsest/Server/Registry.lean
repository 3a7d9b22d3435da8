import Palimpsest.Server.Channel
import Palimpsest.Permissions.Rule

/-! The tables the router keeps about its subscriptions: the registry with its three indexes, the
reference counts of shared subgraphs and the acknowledgement watermarks. -/
namespace Palimpsest.Server
open Dataflow Permissions Function

abbrev ConnectionId := ℕ

abbrev SubscriptionId := ℕ

abbrev ClientSubscriptionId := String

abbrev QueryId := String

inductive RouterError where
  | duplicateClientSubscriptionId
  | unknownSubscription (id : SubscriptionId)
  | snapshot (detail : String)
  | permission (error : PermissionError)
  | permissionUnenforceable (table : String)
  | channelSaturated
deriving Repr, DecidableEq

inductive SubscriptionState where
  | seeding
  | streaming
  | draining
  | closed
deriving Repr, DecidableEq

structure Subscription where
  id : SubscriptionId
  clientId : ClientSubscriptionId
  connection : ConnectionId
  query : QueryId
  userCtx : UserContext
  snapshotLsn : Lsn
  cursorLsn : Lsn
  state : SubscriptionState

structure SubscriptionRegistry where
  byId : SubscriptionId → Option Subscription
  byClientId : ConnectionId × ClientSubscriptionId → Option SubscriptionId
  byConnection : ConnectionId → List SubscriptionId

namespace SubscriptionRegistry

def empty : SubscriptionRegistry := ⟨fun _ => none, fun _ => none, fun _ => []⟩

def insert (registry : SubscriptionRegistry) (subscription : Subscription) :
    Except RouterError SubscriptionRegistry :=
  let key := (subscription.connection, subscription.clientId)
  match registry.byClientId key with
  | some _ => .error .duplicateClientSubscriptionId
  | none =>
    .ok
      { byId := update registry.byId subscription.id (some subscription)
        byClientId := update registry.byClientId key (some subscription.id)
        byConnection := update registry.byConnection subscription.connection
          (registry.byConnection subscription.connection ++ [subscription.id]) }

def setState (registry : SubscriptionRegistry) (id : SubscriptionId) (state : SubscriptionState) :
    SubscriptionRegistry :=
  { registry with
    byId := update registry.byId id ((registry.byId id).map fun s => { s with state }) }

def remove (registry : SubscriptionRegistry) (id : SubscriptionId) : Option SubscriptionRegistry :=
  (registry.byId id).map fun subscription =>
    { byId := update registry.byId id none
      byClientId := update registry.byClientId
        (subscription.connection, subscription.clientId) none
      byConnection := update registry.byConnection subscription.connection
        ((registry.byConnection subscription.connection).filter (· ≠ id)) }

end SubscriptionRegistry

abbrev SharedSubgraphId := ℕ

structure SharedSubgraphEntry where
  key : String
  refCount : ℕ
deriving Repr, DecidableEq

/-- The source's counters saturate at 64 bits. -/
structure SharedSubgraphRegistry where
  nextId : SharedSubgraphId
  idsByKey : String → Option SharedSubgraphId
  entries : SharedSubgraphId → Option SharedSubgraphEntry

namespace SharedSubgraphRegistry

def empty : SharedSubgraphRegistry := ⟨0, fun _ => none, fun _ => none⟩

def acquire (registry : SharedSubgraphRegistry) (key : String) :
    SharedSubgraphId × SharedSubgraphRegistry :=
  match registry.idsByKey key with
  | some id =>
    (id, { registry with
      entries := update registry.entries id
        ((registry.entries id).map fun e => { e with refCount := e.refCount + 1 }) })
  | none =>
    (registry.nextId,
      { nextId := registry.nextId + 1
        idsByKey := update registry.idsByKey key (some registry.nextId)
        entries := update registry.entries registry.nextId (some ⟨key, 1⟩) })

def release (registry : SharedSubgraphRegistry) (id : SharedSubgraphId) : SharedSubgraphRegistry :=
  match registry.entries id with
  | none => registry
  | some entry =>
    if 0 < entry.refCount - 1 then
      { registry with
        entries := update registry.entries id
          (some { entry with refCount := entry.refCount - 1 }) }
    else
      { registry with
        idsByKey := update registry.idsByKey entry.key none
        entries := update registry.entries id none }

end SharedSubgraphRegistry

/-- The lowest LSN each subscriber still needs. -/
structure AckTracker where
  watermarks : SubscriptionId → Option Lsn

namespace AckTracker

def empty : AckTracker := ⟨fun _ => none⟩

/-- Regressions are ignored. -/
def install (tracker : AckTracker) (id : SubscriptionId) (lsn : Lsn) : AckTracker :=
  ⟨update tracker.watermarks id
    (some (match tracker.watermarks id with
      | some current => max current lsn
      | none => lsn))⟩

def remove (tracker : AckTracker) (id : SubscriptionId) : AckTracker :=
  ⟨update tracker.watermarks id none⟩

end AckTracker

end Palimpsest.Server
