import Palimpsest.Server.Tables

/-! The connections of a server. Each has a message loop, which spawns a task for every subscribe
message it admits, and a teardown when its stream ends. The loop and the tasks are cut where they
give up a lock, so that everything else may run in between. -/
namespace Palimpsest.Server
open Sql Dataflow Permissions Function

variable {δ : Type}

/-- Where the message loop stands: between two messages, in an unsubscribe message, or in the
teardown. -/
inductive LoopStage where
  | running
  | unsubscribing (id : SubscriptionId) (hostCanonical : Option String)
  | detaching (id : SubscriptionId) (hostCanonical : Option String)
  | draining (hostAttachments : List (SubscriptionId × String))
  | disconnecting (ids : List SubscriptionId)
  | ended
deriving Repr, DecidableEq

def LoopStage.serving : LoopStage → Bool
  | .running | .unsubscribing _ _ | .detaching _ _ => true
  | .draining _ | .disconnecting _ | .ended => false

/-- A connection with its tasks: those that have not called the router yet, those inside the call,
and those that have recorded its outcome but not told the client. -/
structure Connection where
  stage : LoopStage
  limiter : ConnectionLimiter
  spawned : List SubscribeRequest
  blocking : List SubscriptionId
  recorded : List SubscriptionId
  byClientId : ClientSubscriptionId → Option SubscriptionId
  hostCanonicals : List (SubscriptionId × String)

namespace Connection

def opened (maxSubscriptions : ℕ) : Connection :=
  ⟨.running, ⟨maxSubscriptions, 0⟩, [], [], [], fun _ => none, []⟩

def idle (connection : Connection) : Bool :=
  connection.spawned.isEmpty && connection.blocking.isEmpty && connection.recorded.isEmpty

/-- The loop and the tasks share the limiter, which is dropped with the last of them. -/
def slots (connection : Connection) : ℕ :=
  if connection.stage = .ended ∧ connection.idle then 0 else connection.limiter.active

end Connection

/-- The server and its connections. A pump that has returned counts as exiting until its handle is
finished. -/
structure Service (δ : Type) where
  system : State δ
  connections : ConnectionId → Connection
  exiting : String → Bool

inductive ServiceAction (δ : Type) where
  | subscribe (connection : ConnectionId) (request : SubscribeRequest) (hasToken : Bool)
  | refuse (connection : ConnectionId) (index : ℕ)
  | begin (connection : ConnectionId) (index : ℕ) (schema : Except String Unit)
  | advance (id : SubscriptionId) (fetched : Except String (SnapshotBatch δ))
  | settle (connection : ConnectionId) (id : SubscriptionId)
  | announce (connection : ConnectionId) (id : SubscriptionId) (sent cursorOpens : Bool)
  | unsubscribe (connection : ConnectionId) (clientId : ClientSubscriptionId)
  | hangUp (connection : ConnectionId)
  | proceed (connection : ConnectionId) (index : ℕ)
  | pumpTransaction (key : String) (delta : QueryTransactionDelta δ)
  | pumpTick (key : String)
  | finishPump (key : String)
  | deliver (key : String)
  | pumpCursor (id : SubscriptionId) (primaryKey : List ℕ) (delta : QueryTransactionDelta δ)
  | setRules (rules : List CompiledRule)
  | receive (id : SubscriptionId)
  | closeStream (id : SubscriptionId)

namespace Service

def start (maxSubscriptions : ℕ) : Service δ :=
  ⟨.start, fun _ => .opened maxSubscriptions, fun _ => false⟩

def setConnection (v : Service δ) (c : ConnectionId) (connection : Connection) : Service δ :=
  { v with connections := update v.connections c connection }

section

/-- The limiter decides in the loop; the work of an admitted message goes to a task. -/
def subscribe (v : Service δ) (c : ConnectionId) (request : SubscribeRequest) (hasToken : Bool) :
    Service δ :=
  let connection := v.connections c
  if connection.stage = .running then
    let (decision, limiter) := connection.limiter.admitSubscribe hasToken
    match decision with
    | .allowed => v.setConnection c { connection with
        limiter := limiter
        spawned := connection.spawned ++ [{ request with connection := c }] }
    | _ => v.setConnection c { connection with limiter := limiter }
  else v

/-- The task ends before its call: the query text is refused, or there is no such named query. -/
def refuse (v : Service δ) (c : ConnectionId) (index : ℕ) : Service δ :=
  let connection := v.connections c
  match connection.spawned[index]? with
  | none => v
  | some _ => v.setConnection c { connection with
      spawned := connection.spawned.eraseIdx index
      limiter := connection.limiter.release }

def begin (d : Deployment δ) (v : Service δ) (c : ConnectionId) (index : ℕ)
    (schema : Except String Unit) : Service δ :=
  let connection := v.connections c
  match connection.spawned[index]? with
  | none => v
  | some request =>
    { v.setConnection c { connection with
        spawned := connection.spawned.eraseIdx index
        blocking := connection.blocking ++ [v.system.nextId] } with
      system := Server.begin d v.system request schema }

/-- The outcome of an accepted call as the connection remembers it. -/
def record (connection : Connection) (id : SubscriptionId) (call : Call δ) : Connection :=
  { connection with
    blocking := connection.blocking.filter (· ≠ id)
    recorded := connection.recorded ++ [id]
    byClientId := update connection.byClientId call.request.clientId (some id)
    hostCanonicals := match call.canonicalKey with
      | some key => (id, key) :: connection.hostCanonicals.filter (·.1 ≠ id)
      | none => connection.hostCanonicals }

/-- The call is over. A rejected one gives its slot back. -/
def settle (v : Service δ) (c : ConnectionId) (id : SubscriptionId) : Service δ :=
  let connection := v.connections c
  if id ∈ connection.blocking then
    match v.system.calls id with
    | none => v
    | some call =>
      match call.stage with
      | .accepted => v.setConnection c (record connection id call)
      | .rejected _ => v.setConnection c { connection with
          blocking := connection.blocking.filter (· ≠ id)
          limiter := connection.limiter.release }
      | _ => v
  else v

/-- The client is told and, if that succeeds, the key of the call gets a pump. A handle that is not
finished counts as a running pump; a new pump whose cursor does not open returns at once. -/
def announce (v : Service δ) (c : ConnectionId) (id : SubscriptionId) (sent cursorOpens : Bool) :
    Service δ :=
  let connection := v.connections c
  if id ∈ connection.recorded then
    let finished := v.setConnection c
      { connection with recorded := connection.recorded.filter (· ≠ id) }
    match sent, (v.system.calls id).bind Call.canonicalKey with
    | true, some key =>
      if v.exiting key then finished
      else if cursorOpens ∨ (v.system.pumps key).isSome then
        { finished with system := ensurePump v.system id }
      else { finished with exiting := update v.exiting key true }
    | _, _ => finished
  else v

end

section

/-- The loop takes the subscription out of its own tables first. -/
def unsubscribe (v : Service δ) (c : ConnectionId) (clientId : ClientSubscriptionId) : Service δ :=
  let connection := v.connections c
  if connection.stage = .running then
    match connection.byClientId clientId with
    | none => v
    | some id => v.setConnection c { connection with
        stage := .unsubscribing id (connection.hostCanonicals.lookup id)
        byClientId := update connection.byClientId clientId none
        hostCanonicals := connection.hostCanonicals.filter (·.1 ≠ id) }
  else v

/-- The stream ends and the loop takes over what its tasks have recorded. -/
def hangUp (v : Service δ) (c : ConnectionId) : Service δ :=
  let connection := v.connections c
  if connection.stage = .running then
    v.setConnection c { connection with
      stage := .draining connection.hostCanonicals
      hostCanonicals := [] }
  else v

/-- The next section of the loop. The attachments drained from the table are in no particular
order. -/
def proceed (v : Service δ) (c : ConnectionId) (index : ℕ) : Service δ :=
  let connection := v.connections c
  match connection.stage with
  | .running | .ended => v
  | .unsubscribing id hostCanonical =>
    match v.system.router.unsubscribe id with
    | (.error _, _) => v.setConnection c { connection with stage := .running }
    | (.ok (), router) =>
      { v.setConnection c { connection with stage := .detaching id hostCanonical } with
        system := { v.system with router := router } }
  | .detaching id hostCanonical =>
    { v.setConnection c { connection with
        stage := .running, limiter := connection.limiter.release } with
      system := { v.system with host := match hostCanonical with
        | some canonical => v.system.host.release canonical id
        | none => v.system.host } }
  | .draining [] => v.setConnection c { connection with
      stage := .disconnecting (v.system.router.registry.byConnection c) }
  | .draining hostAttachments =>
    match hostAttachments[index]? with
    | none => v
    | some (id, canonical) =>
      { v.setConnection c { connection with
          stage := .draining (hostAttachments.eraseIdx index) } with
        system := { v.system with host := v.system.host.release canonical id } }
  | .disconnecting [] => v.setConnection c { connection with stage := .ended }
  | .disconnecting (id :: ids) =>
    { v.setConnection c { connection with stage := .disconnecting ids } with
      system := { v.system with router := (v.system.router.unsubscribe id).2 } }

end

/-- A pump that finds its plan gone returns. -/
def pumped (v : Service δ) (system : State δ) : Service δ :=
  { v with
    system := system
    exiting :=
      fun key => v.exiting key || (v.system.pumps key).isSome && (system.pumps key).isNone }

def step [DecidableEq δ] (d : Deployment δ) (v : Service δ) : ServiceAction δ → Service δ
  | .subscribe c request hasToken => subscribe v c request hasToken
  | .refuse c index => refuse v c index
  | .begin c index schema => begin d v c index schema
  | .advance id fetched => { v with system := advance d v.system id fetched }
  | .settle c id => settle v c id
  | .announce c id sent cursorOpens => announce v c id sent cursorOpens
  | .unsubscribe c clientId => unsubscribe v c clientId
  | .hangUp c => hangUp v c
  | .proceed c index => proceed v c index
  | .pumpTransaction key delta => v.pumped (pumpTransaction d v.system key delta)
  | .pumpTick key => v.pumped (pumpTick v.system key)
  | .finishPump key => { v with exiting := update v.exiting key false }
  | .deliver key => { v with system := deliver v.system key }
  | .pumpCursor id primaryKey delta =>
    { v with system := pumpCursor d v.system id primaryKey delta }
  | .setRules rules => { v with system := setRules v.system rules }
  | .receive id => { v with system := updateChannel v.system id Mpsc.receive }
  | .closeStream id => { v with system := updateChannel v.system id Mpsc.hangUp }

section Moves

/-- The server steps that no connection takes part in. -/
inductive Inner : ServiceAction δ → Action δ → Prop
  | advance (id : SubscriptionId) (fetched : Except String (SnapshotBatch δ)) :
      Inner (.advance id fetched) (.advance id fetched)
  | pumpTransaction (key : String) (delta : QueryTransactionDelta δ) :
      Inner (.pumpTransaction key delta) (.pumpTransaction key delta)
  | pumpTick (key : String) : Inner (.pumpTick key) (.pumpTick key)
  | deliver (key : String) : Inner (.deliver key) (.deliver key)
  | pumpCursor (id : SubscriptionId) (primaryKey : List ℕ) (delta : QueryTransactionDelta δ) :
      Inner (.pumpCursor id primaryKey delta) (.pumpCursor id primaryKey delta)
  | setRules (rules : List CompiledRule) : Inner (.setRules rules) (.setRules rules)
  | receive (id : SubscriptionId) : Inner (.receive id) (.receive id)
  | closeStream (id : SubscriptionId) : Inner (.closeStream id) (.hangUp id)

/-- Everything a step can do to one connection, with what it does to the server at the same time. -/
inductive Moves [DecidableEq δ] (d : Deployment δ) (v : Service δ) (c : ConnectionId) :
    ServiceAction δ → State δ → Connection → Prop
  | pace {a : ServiceAction δ} (limiter : ConnectionLimiter) :
      Moves d v c a v.system { v.connections c with limiter := limiter }
  | admission {request : SubscribeRequest} {hasToken : Bool} (limiter : ConnectionLimiter) :
      (v.connections c).stage = .running →
      Moves d v c (.subscribe c request hasToken) v.system { v.connections c with
        limiter := limiter
        spawned := (v.connections c).spawned ++ [{ request with connection := c }] }
  | refuse {index : ℕ} (limiter : ConnectionLimiter) :
      Moves d v c (.refuse c index) v.system { v.connections c with
        spawned := (v.connections c).spawned.eraseIdx index
        limiter := limiter }
  | begin {index : ℕ} {schema : Except String Unit} {request : SubscribeRequest} :
      request ∈ (v.connections c).spawned →
      Moves d v c (.begin c index schema) (Server.step d v.system (.begin request schema))
        { v.connections c with
          spawned := (v.connections c).spawned.eraseIdx index
          blocking := (v.connections c).blocking ++ [v.system.nextId] }
  | accept {id : SubscriptionId} {call : Call δ} : id ∈ (v.connections c).blocking →
      v.system.calls id = some call → call.stage = .accepted →
      Moves d v c (.settle c id) v.system (record (v.connections c) id call)
  | reject {id : SubscriptionId} {call : Call δ} {error : SubscribeBlockingError}
      (limiter : ConnectionLimiter) : v.system.calls id = some call →
      call.stage = .rejected error →
      Moves d v c (.settle c id) v.system { v.connections c with
        blocking := (v.connections c).blocking.filter (· ≠ id)
        limiter := limiter }
  | announce {id : SubscriptionId} {sent cursorOpens : Bool} : id ∈ (v.connections c).recorded →
      Moves d v c (.announce c id sent cursorOpens) v.system
        { v.connections c with recorded := (v.connections c).recorded.filter (· ≠ id) }
  | pump {id : SubscriptionId} {sent cursorOpens : Bool} : id ∈ (v.connections c).recorded →
      Moves d v c (.announce c id sent cursorOpens) (Server.step d v.system (.ensurePump id))
        { v.connections c with recorded := (v.connections c).recorded.filter (· ≠ id) }
  | forget {clientId : ClientSubscriptionId} {id : SubscriptionId} :
      (v.connections c).stage = .running → (v.connections c).byClientId clientId = some id →
      Moves d v c (.unsubscribe c clientId) v.system { v.connections c with
        stage := .unsubscribing id ((v.connections c).hostCanonicals.lookup id)
        byClientId := update (v.connections c).byClientId clientId none
        hostCanonicals := (v.connections c).hostCanonicals.filter (·.1 ≠ id) }
  | unknown {id : SubscriptionId} {hostCanonical : Option String} {index : ℕ} :
      (v.connections c).stage = .unsubscribing id hostCanonical →
      v.system.router.registry.byId id = none →
      Moves d v c (.proceed c index) v.system { v.connections c with stage := .running }
  | leave {id : SubscriptionId} {hostCanonical : Option String} {index : ℕ} :
      (v.connections c).stage = .unsubscribing id hostCanonical →
      Moves d v c (.proceed c index) (Server.step d v.system (.unsubscribe id))
        { v.connections c with stage := .detaching id hostCanonical }
  | keep {id : SubscriptionId} {index : ℕ} (limiter : ConnectionLimiter) :
      (v.connections c).stage = .detaching id none →
      Moves d v c (.proceed c index) v.system
        { v.connections c with stage := .running, limiter := limiter }
  | detach {id : SubscriptionId} {key : String} {index : ℕ} (limiter : ConnectionLimiter) :
      (v.connections c).stage = .detaching id (some key) →
      Moves d v c (.proceed c index) (Server.step d v.system (.release key id))
        { v.connections c with stage := .running, limiter := limiter }
  | hangUp : (v.connections c).stage = .running →
      Moves d v c (.hangUp c) v.system { v.connections c with
        stage := .draining (v.connections c).hostCanonicals
        hostCanonicals := [] }
  | drain {attachments : List (SubscriptionId × String)} {index : ℕ} {id : SubscriptionId}
      {key : String} : (v.connections c).stage = .draining attachments →
      attachments[index]? = some (id, key) →
      Moves d v c (.proceed c index) (Server.step d v.system (.release key id))
        { v.connections c with stage := .draining (attachments.eraseIdx index) }
  | enumerate {index : ℕ} : (v.connections c).stage = .draining [] →
      Moves d v c (.proceed c index) v.system { v.connections c with
        stage := .disconnecting (v.system.router.registry.byConnection c) }
  | disconnect {id : SubscriptionId} {ids : List SubscriptionId} {index : ℕ} :
      (v.connections c).stage = .disconnecting (id :: ids) →
      Moves d v c (.proceed c index) (Server.step d v.system (.unsubscribe id))
        { v.connections c with stage := .disconnecting ids }
  | finish {index : ℕ} : (v.connections c).stage = .disconnecting [] →
      Moves d v c (.proceed c index) v.system { v.connections c with stage := .ended }

/-- The state after a step that touches connection `c` only. -/
structure Touches [DecidableEq δ] (d : Deployment δ) (v : Service δ) (a : ServiceAction δ)
    (v' : Service δ) (c : ConnectionId) : Prop where
  others : ∀ c', c' ≠ c → v'.connections c' = v.connections c'
  moves : Moves d v c a v'.system (v'.connections c)

variable [DecidableEq δ] {d : Deployment δ}

theorem Touches.of_moves (hstill : v'.connections = update v.connections c conn)
    (hmove : Moves d v c a v'.system conn) : Touches d v a v' c := by
  refine ⟨fun c' hc => ?_, ?_⟩
  · rw [hstill, update_of_ne hc]
  · rwa [hstill, update_self]

theorem Touches.none (hsys : v'.system = v.system) (hstill : v'.connections = v.connections) (c) :
    Touches d v a v' c := by
  refine ⟨fun c' _ => by rw [hstill], ?_⟩
  rw [hsys, hstill]
  exact .pace _

variable (c : ConnectionId)

theorem subscribe_touches (req) (hasToken : Bool) :
    Touches d v (.subscribe c req hasToken) (subscribe v c req hasToken) c := by
  simp only [subscribe]
  split
  next hrun =>
    split
    · exact .of_moves rfl (.admission _ hrun)
    · exact .of_moves rfl (.pace _)
  · exact .none rfl rfl c

theorem settle_touches (id) : Touches d v (.settle c id) (settle v c id) c := by
  simp only [settle]
  split
  next hblock =>
    split
    · exact .none rfl rfl c
    next call hcall =>
      split
      next hstage => exact .of_moves rfl (.accept hblock hcall hstage)
      next hstage => exact .of_moves rfl (.reject _ hcall hstage)
      next => exact .none rfl rfl c
  · exact .none rfl rfl c

theorem announce_touches (id) (sent cursorOpens : Bool) :
    Touches d v (.announce c id sent cursorOpens) (announce v c id sent cursorOpens) c := by
  simp only [announce]
  split
  next hrec =>
    split
    · split
      · exact .of_moves rfl (.announce hrec)
      · split
        · exact .of_moves rfl (.pump hrec)
        · exact .of_moves rfl (.announce hrec)
    · exact .of_moves rfl (.announce hrec)
  · exact .none rfl rfl c

theorem proceed_touches (index : ℕ) : Touches d v (.proceed c index) (proceed v c index) c := by
  simp only [proceed]
  split
  · exact .none rfl rfl c
  · exact .none rfl rfl c
  next id hostCanonical hstage =>
    rcases Option.eq_none_or_eq_some (v.system.router.registry.byId id) with hnone | ⟨entry, hentry⟩
    · rw [RouterInner.unsubscribe_of_none hnone]
      exact .of_moves rfl (.unknown hstage hnone)
    · have hok : v.system.router.unsubscribe id = (.ok (), (v.system.router.unsubscribe id).2) :=
        Prod.ext (RouterInner.unsubscribe_tables hentry).1 rfl
      rw [hok]
      exact .of_moves rfl (.leave hstage)
  next id hostCanonical hstage =>
    cases hostCanonical with
    | none => exact .of_moves rfl (.keep _ hstage)
    | some => exact .of_moves rfl (.detach _ hstage)
  next hstage => exact .of_moves rfl (.enumerate hstage)
  next attachments _ hstage =>
    split
    · exact .none rfl rfl c
    next id key hentry => exact .of_moves rfl (.drain hstage hentry)
  next hstage => exact .of_moves rfl (.finish hstage)
  next id ids hstage => exact .of_moves rfl (.disconnect hstage)

/-- A step is a step of the server alone, or touches one connection. -/
theorem step_moves (d : Deployment δ) (v a) :
    (∃ b, Inner a b ∧ (step d v a).system = Server.step d v.system b ∧
      (step d v a).connections = v.connections) ∨ ∃ c, Touches d v a (step d v a) c := by
  cases a with
  | advance id fetched => exact .inl ⟨_, .advance id fetched, rfl, rfl⟩
  | pumpTransaction key delta => exact .inl ⟨_, .pumpTransaction key delta, rfl, rfl⟩
  | pumpTick key => exact .inl ⟨_, .pumpTick key, rfl, rfl⟩
  | deliver key => exact .inl ⟨_, .deliver key, rfl, rfl⟩
  | pumpCursor id primaryKey delta => exact .inl ⟨_, .pumpCursor id primaryKey delta, rfl, rfl⟩
  | setRules rules => exact .inl ⟨_, .setRules rules, rfl, rfl⟩
  | receive id => exact .inl ⟨_, .receive id, rfl, rfl⟩
  | closeStream id => exact .inl ⟨_, .closeStream id, rfl, rfl⟩
  | finishPump =>
    refine .inr ⟨0, .none ?_ ?_ 0⟩
    · rfl
    · rfl
  | subscribe c req hasToken => exact .inr ⟨c, subscribe_touches c req hasToken⟩
  | settle c id => exact .inr ⟨c, settle_touches c id⟩
  | announce c id sent cursorOpens => exact .inr ⟨c, announce_touches c id sent cursorOpens⟩
  | proceed c index => exact .inr ⟨c, proceed_touches c index⟩
  | refuse c index =>
    refine .inr ⟨c, ?_⟩
    show Touches d v _ (refuse v c index) c
    simp only [refuse]
    split
    · exact .none rfl rfl c
    · exact .of_moves rfl (.refuse _)
  | begin c index schema =>
    refine .inr ⟨c, ?_⟩
    show Touches d v _ (begin d v c index schema) c
    simp only [begin]
    split
    · exact .none rfl rfl c
    next req hreq => exact .of_moves rfl (.begin (List.mem_of_getElem? hreq))
  | unsubscribe c clientId =>
    refine .inr ⟨c, ?_⟩
    show Touches d v _ (unsubscribe v c clientId) c
    simp only [unsubscribe]
    split
    next hrun =>
      split
      · exact .none rfl rfl c
      next id hid => exact .of_moves rfl (.forget hrun hid)
    · exact .none rfl rfl c
  | hangUp c =>
    refine .inr ⟨c, ?_⟩
    show Touches d v _ (hangUp v c) c
    simp only [hangUp]
    split
    next hrun => exact .of_moves rfl (.hangUp hrun)
    · exact .none rfl rfl c

end Moves

section

/-- A subscribe message of connection 1 and its task, up to the end of the call. -/
def postsTask (clientId : String) (id : SubscriptionId) (batch : SnapshotBatch ℕ) :
    List (ServiceAction ℕ) :=
  .subscribe 1 (readPosts clientId) true :: .begin 1 0 (.ok ()) ::
    List.replicate 6 (.advance id (.ok batch))

def postsService (actions : List (ServiceAction ℕ)) : Service ℕ :=
  actions.foldl (step postsDeployment) (start 8)

end

end Service

end Palimpsest.Server
