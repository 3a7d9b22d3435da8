import Palimpsest.Server.Acceptance

/-! What a subscribe request that ends in an error leaves behind. -/
namespace Palimpsest.Server
open Sql Dataflow Permissions Function

variable {δ : Type}

/-- The subscriptions a connection holds, and how many it may hold. -/
structure ConnectionLimiter where
  maxSubscriptions : ℕ
  active : ℕ
deriving Repr, DecidableEq

inductive LimitDecision where
  | allowed
  | connectionSaturated
  | subscribeRateExceeded
  | reconnectRateExceeded
deriving Repr, DecidableEq

namespace ConnectionLimiter

/-- The argument says whether the token bucket of the connection has a token left. -/
def admitSubscribe (limiter : ConnectionLimiter) (hasToken : Bool) :
    LimitDecision × ConnectionLimiter :=
  if limiter.maxSubscriptions ≤ limiter.active then (.connectionSaturated, limiter)
  else if hasToken then (.allowed, { limiter with active := limiter.active + 1 })
  else (.subscribeRateExceeded, limiter)

def release (limiter : ConnectionLimiter) : ConnectionLimiter :=
  { limiter with active := limiter.active - 1 }

theorem release_of_allowed {limiter : ConnectionLimiter}
    (h : (limiter.admitSubscribe hasToken).1 = .allowed) :
    (limiter.admitSubscribe hasToken).2.release = limiter := by
  unfold admitSubscribe at h ⊢
  split at h
  · cases h
  next hroom =>
    rw [if_neg hroom]
    split at h
    next htok =>
      rw [if_pos htok]
      rfl
    · cases h

theorem admitSubscribe_of_refused {limiter : ConnectionLimiter}
    (h : (limiter.admitSubscribe hasToken).1 ≠ .allowed) :
    (limiter.admitSubscribe hasToken).2 = limiter := by
  unfold admitSubscribe at h ⊢
  split
  · rfl
  next hroom =>
    rw [if_neg hroom] at h
    split
    next htok => exact absurd (by rw [if_pos htok]) h
    · rfl

end ConnectionLimiter

/-- How a subscribe request ends in an error: the limiter refuses it, its query text is refused
under some code, or the call itself is rejected. -/
inductive SubscribeError where
  | limited (decision : LimitDecision)
  | unprepared (code : String)
  | blocking (error : SubscribeBlockingError)
deriving Repr, DecidableEq

/-- The slot is given back unless the call is accepted. -/
def finishSubscribe (s : State δ) (id : SubscriptionId) (admitted : ConnectionLimiter) :
    Except SubscribeError SubscriptionId × ConnectionLimiter :=
  match (s.calls id).map Call.stage with
  | some (.rejected error) => (.error (.blocking error), admitted.release)
  | _ => (.ok id, admitted)

/-- One subscribe request of a connection, with nothing in between. The query text has been lowered
or refused. -/
def handleSubscribe (d : Deployment δ) (s : State δ) (limiter : ConnectionLimiter) (hasToken : Bool)
    (prepared : Except String SubscribeRequest) (schema : Except String Unit)
    (fetched : Except String (SnapshotBatch δ)) :
    Except SubscribeError SubscriptionId × State δ × ConnectionLimiter :=
  match (limiter.admitSubscribe hasToken).1 with
  | .allowed =>
    match prepared with
    | .error code => (.error (.unprepared code), s, (limiter.admitSubscribe hasToken).2.release)
    | .ok request =>
      let after := subscribeCall d s request schema fetched
      let finished := finishSubscribe after s.nextId (limiter.admitSubscribe hasToken).2
      (finished.1, after, finished.2)
  | decision => (.error (.limited decision), s, (limiter.admitSubscribe hasToken).2)

/-- The router's tables, the subscriber lists of the host and the slots of the connection are what
they were. -/
structure Restored (s s' : State δ) (limiter limiter' : ConnectionLimiter) : Prop where
  registry : s'.router.registry = s.router.registry
  channels : s'.router.channels = s.router.channels
  holders : s'.router.subgraphHolders = s.router.subgraphHolders
  acks : s'.router.ack = s.router.ack
  subgraphs : s'.router.subgraphs = s.router.subgraphs
  subscribers : ∀ key, (s'.host.plans key).map PlanState.subscribers =
    (s.host.plans key).map PlanState.subscribers
  slots : limiter' = limiter

section Sections
variable {id : SubscriptionId} {s : State δ} {call : Call δ}

/-- If the call ends rejected, the router and the host are as they are now. -/
def Unwinds (d : Deployment δ) (id : SubscriptionId) (fetched : Except String (SnapshotBatch δ))
    (n : ℕ) (s : State δ) (router : RouterInner δ) (host : PersistentHost δ) : Prop :=
  ∀ call error, (runSections d id fetched n s).calls id = some call → call.stage = .rejected error →
    (runSections d id fetched n s).router = router ∧ (runSections d id fetched n s).host = host

theorem Unwinds.of_accepted
    (h : Settles d id fetched n s False) : Unwinds d id fetched n s router host := by
  intro call error hcall herr
  obtain ⟨call', hcall', ⟨hfalse, -⟩ | ⟨-, hacc⟩⟩ := h
  · exact hfalse.elim
  · cases Option.mem_unique hcall' hcall
    simp [herr] at hacc

theorem Unwinds.congr (h : Unwinds d id fetched n s router host) (hrouter : router = router')
    (hhost : host = host') : Unwinds d id fetched n s router' host' := by
  rw [← hrouter, ← hhost]
  exact h

theorem Unwinds.of_advance (hstep : advance d s id fetched = s')
    (h : Unwinds d id fetched n s' router host) : Unwinds d id fetched (n + 1) s router host := by
  rw [Unwinds, runSections, hstep]
  exact h

variable (hcall : s.calls id = some call)
include hcall

theorem runSections_rejected (hstage : call.stage = .rejected error) :
    runSections d id fetched n s = s := by
  induction n with
  | zero => rfl
  | succ n ih =>
    have hstep : advance d s id fetched = s := by simp [advance, hcall, hstage]
    rw [runSections, hstep, ih]

theorem unwinds_rejected (hstage : call.stage = .rejected error) :
    Unwinds d id fetched n s s.router s.host := by
  intro _ _ _ _
  rw [runSections_rejected hcall hstage]
  exact ⟨rfl, rfl⟩

theorem unwinds_opened (hstage : call.stage = .opened opened) :
    Unwinds d id fetched (n + 3) s s.router s.host := by
  have hstep : advance d s id fetched = registerCall s id call opened := by
    simp [advance, hcall, hstage]
  apply Unwinds.of_advance hstep
  simp only [registerCall, RouterInner.register, SubscriptionRegistry.insert]
  cases s.router.registry.byClientId (call.request.connection, call.request.clientId) with
  | some =>
    dsimp only [bind, Except.bind]
    rw [failOpen_eq (by decide)]
    exact unwinds_rejected (update_self ..) rfl
  | none => exact .of_accepted (registered_settles (update_self ..) rfl)

theorem unwinds_checked (hstage : call.stage = .checked prerunInitial) :
    Unwinds d id fetched (n + 4) s s.router s.host := by
  have hstep : advance d s id fetched = openUp d s id call prerunInitial fetched := by
    simp [advance, hcall, hstage]
  apply Unwinds.of_advance hstep
  unfold openUp
  cases hsnap : takeSnapshot d.engine call.compiledPlan prerunInitial fetched with
  | error =>
    dsimp only
    rw [failOpen_eq (takeSnapshot_error hsnap).2]
    exact unwinds_rejected (update_self ..) rfl
  | ok snap =>
    obtain ⟨chan, hopen, -⟩ := openChannel_ok d.config call.request.resumeLsn snap
    dsimp only
    rw [hopen]
    exact (unwinds_opened (update_self ..) rfl).congr (State.note_router ..)
      (State.note_host ..)

theorem unwinds_looked (hstage : call.stage = .looked prerunInitial) :
    Unwinds d id fetched (n + 5) s s.router s.host := by
  have hstep : advance d s id fetched = check s id call prerunInitial := by
    simp [advance, hcall, hstage]
  apply Unwinds.of_advance hstep
  unfold check
  split
  · exact unwinds_rejected (update_self ..) rfl
  · exact unwinds_checked (update_self ..) rfl

omit hcall

/-- The host after the lookup of a call: the call is attached to the plan of its key if there is
one. -/
def joined (host : PersistentHost δ) (id : SubscriptionId) (call : Call δ) : PersistentHost δ :=
  match call.canonicalKey with
  | none => host
  | some key =>
    match host.plans key with
    | none => host
    | some state => host.attach key state id

theorem lookUp_host : (lookUp s id call).host = joined s.host id call := by
  unfold lookUp joined
  cases call.canonicalKey with
  | none => rfl
  | some key =>
    dsimp only
    cases s.host.plans key <;> rfl

theorem unwinds_compiled (hcall : s.calls id = some call) (hstage : call.stage = .compiled) :
    Unwinds d id fetched (n + 6) s s.router (joined s.host id call) := by
  have hstep : advance d s id fetched = lookUp s id call := by
    simp [advance, hcall, hstage]
  apply Unwinds.of_advance hstep
  have hlooked : ∃ prerunInitial call', (lookUp s id call).calls id = some call' ∧
      call'.stage = .looked prerunInitial := by
    unfold lookUp
    split
    · exact ⟨_, _, update_self .., rfl⟩
    · split <;> exact ⟨_, _, update_self .., rfl⟩
  have hrouter : (lookUp s id call).router = s.router := by
    unfold lookUp
    split
    · rfl
    · split <;> rfl
  obtain ⟨prerunInitial, call', hcall', hstage'⟩ := hlooked
  exact (unwinds_looked hcall' hstage').congr hrouter lookUp_host

end Sections

section
variable (d : Deployment δ) (s : State δ) (request : SubscribeRequest)
  (schema : Except String Unit) (fetched : Except String (SnapshotBatch δ))

theorem joined_of_no_plan (h : NoPlanToJoin s call) : joined s.host s.nextId call = s.host := by
  unfold joined
  split
  · rfl
  next key hkey => rw [h key hkey]

theorem rejected_leaves (h : Rejected d s request schema fetched) :
    (subscribeCall d s request schema fetched).router = s.router ∧
      (subscribeCall d s request schema fetched).host =
        joined s.host s.nextId (firstCall d s request schema) := by
  have hcall : (begin d s request schema).calls s.nextId = some (firstCall d s request schema) :=
    update_self ..
  obtain ⟨call, error, hlast, herr⟩ := h
  rcases firstStage_cases (δ := δ) (compileRequest d.engine s.router.rules request) schema with
    hstage | ⟨error', hstage⟩
  · exact unwinds_compiled hcall hstage call error hlast herr
  · -- the call ended before it could look for a plan
    have hnone : compileRequest d.engine s.router.rules request = none := by
      unfold firstStage at hstage
      split at hstage
      next hnone => exact hnone
      next => cases hstage
    have hno : NoPlanToJoin s (firstCall d s request schema) := by
      intro key hkey
      simp [Call.canonicalKey, firstCall, hnone] at hkey
    rw [joined_of_no_plan s hno]
    exact unwinds_rejected hcall hstage call error hlast herr

theorem subscribers_joined_iff :
    (∀ key, ((joined s.host s.nextId call).plans key).map PlanState.subscribers =
      (s.host.plans key).map PlanState.subscribers) ↔ NoPlanToJoin s call := by
  constructor
  · intro h key hkey
    cases hplan : s.host.plans key with
    | none => rfl
    | some =>
      have hlist := h key
      unfold joined at hlist
      simp only [hkey, hplan, PersistentHost.attach, PersistentHost.put] at hlist
      exact absurd hlist (by simp)
  · intro h key
    rw [joined_of_no_plan s h]

/-- A request that ends in an error leaves everything as it was exactly when it is not refused after
it has attached to the plan registered under its key. -/
theorem failed_subscribe_restores_iff (limiter : ConnectionLimiter) (hasToken : Bool)
    (prepared : Except String SubscribeRequest) :
    (∀ error, (handleSubscribe d s limiter hasToken prepared schema fetched).1 = .error error →
      Restored s (handleSubscribe d s limiter hasToken prepared schema fetched).2.1 limiter
        (handleSubscribe d s limiter hasToken prepared schema fetched).2.2) ↔
    ∀ request, (limiter.admitSubscribe hasToken).1 = .allowed → prepared = .ok request →
      Refuses d s request schema fetched → NoPlanToJoin s (firstCall d s request schema) := by
  by_cases hallowed : (limiter.admitSubscribe hasToken).1 = .allowed
  · cases prepared with
    | error =>
      refine iff_of_true (fun error _ => ?_) nofun
      simp only [handleSubscribe, hallowed, ConnectionLimiter.release_of_allowed hallowed]
      exact ⟨rfl, rfl, rfl, rfl, rfl, fun _ => rfl, rfl⟩
    | ok request =>
      simp only [handleSubscribe, hallowed, true_implies, Except.ok.injEq, forall_eq']
      obtain ⟨call, hcall, ⟨href, error, herr⟩ | ⟨haccepts, hstage⟩⟩ :=
        subscribeCall_settles d s request schema fetched
      · have hcall : (subscribeCall d s request schema fetched).calls s.nextId = some call := hcall
        obtain ⟨hrouter, hhost⟩ :=
          rejected_leaves d s request schema fetched ⟨call, error, hcall, herr⟩
        simp only [finishSubscribe, hcall, Option.map_some, herr, Except.error.injEq, forall_eq',
          href, true_implies, ConnectionLimiter.release_of_allowed hallowed]
        rw [← subscribers_joined_iff, ← hhost]
        refine ⟨fun h => h.subscribers, fun h => ⟨?_, ?_, ?_, ?_, ?_, h, rfl⟩⟩
        all_goals rw [hrouter]
      · have hcall : (subscribeCall d s request schema fetched).calls s.nextId = some call := hcall
        simp only [finishSubscribe, hcall, Option.map_some, hstage]
        exact iff_of_true nofun fun h => absurd h haccepts
  · have hlimited : handleSubscribe d s limiter hasToken prepared schema fetched =
        (.error (.limited (limiter.admitSubscribe hasToken).1), s, limiter) := by
      unfold handleSubscribe
      rw [ConnectionLimiter.admitSubscribe_of_refused hallowed]
      split
      next h => exact absurd h hallowed
      next => rfl
    rw [hlimited]
    exact iff_of_true (fun _ _ => ⟨rfl, rfl, rfl, rfl, rfl, fun _ => rfl, rfl⟩)
      fun request h => absurd h hallowed

end

section

/-- The posts after a first subscriber, and a second request with the same subscription id. -/
def repeatedPosts : Except SubscribeError SubscriptionId × State ℕ × ConnectionLimiter :=
  handleSubscribe postsDeployment (postsRun (subscribePosts "a" 1)) ⟨8, 1⟩ true
    (.ok (readPosts "a"))
    (.ok ()) (.ok twoPosts)

/-- The request is refused, and its subscriber stays on the list of the shared plan. -/
theorem repeated_id_leaves_phantom :
    repeatedPosts.1 = .error (.blocking (.router .duplicateClientSubscriptionId)) ∧
      (repeatedPosts.2.1.host.plans (canonicalSubgraphKey "SELECT * FROM posts" userSeven)).map
        PlanState.subscribers = some [1, 2] ∧
      ¬ Restored (postsRun (subscribePosts "a" 1)) repeatedPosts.2.1 ⟨8, 1⟩ repeatedPosts.2.2 := by
  have hlist : (repeatedPosts.2.1.host.plans
      (canonicalSubgraphKey "SELECT * FROM posts" userSeven)).map PlanState.subscribers =
        some [1, 2] := by
    decide +kernel
  refine ⟨by decide +kernel, hlist, fun h => ?_⟩
  have hsame := h.subscribers (canonicalSubgraphKey "SELECT * FROM posts" userSeven)
  exact absurd hsame (by decide)

end

end Palimpsest.Server
