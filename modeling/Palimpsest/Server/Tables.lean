import Palimpsest.Server.Revocation
import Palimpsest.Server.Rollback

/-! What the router's tables and the subscriber lists of the host hold in every run. An entry of the
router belongs to a call that has registered, and a listing to the call that attached. -/
namespace Palimpsest.Server
open Sql Dataflow Permissions Function PersistentHost Option

variable {δ : Type}

namespace RouterInner
variable {id : SubscriptionId}

/-- The two routers have the same subscriptions, up to their states and what is queued for them. -/
structure SameTables (router router' : RouterInner δ) : Prop where
  byId : ∀ id, (router'.registry.byId id).map Subscription.connection =
    (router.registry.byId id).map Subscription.connection
  byConnection : router'.registry.byConnection = router.registry.byConnection
  ack : router'.ack = router.ack
  holders : router'.subgraphHolders = router.subgraphHolders
  channels : ∀ id, (router'.channels id).isSome = (router.channels id).isSome

variable (router : RouterInner δ)

theorem SameTables.refl : SameTables router router :=
  ⟨fun _ => rfl, rfl, rfl, rfl, fun _ => rfl⟩

theorem setState_connection (registry : SubscriptionRegistry) (id state id') :
    ((registry.setState id state).byId id').map Subscription.connection =
      (registry.byId id').map Subscription.connection := by
  by_cases h : id' = id
  · subst h
    simp [SubscriptionRegistry.setState, comp_def]
  · simp [SubscriptionRegistry.setState, update_of_ne h]

theorem isSome_update {f : SubscriptionId → Option β} {b : β} (h : f id = some b) (id') :
    (update f id (some b') id').isSome = (f id').isSome := by
  by_cases hid : id' = id
  · subst hid
    simp [h]
  · rw [update_of_ne hid]

theorem pumpEvent_sameTables (id event) : SameTables router (router.pumpEvent id event).2 := by
  unfold pumpEvent
  split
  · exact .refl router
  next chan hchan =>
    dsimp only
    split
    · exact ⟨setState_connection _ _ _, rfl, rfl, rfl, isSome_update hchan⟩
    · exact ⟨fun _ => rfl, rfl, rfl, rfl, isSome_update hchan⟩
    · exact ⟨setState_connection _ _ _, rfl, rfl, rfl, isSome_update hchan⟩

theorem setRules_sameTables (rules) : SameTables router (router.setRules rules) :=
  ⟨fun _ => rfl, rfl, rfl, rfl, fun id => by simp [setRules]⟩

theorem register_tables {router : RouterInner δ} (h : router.register id req opened = .ok router') :
    ∃ sub, sub.connection = req.connection ∧
      router'.registry.byId = update router.registry.byId id (some sub) ∧
      (∀ conn id', id' ∈ router'.registry.byConnection conn ↔
        id' ∈ router.registry.byConnection conn ∨ id' = id ∧ conn = req.connection) ∧
      router'.ack = router.ack.install id opened.snapshotLsn ∧
      (∀ id', id' ≠ id → router'.subgraphHolders id' = router.subgraphHolders id') ∧
      (∀ id', id' ≠ id → router'.channels id' = router.channels id') ∧
      sub.cursorLsn = opened.snapshotLsn := by
  unfold register SubscriptionRegistry.insert at h
  dsimp only at h
  cases htaken : router.registry.byClientId (req.connection, req.clientId) with
  | some =>
    rw [htaken] at h
    cases h
  | none =>
    rw [htaken] at h
    cases h
    refine ⟨_, rfl, rfl, fun conn id' => ?_, rfl, fun id' hid => ?_, fun id' hid => ?_, rfl⟩
    · by_cases hsame : conn = req.connection <;> simp [hsame]
    · exact update_of_ne hid ..
    · exact update_of_ne hid ..

theorem unsubscribe_of_none {router : RouterInner δ} (h : router.registry.byId id = none) :
    router.unsubscribe id = (.error (.unknownSubscription id), router) := by
  simp [unsubscribe, SubscriptionRegistry.remove, h]

theorem unsubscribe_tables {router : RouterInner δ} (h : router.registry.byId id = some sub) :
    (router.unsubscribe id).1 = .ok () ∧
      (router.unsubscribe id).2.registry.byId = update router.registry.byId id none ∧
      (∀ conn id', id' ∈ (router.unsubscribe id).2.registry.byConnection conn ↔
        id' ∈ router.registry.byConnection conn ∧ (conn = sub.connection → id' ≠ id)) ∧
      (router.unsubscribe id).2.ack.watermarks = update router.ack.watermarks id none ∧
      (router.unsubscribe id).2.subgraphHolders = update router.subgraphHolders id none ∧
      (router.unsubscribe id).2.channels = update router.channels id none := by
  refine ⟨?_, ?_, fun conn id' => ?_, ?_, ?_, ?_⟩
  case refine_3 =>
    by_cases hsame : conn = sub.connection <;>
      simp [unsubscribe, SubscriptionRegistry.remove, h, hsame]
  all_goals simp [unsubscribe, SubscriptionRegistry.remove, AckTracker.remove, h]

theorem unsubscribe_byId (id) :
    (router.unsubscribe id).2.registry.byId = update router.registry.byId id none := by
  rcases eq_none_or_eq_some (router.registry.byId id) with hnone | ⟨gone, hgone⟩
  · rw [unsubscribe_of_none hnone]
    exact (update_eq_self_iff.mpr hnone.symm).symm
  · exact (unsubscribe_tables hgone).2.1

end RouterInner

section Entries

def Call.Registered (call : Call δ) : Prop :=
  call.registeredAt.isSome ∧ call.stage.unregistered = false

inductive TablesMove (d : Deployment δ) (s s' : State δ) : Action δ → Prop
  | same {a : Action δ} : RouterInner.SameTables s.router s'.router → TablesMove d s s' a
  | enter {id : SubscriptionId} {fetched : Except String (SnapshotBatch δ)} {call call' : Call δ}
      {opened : Opened δ} : s.calls id = some call → call.stage = .opened opened →
      s'.calls = update s.calls id (some call') → Keeps call call' →
      call'.Registered → s.router.register id call.request opened = .ok s'.router →
      TablesMove d s s' (.advance id fetched)
  | leave {id : SubscriptionId} : s'.router = (s.router.unsubscribe id).2 → s'.calls = s.calls →
      TablesMove d s s' (.unsubscribe id)

variable {id : SubscriptionId} {call : Call δ}

theorem isSome_updateChannel (s : State δ) (id f id') :
    ((updateChannel s id f).router.channels id').isSome = (s.router.channels id').isSome := by
  by_cases hid : id' = id
  · subst hid
    simp [updateChannel]
  · simp [updateChannel, update_of_ne hid]

theorem step_tables [DecidableEq δ] (d : Deployment δ) (s a) : TablesMove d s (step d s a) a := by
  have heffect := step_effect d s a
  generalize step d s a = s' at heffect ⊢
  cases heffect with
  | advance hcall hsection =>
    cases hsection with
    | fill => exact .same (by rw [State.setCall, State.note_router]; exact .refl _)
    | enter hstage hrouter =>
      exact .enter hcall hstage rfl ⟨rfl, rfl, rfl, .refl _⟩ ⟨rfl, rfl⟩ hrouter
    | _ => exact .same (.refl _)
  | unsubscribe => exact .leave rfl rfl
  | deliver | cursor => exact .same (RouterInner.pumpEvent_sameTables ..)
  | setRules => exact .same (RouterInner.setRules_sameTables ..)
  | receive id | hangUp id => exact .same ⟨fun _ => rfl, rfl, rfl, rfl, isSome_updateChannel s id _⟩
  | _ => exact .same (.refl _)

/-- Registration is never undone for the call, only for the tables. -/
theorem step_keepsRegistered [DecidableEq δ] (hprov : Provenance d.engine s)
    (hcall : s.calls id = some call) (h : call.Registered) (a) :
    ∃ call', (step d s a).calls id = some call' ∧ Keeps call call' ∧ call'.Registered := by
  obtain ⟨call', hcall', hmove, -⟩ := step_moved hprov hcall a
  refine ⟨call', hcall', hmove.keeps, ?_, ?_⟩
  · obtain ⟨moved, hmoved, hreg⟩ := step_registeredAt hprov hcall h.1 a
    rwa [mem_unique hcall' hmoved]
  · by_contra hback
    have := (hmove.unregistered (Bool.not_eq_false _ ▸ hback)).1
    rw [h.2] at this
    cases this

/-- The tables of the router agree with each other and with the calls. -/
structure Enrolled (s : State δ) : Prop where
  entry : ∀ id subscription, s.router.registry.byId id = some subscription →
    id ∈ s.router.registry.byConnection subscription.connection ∧
      ∃ call, s.calls id = some call ∧ call.request.connection = subscription.connection ∧
        call.Registered
  listed : ∀ connection, ∀ id ∈ s.router.registry.byConnection connection,
    ∃ subscription, s.router.registry.byId id = some subscription ∧
      subscription.connection = connection
  absent : ∀ id, s.router.registry.byId id = none → s.router.channels id = none ∧
    s.router.ack.watermarks id = none ∧ s.router.subgraphHolders id = none

theorem start_enrolled : Enrolled (State.start : State δ) where
  entry := nofun
  listed := nofun
  absent _ _ := ⟨rfl, rfl, rfl⟩

theorem Enrolled.of_unregistered (h : Enrolled s) (hcall : s.calls id = some call)
    (hstage : call.stage.unregistered = true) : s.router.registry.byId id = none := by
  by_contra hsome
  obtain ⟨sub, hentry⟩ := ne_none_iff_exists'.mp hsome
  obtain ⟨-, call', hcall', -, -, hstage'⟩ := h.entry id sub hentry
  cases mem_unique hcall hcall'
  rw [hstage] at hstage'
  cases hstage'

def StillEntered (s s' : State δ) : Prop :=
  ∀ id subscription, s.router.registry.byId id = some subscription →
    ∃ call, s'.calls id = some call ∧ call.request.connection = subscription.connection ∧
      call.Registered

variable {s' : State δ}

theorem Enrolled.of_sameTables (h : Enrolled s) (hstill : StillEntered s s')
    (hsame : RouterInner.SameTables s.router s'.router) : Enrolled s' := by
  refine ⟨fun id sub hentry => ?_, fun conn id hid => ?_, fun id hnone => ?_⟩
  · have hmap := hsame.byId id
    rw [hentry] at hmap
    obtain ⟨prev, hwas, hconn⟩ := map_eq_some_iff.mp hmap.symm
    rw [hsame.byConnection, ← hconn]
    exact ⟨(h.entry id prev hwas).1, hstill id prev hwas⟩
  · rw [hsame.byConnection] at hid
    obtain ⟨prev, hwas, hconn⟩ := h.listed conn id hid
    have hmap := hsame.byId id
    rw [hwas] at hmap
    obtain ⟨sub, hentry, hsubscription⟩ := map_eq_some_iff.mp hmap
    exact ⟨sub, hentry, hsubscription.trans hconn⟩
  · have hmap := hsame.byId id
    rw [hnone] at hmap
    obtain ⟨hchan, hack, hholder⟩ := h.absent id (map_eq_none_iff.mp hmap.symm)
    refine ⟨?_, by rw [hsame.ack, hack], by rw [hsame.holders, hholder]⟩
    simp [← not_isSome_iff_eq_none, hsame.channels, hchan]

theorem Enrolled.of_register (h : Enrolled s) (hstill : StillEntered s s')
    (hnew : s.router.registry.byId id = none) (hcall' : s'.calls id = some call')
    (hreq : call'.request = call.request) (hpast : call'.Registered)
    (hreg : s.router.register id call.request opened = .ok s'.router) : Enrolled s' := by
  obtain ⟨sub, hconn, hbyId, hbyConn, hack, hholders, hchannels, -⟩ :=
    RouterInner.register_tables hreg
  refine ⟨fun id' entry hentry => ?_, fun conn id' hid' => ?_, fun id' hnone => ?_⟩
  · rw [hbyId] at hentry
    rw [hbyConn]
    rcases update_some hentry with hwas | ⟨rfl, rfl⟩
    · exact ⟨.inl (h.entry id' entry hwas).1, hstill id' entry hwas⟩
    · exact ⟨.inr ⟨rfl, hconn⟩, call', hcall', by rw [hreq, hconn], hpast⟩
  · rw [hbyId]
    rcases (hbyConn ..).mp hid' with hwas | ⟨rfl, rfl⟩
    · obtain ⟨entry, hentry, hentry'⟩ := h.listed conn id' hwas
      have hne : id' ≠ id := by
        rintro rfl
        simp [hnew] at hentry
      exact ⟨entry, by rwa [update_of_ne hne], hentry'⟩
    · exact ⟨sub, update_self .., hconn⟩
  · have hid' : id' ≠ id := by
      rintro rfl
      simp [hbyId] at hnone
    rw [hbyId, update_of_ne hid'] at hnone
    rw [hchannels id' hid', hack, hholders id' hid']
    simpa [AckTracker.install, hid'] using h.absent id' hnone

theorem Enrolled.of_unsubscribe (h : Enrolled s) (hstill : StillEntered s s')
    (hgone : s.router.registry.byId id = some gone)
    (hrouter : s'.router = (s.router.unsubscribe id).2) : Enrolled s' := by
  obtain ⟨-, hbyId, hbyConn, hack, hholders, hchannels⟩ :=
    RouterInner.unsubscribe_tables hgone
  rw [← hrouter] at hbyId hbyConn hack hholders hchannels
  refine ⟨fun id' entry hentry => ?_, fun conn id' hid' => ?_, fun id' habs => ?_⟩
  · have hid' : id' ≠ id := by
      rintro rfl
      simp [hbyId] at hentry
    rw [hbyId, update_of_ne hid'] at hentry
    rw [hbyConn]
    exact ⟨⟨(h.entry id' entry hentry).1, fun _ => hid'⟩, hstill id' entry hentry⟩
  · obtain ⟨hwas, hother⟩ := (hbyConn ..).mp hid'
    obtain ⟨entry, hentry, hconn⟩ := h.listed conn id' hwas
    have hne : id' ≠ id := by
      rintro rfl
      cases mem_unique hgone hentry
      exact hother hconn.symm rfl
    exact ⟨entry, by rwa [hbyId, update_of_ne hne], hconn⟩
  · rw [hchannels, hack, hholders]
    by_cases hid' : id' = id
    · subst hid'
      simp
    · rw [hbyId, update_of_ne hid'] at habs
      simpa [update_of_ne hid'] using h.absent id' habs

theorem step_enrolled [DecidableEq δ] (hprov : Provenance d.engine s) (h : Enrolled s)
    (a : Action δ) : Enrolled (step d s a) := by
  have hstill : StillEntered s (step d s a) := by
    intro id sub hentry
    obtain ⟨-, call, hcall, hconn, hstage⟩ := h.entry id sub hentry
    obtain ⟨call', hcall', hkeep, hstage'⟩ := step_keepsRegistered hprov hcall hstage a
    exact ⟨call', hcall', by rw [hkeep.request, hconn], hstage'⟩
  cases step_tables d s a with
  | same hsame => exact h.of_sameTables hstill hsame
  | enter hcall hstage hcalls hkeep hpast hreg =>
    have hnew := h.of_unregistered hcall (by simp [hstage])
    exact h.of_register hstill hnew (by rw [hcalls, update_self]) hkeep.request hpast
      hreg
  | @leave id hrouter =>
    rcases eq_none_or_eq_some (s.router.registry.byId id) with hnone | ⟨gone, hgone⟩
    · rw [RouterInner.unsubscribe_of_none hnone] at hrouter
      exact h.of_sameTables hstill (by rw [hrouter]; exact .refl _)
    · exact h.of_unsubscribe hstill hgone hrouter

end Entries

section Listings

/-- How a call stands to the plan of its key. -/
inductive Standing where
  | apart
  | attached
  | refused
deriving Repr, DecidableEq

/-- A call with updates to seed a plan from has not attached to one. -/
def Stage.standing : Stage δ → Standing
  | .compiled => .apart
  | .looked prerunInitial | .checked prerunInitial =>
    if prerunInitial.isSome then .attached else .apart
  | .opened prepared => if prepared.seedUpdates.isEmpty then .attached else .apart
  | .registered _ seedUpdates => if seedUpdates.isEmpty then .attached else .apart
  | .seeded _ _ _ => .apart
  | .accepted => .attached
  | .rejected _ => .refused

/-- The next section refuses the call although it may have attached. -/
def RefusedNext (s : State δ) (call : Call δ) : Prop :=
  (∃ prerunInitial, call.stage = .looked prerunInitial ∧
    CheckFails s.router.rules call.request call.compiledPlan) ∨
  ∃ opened, call.stage = .opened opened ∧ IdTaken s call.request

/-- What a step that changes no subscriber list can make of a call's standing. -/
inductive StandingMove (s : State δ) (a : Action δ) (id : SubscriptionId) (call call' : Call δ) :
    Prop
  | keep : call'.stage.standing = call.stage.standing → StandingMove s a id call call'
  | refuse {fetched : Except String (SnapshotBatch δ)} : call'.stage.standing = .refused →
      a = .advance id fetched → call.stage.standing = .apart ∨ RefusedNext s call →
      StandingMove s a id call call'
  | bypass : call'.stage.standing = .attached → call.canonicalKey = none →
      StandingMove s a id call call'
  | empty {batch : SnapshotBatch δ} : call'.stage.standing = .attached →
      call.stage = .checked none → a = .advance id (.ok batch) →
      snapshotToSeedUpdates batch = [] → StandingMove s a id call call'

inductive ListsMove (s s' : State δ) : Action δ → Prop
  | same {a : Action δ} : s'.host.subscribers = s.host.subscribers →
      (∀ id call call', s.calls id = some call → s'.calls id = some call' →
        StandingMove s a id call call') → ListsMove s s' a
  | join {id : SubscriptionId} {fetched : Except String (SnapshotBatch δ)} {call call' : Call δ}
      {key : String} : s.calls id = some call → s'.calls = update s.calls id (some call') →
      call.canonicalKey = some key → call.stage.standing = .apart →
      call'.stage.standing = .attached →
      s'.host.subscribers = enlist s.host.subscribers key id →
      ListsMove s s' (.advance id fetched)
  | part {key : String} {id : SubscriptionId} : s'.host = s.host.release key id →
      s'.calls = s.calls → ListsMove s s' (.release key id)

variable {d : Deployment δ} {id : SubscriptionId} {call : Call δ}
variable {a : Action δ}

theorem ListsMove.of_stages (hhost : s'.host.subscribers = s.host.subscribers)
    (hstages : ∀ id call call', s.calls id = some call → s'.calls id = some call' →
      call'.stage = call.stage) : ListsMove s s' a :=
  .same hhost fun id call call' hcall hcall' => .keep (by rw [hstages id call call' hcall hcall'])

theorem ListsMove.of_section (hcall : s.calls id = some call)
    (hcalls : s'.calls = update s.calls id (some call'))
    (hhost : s'.host.subscribers = s.host.subscribers) (hmove : StandingMove s a id call call') :
    ListsMove s s' a := by
  refine .same hhost fun id' prev after hwas hnow => ?_
  rw [hcalls] at hnow
  by_cases hid : id' = id
  · subst hid
    rw [update_self] at hnow
    cases mem_unique hcall hwas
    obtain rfl : call' = after := some.inj hnow
    exact hmove
  · rw [update_of_ne hid] at hnow
    cases mem_unique hwas hnow
    exact .keep rfl

theorem Refusal.standing (h : Refusal d s id call fetched error) :
    call.stage.standing = .apart ∨ RefusedNext s call := by
  cases h with
  | check hstage herr =>
    rcases checkPermissions_cases s.router.rules call.request call.compiledPlan with
      ⟨hfails, -⟩ | ⟨-, stats, hstats⟩
    · exact .inr (.inl ⟨_, hstage, hfails⟩)
    · cases hstats.symm.trans herr
  | snapshot hstage => exact .inl (by rw [hstage]; rfl)
  | register hstage herr => exact .inr (.inr ⟨_, hstage, (RouterInner.register_error herr).1⟩)

theorem Call.Joining.apart (h : call.Joining) : call.stage.standing = .apart := by
  rcases h with ⟨_, _, hstage, hseed⟩ | ⟨_, _, _, hstage⟩
  · simp [hstage, Stage.standing, hseed]
  · rw [hstage]
    rfl

/-- Updates to seed from come only with a fresh snapshot that has rows. -/
theorem fill_standing (hstage : call.stage = .checked prerunInitial)
    (h : takeSnapshot d.engine call.compiledPlan prerunInitial fetched = .ok snap)
    (hstage' : call'.stage = .opened ⟨snap.1, snap.2.2, chan⟩) :
    StandingMove s (.advance id fetched) id call call' := by
  cases prerunInitial with
  | some =>
    cases h
    exact .keep (by rw [hstage, hstage']; rfl)
  | none =>
    cases fetched with
    | error => cases h
    | ok batch =>
      cases h
      cases hseed : snapshotToSeedUpdates batch with
      | nil => exact .empty (by rw [hstage', hseed]; rfl) hstage rfl hseed
      | cons => exact .keep (by rw [hstage, hstage', hseed]; rfl)

theorem SectionEffect.lists (hcall : s.calls id = some call)
    (h : SectionEffect d s id call fetched s') : ListsMove s s' (.advance id fetched) := by
  cases h with
  | stay => exact .of_stages rfl fun id' prev after hb ha => by rw [mem_unique hb ha]
  | miss hstage => exact .of_section hcall rfl rfl (.keep (by rw [hstage]; rfl))
  | view hstage hkey hst =>
    exact .join hcall rfl hkey (by rw [hstage]; rfl) rfl (subscribers_attach hst id)
  | fail hrefusal => exact .of_section hcall rfl rfl (.refuse rfl rfl hrefusal.standing)
  | pass hstage => exact .of_section hcall rfl rfl (.keep (by rw [hstage]; rfl))
  | fill hstage hsnap =>
    exact .of_section hcall (State.calls_setCall_note ..) (congrArg _ (State.note_host ..))
      (fill_standing hstage hsnap rfl)
  | enter hstage => exact .of_section hcall rfl rfl (.keep (by rw [hstage]; rfl))
  | spawn hstage hseed =>
    exact .of_section hcall rfl rfl (.keep (Call.Joining.apart (.inl ⟨_, _, hstage, hseed⟩)).symm)
  | join hjoin hkey hst =>
    exact .join hcall rfl hkey hjoin.apart rfl (subscribers_attach hst id)
  | @own key dataflow initial snapshotLsn hstage hkey hnone =>
    have hlisted := subscribers_insertSeeded s.host key dataflow initial snapshotLsn id
    rw [insertSeeded, hnone] at hlisted
    exact .join hcall rfl hkey (by rw [hstage]; rfl) rfl hlisted
  | done hcomplete =>
    refine .of_section hcall rfl rfl ?_
    rcases hcomplete with ⟨_, _, hstage, hnone | hseed⟩ | ⟨_, _, _, -, hnone⟩
    · exact .bypass rfl hnone
    · exact .keep (by rw [hstage, hseed]; rfl)
    · exact .bypass rfl hnone

theorem ListsMove.of_calls (hhost : s'.host.subscribers = s.host.subscribers)
    (hcalls : s'.calls = s.calls) : ListsMove s s' a := by
  refine .of_stages hhost fun id call call' hcall hcall' => ?_
  rw [hcalls] at hcall'
  rw [mem_unique hcall hcall']

theorem step_lists [DecidableEq δ] (hprov : Provenance d.engine s) (a) :
    ListsMove s (step d s a) a := by
  have heffect := step_effect d s a
  generalize step d s a = s' at heffect ⊢
  cases heffect with
  | begin =>
    refine .of_stages rfl fun id call call' hcall hcall' => ?_
    rcases update_some hcall' with hold | ⟨rfl, -⟩
    · rw [mem_unique hcall hold]
    · simp [hprov.fresh _ le_rfl] at hcall
  | advance hcall hsection => exact hsection.lists hcall
  | release => exact .part rfl rfl
  | transaction _ hfan => exact .of_calls (subscribers_applyAndFanout hfan).1 rfl
  | deliver => exact .of_calls (congrArg _ (State.note_host ..)) (State.note_calls ..)
  | cursor hcall =>
    exact .of_section hcall (State.calls_setCall_note ..) (congrArg _ (State.note_host ..))
      (.keep rfl)
  | _ => exact .of_calls rfl rfl

/-- A call that has left the others behind does not come back to stand apart. -/
theorem StandingMove.apart (h : StandingMove s a id call call')
    (hapart : call'.stage.standing = .apart) : call.stage.standing = .apart := by
  cases h with
  | keep hsame => rw [← hsame, hapart]
  | refuse hrefused => rw [hapart] at hrefused; cases hrefused
  | bypass hatt | empty hatt => rw [hapart] at hatt; cases hatt

/-- Only a call that has attached is on a subscriber list, once, and under its own key. -/
structure Attachments (s : State δ) : Prop where
  owner : ∀ key id, s.host.Lists key id → ∃ call, s.calls id = some call ∧
    call.canonicalKey = some key ∧ call.stage.standing ≠ .apart
  nodup : ∀ key list, s.host.subscribers key = some list → list.Nodup

/-- A call on a subscriber list has attached to the plan of the list: the plan is on its record. -/
def Served (s : State δ) : Prop :=
  ∀ key id, s.host.Lists key id → ∃ state call, s.host.plans key = some state ∧
    s.calls id = some call ∧ Source.planOf state.builder ∈ call.servedBy

theorem Provenance.served {engine : Engine δ} (h : Provenance engine s) : Served s := by
  rintro key id ⟨list, hlist, hid⟩
  obtain ⟨state, hplan, rfl⟩ := map_eq_some_iff.mp hlist
  obtain ⟨call, hcall, hserved⟩ := (h.plans key state hplan).attached id hid
  exact ⟨state, call, hplan, hcall, hserved⟩

theorem start_attachments : Attachments (State.start : State δ) where
  owner := by rintro key id ⟨list, hlist, -⟩; cases hlist
  nodup := nofun

theorem nodup_release {host : PersistentHost δ}
    (h : ∀ key list, host.subscribers key = some list → list.Nodup) (canonical) (sub : ℕ)
    (key list) (hlist : (host.release canonical sub).subscribers key = some list) : list.Nodup := by
  rw [subscribers_release] at hlist
  rcases eq_or_ne key canonical with rfl | hkey
  · rw [update_self] at hlist
    obtain ⟨prev, hwas, hdrop⟩ := bind_eq_some_iff.mp hlist
    split at hdrop
    · cases hdrop
    · cases hdrop
      exact nodup_dropSubscriber (h key prev hwas) sub
  · rw [update_of_ne hkey] at hlist
    exact h key list hlist

theorem step_attachments [DecidableEq δ] (hprov : Provenance d.engine s) (h : Attachments s) (a) :
    Attachments (step d s a) := by
  cases step_lists hprov a with
  | same hhost hstand =>
    refine ⟨fun key id hlists => ?_, fun key list hlist => ?_⟩
    · obtain ⟨call, hcall, hkey, hapart⟩ := h.owner key id ((lists_congr hhost).mp hlists)
      obtain ⟨call', hcall', hkeep⟩ := step_grows hprov a id call hcall
      exact ⟨call', hcall', hkeep.canonicalKey.trans hkey,
        fun hback => hapart ((hstand id call call' hcall hcall').apart hback)⟩
    · rw [hhost] at hlist
      exact h.nodup key list hlist
  | @join id fetched call call' key hcall hcalls hkey hapart hatt hhost =>
    have hfree : ∀ key, ¬ s.host.Lists key id := by
      intro key hlists
      obtain ⟨before, hwas, -, hnot⟩ := h.owner key id hlists
      cases mem_unique hcall hwas
      exact hnot hapart
    obtain ⟨moved, hmoved, hkeep⟩ := step_grows hprov (.advance id fetched) id call hcall
    obtain rfl : call' = moved := by
      rw [hcalls, update_self] at hmoved
      exact some.inj hmoved
    refine ⟨fun key' id' hlists => ?_, fun key' list hlist => ?_⟩
    · rcases (lists_enlist hhost).mp hlists with hold | ⟨rfl, rfl⟩
      · obtain ⟨other, hother, hotherKey, hnot⟩ := h.owner key' id' hold
        have hne : id' ≠ id := by
          rintro rfl
          exact hfree key' hold
        exact ⟨other, by rwa [hcalls, update_of_ne hne], hotherKey, hnot⟩
      · refine ⟨call', hmoved, hkeep.canonicalKey.trans hkey, ?_⟩
        rw [hatt]
        exact nofun
    · rw [hhost] at hlist
      rcases update_some hlist with hold | ⟨rfl, rfl⟩
      · exact h.nodup key' list hold
      · cases hwas : s.host.subscribers key' with
        | none => simp
        | some before =>
          have hnot : id ∉ before := fun hmem => hfree key' ⟨before, hwas, hmem⟩
          simpa [List.nodup_append, h.nodup key' before hwas] using fun a ha => by
            rintro rfl
            exact hnot ha
  | part =>
    refine ⟨fun key id hlists => ?_, fun key list hlist => ?_⟩
    · exact h.owner key id (lists_of_release hlists)
    · exact nodup_release h.nodup _ _ key list hlist

end Listings

end Palimpsest.Server
