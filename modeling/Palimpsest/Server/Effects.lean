import Palimpsest.Server.System

/-! What one step of the server makes of the state. -/
namespace Palimpsest.Server
open Sql Dataflow Permissions Function

variable {δ : Type}

theorem State.calls_setCall_note (s : State δ) (id id' event) (sent : Bool) (call) :
    ((s.note id event sent).setCall id' call).calls = update s.calls id' (some call) := by
  simp [setCall]

section

/-- Only a saturated channel makes a failing call detach. -/
theorem failOpen_eq {s : State δ} {id : SubscriptionId} (h : error ≠ .channelSaturated) :
    failOpen s id call error = s.setCall id { call with stage := .rejected (.router error) } := by
  unfold failOpen
  split
  next => exact absurd rfl h
  next => rfl

theorem takeSnapshot_error {engine : Engine δ}
    (h : takeSnapshot engine compiledPlan prerunInitial fetched = .error error) :
    prerunInitial = none ∧ error ≠ .channelSaturated := by
  unfold takeSnapshot at h
  split at h
  · cases h
  · split at h
    · cases h
      exact ⟨rfl, nofun⟩
    · cases h

theorem RouterInner.register_error {router : RouterInner δ} {id : SubscriptionId}
    (h : router.register id req opened = .error error) :
    (router.registry.byClientId (req.connection, req.clientId)).isSome ∧
      error ≠ .channelSaturated := by
  unfold register SubscriptionRegistry.insert at h
  dsimp only at h
  cases htaken : router.registry.byClientId (req.connection, req.clientId) with
  | some =>
    rw [htaken] at h
    cases h
    exact ⟨rfl, nofun⟩
  | none =>
    rw [htaken] at h
    cases h

end

/-- Why a section rejects its call: the check fails, there is no snapshot, or the client's id is
taken. -/
inductive Refusal (d : Deployment δ) (s : State δ) (id : SubscriptionId) (call : Call δ)
    (fetched : Except String (SnapshotBatch δ)) (error : RouterError) : Prop
  | check {prerunInitial : Option (List (Row δ) × Lsn)} :
      call.stage = .looked prerunInitial → checkPermissions call.request.graph s.router.rules
        call.request.userCtx call.compiledPlan = .error error → Refusal d s id call fetched error
  | snapshot : call.stage = .checked none →
      takeSnapshot d.engine call.compiledPlan none fetched = .error error →
      Refusal d s id call fetched error
  | register {opened : Opened δ} : call.stage = .opened opened →
      s.router.register id call.request opened = .error error → Refusal d s id call fetched error

/-- A call that has nothing left to do: it does not run on the host, or there is nothing to seed a
plan from. -/
def Call.Complete (call : Call δ) : Prop :=
  (∃ snapshotLsn seedUpdates, call.stage = .registered snapshotLsn seedUpdates ∧
    (call.canonicalKey = none ∨ seedUpdates = [])) ∨
  ∃ dataflow initial snapshotLsn, call.stage = .seeded dataflow initial snapshotLsn ∧
    call.canonicalKey = none

/-- A call that joins the plan of its key if there is one by now. -/
def Call.Joining (call : Call δ) : Prop :=
  (∃ snapshotLsn seedUpdates, call.stage = .registered snapshotLsn seedUpdates ∧ seedUpdates ≠ []) ∨
  ∃ dataflow initial snapshotLsn, call.stage = .seeded dataflow initial snapshotLsn

inductive SectionEffect (d : Deployment δ) (s : State δ) (id : SubscriptionId) (call : Call δ)
    (fetched : Except String (SnapshotBatch δ)) : State δ → Prop
  | stay : SectionEffect d s id call fetched s
  | miss : call.stage = .compiled →
      SectionEffect d s id call fetched (s.setCall id { call with stage := .looked none })
  | view {key : String} {state : PlanState δ} : call.stage = .compiled →
      call.canonicalKey = some key → s.host.plans key = some state →
      SectionEffect d s id call fetched { s.setCall id { call with
          stage := .looked (some (state.lastOutput, state.lastLsn))
          servedBy := call.servedBy ++ [.planOf state.builder] } with
        host := s.host.attach key state id }
  | fail {error : RouterError} : Refusal d s id call fetched error →
      SectionEffect d s id call fetched
        (s.setCall id { call with stage := .rejected (.router error) })
  | pass {prerunInitial : Option (List (Row δ) × Lsn)} {stats : RewriteStats} :
      call.stage = .looked prerunInitial →
      checkPermissions call.request.graph s.router.rules call.request.userCtx
        call.compiledPlan = .ok stats →
      SectionEffect d s id call fetched (s.setCall id { call with
        stage := .checked prerunInitial, checkedAt := some s.generation })
  | fill {prerunInitial : Option (List (Row δ) × Lsn)}
      {snapshot : Lsn × List (Row δ) × List (TableDiff δ)} {channel : BoundedDiffChannel δ} :
      call.stage = .checked prerunInitial →
      takeSnapshot d.engine call.compiledPlan prerunInitial fetched = .ok snapshot →
      channel.sender.queue = [] ∨ channel.sender.queue = [.initial snapshot.1 snapshot.2.1] →
      SectionEffect d s id call fetched
        ((s.note id (.initial snapshot.1 snapshot.2.1) (channel.sender.queue ≠ [])).setCall id
          { call with
            stage := .opened ⟨snapshot.1, snapshot.2.2, channel⟩
            servedBy := call.servedBy ++ if prerunInitial.isSome then [] else [call.ownSource id] })
  | enter {opened : Opened δ} {router : RouterInner δ} : call.stage = .opened opened →
      s.router.register id call.request opened = .ok router →
      SectionEffect d s id call fetched { s.setCall id { call with
          stage := .registered opened.snapshotLsn opened.seedUpdates
          registeredAt := some s.generation } with
        router := router }
  | spawn {snapshotLsn : Lsn} {seedUpdates : List (TableDiff δ)} {plan : CompiledPlan} :
      call.stage = .registered snapshotLsn seedUpdates → seedUpdates ≠ [] →
      call.compiledPlan = some plan →
      SectionEffect d s id call fetched (s.setCall id { call with
        stage := .seeded ((IncrementalDataflow.spawn plan).seed d.engine (groupSeed seedUpdates)).2
          ((IncrementalDataflow.spawn plan).seed d.engine (groupSeed seedUpdates)).1 snapshotLsn })
  | join {key : String} {state : PlanState δ} : call.Joining → call.canonicalKey = some key →
      s.host.plans key = some state →
      SectionEffect d s id call fetched { s.setCall id { call with
          stage := .accepted, servedBy := call.servedBy ++ [.planOf state.builder] } with
        host := s.host.attach key state id }
  | own {key : String} {dataflow : IncrementalDataflow δ} {initial : List (Row δ)}
      {snapshotLsn : Lsn} : call.stage = .seeded dataflow initial snapshotLsn →
      call.canonicalKey = some key → s.host.plans key = none →
      SectionEffect d s id call fetched { s.setCall id { call with
          stage := .accepted, servedBy := call.servedBy ++ [.planOf id] } with
        host := s.host.put key ⟨dataflow, initial, snapshotLsn, [id], id⟩ }
  | done : call.Complete →
      SectionEffect d s id call fetched (s.setCall id { call with stage := .accepted })

inductive Effect [DecidableEq δ] (d : Deployment δ) (s : State δ) : Action δ → State δ → Prop
  | idle {a : Action δ} : Effect d s a s
  | begin (request : SubscribeRequest) (schema : Except String Unit) :
      Effect d s (.begin request schema) (begin d s request schema)
  | advance {id : SubscriptionId} {call : Call δ} {fetched : Except String (SnapshotBatch δ)}
      {s' : State δ} : s.calls id = some call → SectionEffect d s id call fetched s' →
      Effect d s (.advance id fetched) s'
  | startPump {a : Action δ} {key : String} (defaultTable : Option TableId) : Effect d s a
      { s with pumps := update s.pumps key (some ⟨defaultTable, none⟩) }
  | exitPump {a : Action δ} {key : String} : s.host.plans key = none →
      Effect d s a { s with pumps := update s.pumps key none }
  | transaction {key : String} {delta : QueryTransactionDelta δ} {defaultTable : Option TableId}
      {deltas : List (AggregateDelta δ)} {subscribers : List ℕ} {host : PersistentHost δ} :
      s.pumps key = some ⟨defaultTable, none⟩ →
      s.host.applyAndFanout d.engine key (attributed defaultTable delta) delta.commitLsn =
        some ((deltas, subscribers), host) →
      Effect d s (.pumpTransaction key delta) { s with
        host := host
        pumps := update s.pumps key (some ⟨defaultTable, if deltas = [] then none else
          some (pairTransaction (primaryKeyBytes d.datumToKeyBytes [0]) (outputDelta delta deltas),
            subscribers)⟩) }
  | deliver {key : String} {defaultTable : Option TableId} {event : DiffEvent δ}
      {target : SubscriptionId} {rest : List SubscriptionId} :
      s.pumps key = some ⟨defaultTable, some (event, target :: rest)⟩ →
      Effect d s (.deliver key) { s.note target event (sendsTo s target) with
        router := (s.router.pumpEvent target event).2
        pumps := update s.pumps key (some ⟨defaultTable, some (event, rest)⟩) }
  | cursor {id : SubscriptionId} {call : Call δ} {primaryKey : List ℕ}
      {delta : QueryTransactionDelta δ} : s.calls id = some call → call.canonicalKey = none →
      call.stage = .accepted →
      Effect d s (.pumpCursor id primaryKey delta)
        { (s.note id (pairTransaction (primaryKeyBytes d.datumToKeyBytes primaryKey) delta)
            (sendsTo s id)).setCall id
              { call with servedBy := call.servedBy ++ [.passThrough] } with
          router := (s.router.pumpEvent id
            (pairTransaction (primaryKeyBytes d.datumToKeyBytes primaryKey) delta)).2 }
  | setRules (rules : List CompiledRule) : Effect d s (.setRules rules) (setRules s rules)
  | unsubscribe (id : SubscriptionId) :
      Effect d s (.unsubscribe id) { s with router := (s.router.unsubscribe id).2 }
  | release (key : String) (id : SubscriptionId) :
      Effect d s (.release key id) { s with host := s.host.release key id }
  | receive (id : SubscriptionId) : Effect d s (.receive id) (updateChannel s id Mpsc.receive)
  | hangUp (id : SubscriptionId) : Effect d s (.hangUp id) (updateChannel s id Mpsc.hangUp)

section
variable {d : Deployment δ} {id : SubscriptionId}

theorem lookUp_effect (hstage : call.stage = .compiled) :
    SectionEffect d s id call fetched (lookUp s id call) := by
  unfold lookUp
  split
  · exact .miss hstage
  next key hkey =>
    split
    · exact .miss hstage
    next state hst => exact .view hstage hkey hst

theorem openUp_effect (hstage : call.stage = .checked prerunInitial) :
    SectionEffect d s id call fetched (openUp d s id call prerunInitial fetched) := by
  unfold openUp
  split
  next error herr =>
    obtain ⟨rfl, hother⟩ := takeSnapshot_error herr
    rw [failOpen_eq hother]
    exact .fail (.snapshot hstage herr)
  next snap hsnap =>
    obtain ⟨chan, hopen, hq⟩ := openChannel_ok d.config call.request.resumeLsn snap
    rw [hopen]
    exact .fill hstage hsnap hq

theorem registerCall_effect (hstage : call.stage = .opened opened) :
    SectionEffect d s id call fetched (registerCall s id call opened) := by
  unfold registerCall
  split
  next error herr =>
    rw [failOpen_eq (RouterInner.register_error herr).2]
    exact .fail (.register hstage herr)
  next router hrouter => exact .enter hstage hrouter

theorem seed_effect (hstage : call.stage = .registered snapshotLsn seedUpdates) :
    SectionEffect d s id call fetched (seed d s id call snapshotLsn seedUpdates) := by
  unfold seed
  split
  next plan key hplan hkey =>
    split
    next hseed => exact .done (.inl ⟨_, _, hstage, .inr hseed⟩)
    next hseed =>
      split
      next state hst => exact .join (.inl ⟨_, _, hstage, hseed⟩) hkey hst
      next => exact .spawn hstage hseed hplan
  next hnone =>
    refine .done (.inl ⟨_, _, hstage, .inl ?_⟩)
    cases hplan : call.compiledPlan with
    | none => simp [Call.canonicalKey, hplan]
    | some plan =>
      cases hkey : call.canonicalKey with
      | none => rfl
      | some key => exact absurd hkey (hnone plan key hplan)

theorem insertPlan_effect (hstage : call.stage = .seeded dataflow initial snapshotLsn) :
    SectionEffect d s id call fetched (insertPlan s id call dataflow initial snapshotLsn) := by
  unfold insertPlan
  split
  next hkey => exact .done (.inr ⟨_, _, _, hstage, hkey⟩)
  next key hkey =>
    unfold PersistentHost.insertSeeded
    cases hst : s.host.plans key with
    | some => exact .join (.inr ⟨_, _, _, hstage⟩) hkey hst
    | none => exact .own hstage hkey hst

theorem advance_effect (hcall : s.calls id = some call) :
    SectionEffect d s id call fetched (advance d s id fetched) := by
  rw [advance, hcall]
  dsimp only
  split
  next hstage => exact lookUp_effect hstage
  next hstage =>
    unfold check
    split
    next herr => exact .fail (.check hstage herr)
    next hcheck => exact .pass hstage hcheck
  next hstage => exact openUp_effect hstage
  next hstage => exact registerCall_effect hstage
  next hstage => exact seed_effect hstage
  next hstage => exact insertPlan_effect hstage
  next => exact .stay
  next => exact .stay

end

theorem step_effect [DecidableEq δ] (d : Deployment δ) (s a) : Effect d s a (step d s a) := by
  cases a with
  | begin req schema => exact .begin req schema
  | advance id fetched =>
    cases hcall : s.calls id with
    | none =>
      have hstep : step d s (.advance id fetched) = s := by simp [step, advance, hcall]
      rw [hstep]
      exact .idle
    | some => exact .advance hcall (advance_effect hcall)
  | ensurePump id =>
    show Effect d s _ (ensurePump s id)
    unfold ensurePump
    split
    · dsimp only
      split
      · exact .idle
      · exact .startPump _
    · exact .idle
  | pumpTransaction key delta =>
    show Effect d s _ (pumpTransaction d s key delta)
    unfold pumpTransaction
    split
    next defaultTable hpump =>
      split
      next hnone => exact .exitPump (Option.map_eq_none_iff.mp hnone)
      next deltas subscribers host hfan =>
        have heffect := Effect.transaction (δ := δ) hpump hfan
        split
        next hempty =>
          rwa [if_pos hempty, update_eq_self_iff.mpr hpump.symm] at heffect
        next hsome =>
          rwa [if_neg hsome] at heffect
    next => exact .idle
  | pumpTick key =>
    show Effect d s _ (pumpTick s key)
    unfold pumpTick
    split
    next hgone => exact .exitPump hgone
    next => exact .idle
  | deliver key =>
    show Effect d s _ (deliver s key)
    unfold deliver
    split
    next hpump => exact .deliver hpump
    next defaultTable _ _ => exact .startPump defaultTable
    next => exact .idle
  | pumpCursor id primaryKey delta =>
    show Effect d s _ (pumpCursor d s id primaryKey delta)
    unfold pumpCursor
    split
    · exact .idle
    next call hcall =>
      split
      next hkey hstage =>
        split
        · exact .idle
        · exact .cursor hcall hkey hstage
      next => exact .idle
  | setRules rules => exact .setRules rules
  | unsubscribe id => exact .unsubscribe id
  | release key id => exact .release key id
  | receive id => exact .receive id
  | hangUp id => exact .hangUp id

end Palimpsest.Server
