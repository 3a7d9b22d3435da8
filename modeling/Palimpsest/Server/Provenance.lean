import Palimpsest.Server.Effects

/-! Where the rows of a subscriber come from. In every run, and whatever the rules do, a subscriber
is only ever sent rows of the plans recorded as serving it, or table rows when it is recorded as
passed through. -/
namespace Palimpsest.Server
open Sql Dataflow Permissions Function List Option

variable {δ : Type}

abbrev Calls (δ : Type) := SubscriptionId → Option (Call δ)

/-- A call goes on with the same request and plan, and nothing that served it is forgotten. -/
structure Keeps (call call' : Call δ) : Prop where
  request : call'.request = call.request
  compiledPlan : call'.compiledPlan = call.compiledPlan
  generation : call'.generation = call.generation
  servedBy : call.servedBy ⊆ call'.servedBy

def Grows (calls calls' : Calls δ) : Prop :=
  ∀ id call, calls id = some call → ∃ call', calls' id = some call' ∧ Keeps call call'

def Feeds (engine : Engine δ) (calls : Calls δ) (sources : List Source) (row : Row δ) : Prop :=
  Source.passThrough ∈ sources ∨ ∃ builder call plan, Source.planOf builder ∈ sources ∧
    calls builder = some call ∧ call.compiledPlan = some plan ∧ row ∈ engine.rowsOf plan

def Fed (engine : Engine δ) (calls : Calls δ) (id : SubscriptionId) (rows : List (Row δ)) : Prop :=
  ∀ row ∈ rows, ∃ call, calls id = some call ∧ Feeds engine calls call.servedBy row

/-- A registered plan runs the plan its builder compiled, and its subscribers know it. -/
structure PlanOk (engine : Engine δ) (calls : Calls δ) (state : PlanState δ) : Prop where
  built : ∃ call, calls state.builder = some call ∧ call.compiledPlan = some state.dataflow.plan
  output : ∀ row ∈ state.lastOutput, row ∈ engine.rowsOf state.dataflow.plan
  attached : ∀ id ∈ state.subscribers, ∃ call, calls id = some call ∧
    Source.planOf state.builder ∈ call.servedBy

def PumpOk (engine : Engine δ) (calls : Calls δ) (pump : Pump δ) : Prop :=
  ∀ event targets, pump.delivering = some (event, targets) →
    ∀ id ∈ targets, Fed engine calls id event.rows

def QueueOk (engine : Engine δ) (calls : Calls δ) (id : SubscriptionId)
    (queue : List (DiffEvent δ)) : Prop :=
  ∀ event ∈ queue, Fed engine calls id event.rows

/-- What a call carries from one section to the next. -/
def StageOk (engine : Engine δ) (calls : Calls δ) (id : SubscriptionId) (call : Call δ) : Prop :=
  match call.stage with
  | .looked (some view) => Fed engine calls id view.1
  | .checked (some view) => Fed engine calls id view.1
  | .opened opened => QueueOk engine calls id opened.channel.sender.queue
  | .seeded dataflow initial _ => call.compiledPlan = some dataflow.plan ∧
      ∀ row ∈ initial, row ∈ engine.rowsOf dataflow.plan
  | _ => True

structure Provenance (engine : Engine δ) (s : State δ) : Prop where
  fresh : ∀ id, s.nextId ≤ id → s.calls id = none
  plans : ∀ key state, s.host.plans key = some state → PlanOk engine s.calls state
  pumps : ∀ key pump, s.pumps key = some pump → PumpOk engine s.calls pump
  stages : ∀ id call, s.calls id = some call → StageOk engine s.calls id call
  channels : ∀ id channel, s.router.channels id = some channel →
    QueueOk engine s.calls id channel.sender.queue

section Growth
variable {calls : Calls δ}
variable {id : SubscriptionId}

theorem Keeps.refl (call : Call δ) : Keeps call call := ⟨rfl, rfl, rfl, List.Subset.refl _⟩

theorem Grows.refl (calls : Calls δ) : Grows calls calls := by
  intro id call h
  exact ⟨call, h, .refl call⟩

theorem Grows.add (h : calls id = none) (call) : Grows calls (update calls id (some call)) := by
  intro id' call' hcall
  have hne : id' ≠ id := by
    rintro rfl
    simp [h] at hcall
  exact ⟨call', by rwa [update_of_ne hne], .refl call'⟩

theorem Grows.update (h : calls id = some call) (hkeep : Keeps call call') :
    Grows calls (update calls id (some call')) := by
  intro id' other hother
  by_cases hid : id' = id
  · subst hid
    cases mem_unique h hother
    exact ⟨call', update_self .., hkeep⟩
  · exact ⟨other, by rwa [update_of_ne hid], .refl other⟩

theorem Feeds.mono (hgrows : Grows calls calls') (hsub : sources ⊆ sources')
    (h : Feeds engine calls sources row) : Feeds engine calls' sources' row := by
  rcases h with hraw | ⟨builder, call, plan, hmem, hcall, hplan, hrow⟩
  · exact .inl (hsub hraw)
  · obtain ⟨call', hcall', hkeep⟩ := hgrows builder call hcall
    exact .inr ⟨builder, call', plan, hsub hmem, hcall', hkeep.compiledPlan.trans hplan, hrow⟩

theorem Fed.mono (hgrows : Grows calls calls') (h : Fed engine calls id rows) :
    Fed engine calls' id rows := by
  intro row hrow
  obtain ⟨call, hcall, hfeeds⟩ := h row hrow
  obtain ⟨call', hcall', hkeep⟩ := hgrows id call hcall
  exact ⟨call', hcall', hfeeds.mono hgrows hkeep.servedBy⟩

theorem QueueOk.mono (hgrows : Grows calls calls') (h : QueueOk engine calls id queue) :
    QueueOk engine calls' id queue :=
  fun event hev => (h event hev).mono hgrows

theorem PlanOk.mono (hgrows : Grows calls calls') (h : PlanOk engine calls state) :
    PlanOk engine calls' state := by
  constructor
  · obtain ⟨call, hcall, hplan⟩ := h.built
    obtain ⟨call', hcall', hkeep⟩ := hgrows _ call hcall
    exact ⟨call', hcall', hkeep.compiledPlan.trans hplan⟩
  · exact h.output
  · intro id hid
    obtain ⟨call, hcall, hserves⟩ := h.attached id hid
    obtain ⟨call', hcall', hkeep⟩ := hgrows id call hcall
    exact ⟨call', hcall', hkeep.servedBy hserves⟩

theorem PumpOk.mono (hgrows : Grows calls calls') (h : PumpOk engine calls pump) :
    PumpOk engine calls' pump :=
  fun event targets hdeliver id hid => (h event targets hdeliver id hid).mono hgrows

theorem StageOk.mono (hgrows : Grows calls calls') (h : StageOk engine calls id call) :
    StageOk engine calls' id call := by
  unfold StageOk at h ⊢
  split
  next view hstage =>
    rw [hstage] at h
    exact Fed.mono hgrows h
  next view hstage =>
    rw [hstage] at h
    exact Fed.mono hgrows h
  next opened hstage =>
    rw [hstage] at h
    exact QueueOk.mono hgrows h
  next hstage =>
    rwa [hstage] at h
  next => trivial

theorem PlanOk.fed (h : PlanOk engine calls state)
    (hid : ∃ call, calls id = some call ∧ Source.planOf state.builder ∈ call.servedBy)
    (hrows : ∀ row ∈ rows, row ∈ engine.rowsOf state.dataflow.plan) : Fed engine calls id rows := by
  obtain ⟨builder, hbuilt, hplan⟩ := h.built
  obtain ⟨call, hcall, hserves⟩ := hid
  intro row hrow
  exact ⟨call, hcall, .inr ⟨_, builder, _, hserves, hbuilt, hplan, hrows row hrow⟩⟩

theorem PlanOk.attach (h : PlanOk engine calls state)
    (hid : ∃ call, calls id = some call ∧ Source.planOf state.builder ∈ call.servedBy) :
    PlanOk engine calls { state with subscribers := state.subscribers ++ [id] } := by
  refine ⟨h.built, h.output, fun id' hid' => ?_⟩
  rcases mem_append.mp hid' with hold | hnew
  · exact h.attached id' hold
  · obtain rfl := mem_singleton.mp hnew
    exact hid

end Growth

section
variable {engine : Engine δ} {s : State δ}
variable {id : SubscriptionId}

variable (h : Provenance engine s)
include h

/-- To carry the invariant over a step it is enough to look at what the step changed. -/
theorem Provenance.of_parts (hgrows : Grows s.calls s'.calls)
    (hfr : ∀ id, s'.nextId ≤ id → s'.calls id = none)
    (hplans : ∀ key state, s'.host.plans key = some state →
      s.host.plans key = some state ∨ PlanOk engine s'.calls state)
    (hpumps : ∀ key pump, s'.pumps key = some pump →
      s.pumps key = some pump ∨ PumpOk engine s'.calls pump)
    (hstages : ∀ id call, s'.calls id = some call →
      s.calls id = some call ∨ StageOk engine s'.calls id call)
    (hchannels : ∀ id chan, s'.router.channels id = some chan →
      s.router.channels id = some chan ∨ QueueOk engine s'.calls id chan.sender.queue) :
    Provenance engine s' where
  fresh := hfr
  plans key state hst := by
    exact (hplans key state hst).elim (fun hold => (h.plans key state hold).mono hgrows) id
  pumps key pump hpump := by
    exact (hpumps key pump hpump).elim (fun hold => (h.pumps key pump hold).mono hgrows) id
  stages id call hcall := by
    rcases hstages id call hcall with hold | hnew
    · exact (h.stages id call hold).mono hgrows
    · exact hnew
  channels id chan hchan := by
    rcases hchannels id chan hchan with hold | hnew
    · exact (h.channels id chan hold).mono hgrows
    · exact hnew

theorem Provenance.lt_nextId (hcall : s.calls id = some call) : id < s.nextId := by
  by_contra hge
  simp [h.fresh id (not_lt.mp hge)] at hcall

theorem Provenance.fresh_setCall (hcall : s.calls id = some call) (call') :
    ∀ id', s.nextId ≤ id' → update s.calls id (some call') id' = none := by
  intro id' hid'
  have hlt : id < id' := lt_of_lt_of_le (h.lt_nextId hcall) hid'
  rw [update_of_ne hlt.ne']
  exact h.fresh id' hid'

/-- A section of one call: it moves the call on and may touch plans and channels. -/
theorem Provenance.of_call (hcall : s.calls id = some call) (hkeep : Keeps call call')
    (hcalls : s'.calls = update s.calls id (some call')) (hnext : s'.nextId = s.nextId)
    (hpumps : s'.pumps = s.pumps) (hstage : StageOk engine s'.calls id call')
    (hplans : ∀ key state, s'.host.plans key = some state →
      s.host.plans key = some state ∨ PlanOk engine s'.calls state)
    (hchannels : ∀ id chan, s'.router.channels id = some chan →
      s.router.channels id = some chan ∨ QueueOk engine s'.calls id chan.sender.queue) :
    Provenance engine s' := by
  refine h.of_parts ?_ ?_ hplans ?_ ?_ hchannels
  · rw [hcalls]
    exact .update hcall hkeep
  · rw [hcalls, hnext]
    exact h.fresh_setCall hcall call'
  · intro key pump hpump
    rw [hpumps] at hpump
    exact .inl hpump
  · intro id' other hother
    have hupdate := hother
    rw [hcalls] at hupdate
    rcases update_some hupdate with hold | ⟨rfl, rfl⟩
    · exact .inl hold
    · exact .inr hstage

theorem Provenance.setStage (hcall : s.calls id = some call) (hkeep : Keeps call call')
    (hstage : StageOk engine (update s.calls id (some call')) id call') :
    Provenance engine (s.setCall id call') :=
  h.of_call hcall hkeep rfl rfl rfl hstage (fun _ _ => .inl) (fun _ _ => .inl)

end

section Sections
variable {engine : Engine δ} {d : Deployment δ} {id : SubscriptionId} {call : Call δ}

theorem begin_provenance (h : Provenance engine s) (req schema) :
    Provenance engine (begin d s req schema) := by
  have hnone : s.calls s.nextId = none := h.fresh _ le_rfl
  refine h.of_parts (Grows.add hnone _) ?_ (fun _ _ => .inl) (fun _ _ => .inl) ?_
    (fun _ _ => .inl)
  · intro id hid
    have hlt : s.nextId < id := hid
    show update s.calls s.nextId _ id = none
    rw [update_of_ne hlt.ne']
    exact h.fresh id hlt.le
  · intro id other hother
    rcases update_some hother with hold | ⟨rfl, rfl⟩
    · exact .inl hold
    · unfold StageOk
      rcases firstStage_cases (δ := δ) (compileRequest d.engine s.router.rules req) schema with
        hstage | ⟨error, hstage⟩
      · simp [hstage]
      · simp [hstage]

theorem attach_provenance (h : Provenance engine s) (hcall : s.calls id = some call)
    (hkeep : Keeps call call') (hst : s.host.plans key = some state)
    (hserves : Source.planOf state.builder ∈ call'.servedBy)
    (hstage : PlanOk engine (update s.calls id (some call')) state →
      StageOk engine (update s.calls id (some call')) id call') :
    Provenance engine { s.setCall id call' with host := s.host.attach key state id } := by
  have hplan := (h.plans key state hst).mono (.update hcall hkeep)
  refine h.of_call hcall hkeep rfl rfl rfl (hstage hplan) ?_ (fun _ _ => .inl)
  intro key' state' hst'
  rcases update_some hst' with hold | ⟨-, rfl⟩
  · exact .inl hold
  · exact .inr (hplan.attach ⟨call', update_self .., hserves⟩)

theorem release_provenance (h : Provenance engine s) (key) (id : SubscriptionId) :
    Provenance engine { s with host := s.host.release key id } := by
  refine h.of_parts (Grows.refl _) h.fresh ?_ (fun _ _ => .inl) (fun _ _ => .inl)
    (fun _ _ => .inl)
  intro key' state hst
  obtain ⟨prev, hwas, subscribers, hsub, rfl⟩ := PersistentHost.release_plans hst
  have hok := h.plans key' prev hwas
  exact .inr ⟨hok.built, hok.output, fun id hid => hok.attached id (hsub hid)⟩

/-- The first event carries rows of the cached view, of the call's own plan, or of the tables. -/
theorem takeSnapshot_rows
    (h : takeSnapshot engine call.compiledPlan prerunInitial fetched = .ok snap) :
    (∃ lsn, prerunInitial = some (snap.2.1, lsn)) ∨ prerunInitial = none ∧
      ∀ plan, call.compiledPlan = some plan → ∀ row ∈ snap.2.1, row ∈ engine.rowsOf plan := by
  unfold takeSnapshot at h
  split at h
  next rows lsn =>
    cases h
    exact .inl ⟨lsn, rfl⟩
  next =>
    split at h
    · cases h
    next batch =>
      cases h
      refine .inr ⟨rfl, fun plan hplan => ?_⟩
      simp only [hplan]
      exact engine.mem_snapshotRun plan _

theorem fill_provenance (h : Provenance d.engine s) (hcall : s.calls id = some call)
    (hstage : call.stage = .checked prerunInitial)
    (hsnap : takeSnapshot d.engine call.compiledPlan prerunInitial fetched = .ok snap)
    (hq : chan.sender.queue = [] ∨ chan.sender.queue = [.initial snap.1 snap.2.1])
    (hcall' : call' = { call with
      stage := .opened ⟨snap.1, snap.2.2, chan⟩
      servedBy := call.servedBy ++ if prerunInitial.isSome then [] else [call.ownSource id] }) :
    Provenance d.engine ((s.note id (.initial snap.1 snap.2.1) sent).setCall id call') := by
  have hkeep : Keeps call call' := by
    subst hcall'
    exact ⟨rfl, rfl, rfl, subset_append_left _ _⟩
  have hrows : Fed d.engine (update s.calls id (some call')) id snap.2.1 := by
    rcases takeSnapshot_rows hsnap with ⟨lsn, rfl⟩ | ⟨rfl, hplan⟩
    · have hcheck := h.stages id call hcall
      unfold StageOk at hcheck
      rw [hstage] at hcheck
      exact Fed.mono (.update hcall hkeep) hcheck
    · intro row hrow
      refine ⟨_, update_self .., ?_⟩
      subst hcall'
      rcases eq_none_or_eq_some call.compiledPlan with hnone | ⟨plan, hsome⟩
      · left
        simp [Call.ownSource, hnone]
      · right
        exact ⟨id, _, plan, by simp [Call.ownSource, hsome], update_self .., hsome,
          hplan plan hsome row hrow⟩
  apply h.of_call hcall hkeep
  · simp [State.setCall]
  · simp [State.setCall]
  · simp [State.setCall]
  · subst hcall'
    intro event hev
    rcases hq with hempty | hinit
    · simp [hempty] at hev
    · rw [hinit] at hev
      obtain rfl := mem_singleton.mp hev
      simpa [State.setCall, DiffEvent.rows] using hrows
  · intro key state hst
    left
    simpa [State.setCall] using hst
  · intro id' channel' hchan
    left
    simpa [State.setCall] using hchan

theorem SectionEffect.provenance (h : Provenance d.engine s) (hcall : s.calls id = some call)
    (hsection : SectionEffect d s id call fetched s') : Provenance d.engine s' := by
  have hcarry := h.stages id call hcall
  unfold StageOk at hcarry
  have hlast (src : Source) : src ∈ call.servedBy ++ [src] :=
    mem_append_right _ (mem_singleton_self _)
  cases hsection with
  | stay => exact h
  | view _ _ hst =>
    apply attach_provenance h hcall ?_ hst (hlast _)
    · intro hplan
      exact hplan.fed ⟨_, update_self .., hlast _⟩ hplan.output
    · exact ⟨rfl, rfl, rfl, subset_append_left _ _⟩
  | join _ _ hst =>
    apply attach_provenance h hcall ?_ hst (hlast _)
    · exact fun _ => trivial
    · exact ⟨rfl, rfl, rfl, subset_append_left _ _⟩
  | @pass prerunInitial _ hstage =>
    refine h.setStage hcall ⟨rfl, rfl, rfl, .refl _⟩ ?_
    rw [hstage] at hcarry
    cases prerunInitial with
    | none => trivial
    | some => exact Fed.mono (.update hcall ⟨rfl, rfl, rfl, List.Subset.refl _⟩) hcarry
  | fill hstage hsnap hq => exact fill_provenance h hcall hstage hsnap hq rfl
  | enter hstage hrouter =>
    rw [hstage] at hcarry
    refine h.of_call hcall ?_ rfl rfl rfl trivial (fun _ _ => .inl) ?_
    · exact ⟨rfl, rfl, rfl, .refl _⟩
    · intro id' chan hchan
      rw [(RouterInner.register_channels hrouter).1] at hchan
      rcases update_some hchan with hold | ⟨rfl, rfl⟩
      · exact .inl hold
      · exact .inr (hcarry.mono (.update hcall ⟨rfl, rfl, rfl, .refl _⟩))
  | spawn _ _ hplan =>
    exact h.setStage hcall ⟨rfl, rfl, rfl, .refl _⟩ ⟨hplan, d.engine.mem_seedReply _ _⟩
  | own hstage =>
    rw [hstage] at hcarry
    refine h.of_call hcall ?_ rfl rfl rfl trivial ?_ (fun _ _ => .inl)
    · exact ⟨rfl, rfl, rfl, subset_append_left _ _⟩
    · intro key state hst
      rcases update_some hst with hold | ⟨rfl, rfl⟩
      · exact .inl hold
      · right
        refine ⟨⟨_, update_self .., hcarry.1⟩, hcarry.2, fun id' hid' => ?_⟩
        obtain rfl := mem_singleton.mp hid'
        exact ⟨_, update_self .., hlast _⟩
  | _ => exact h.setStage hcall ⟨rfl, rfl, rfl, .refl _⟩ trivial

end Sections

section Others
variable {engine : Engine δ} {d : Deployment δ}

theorem Provenance.of_same_calls (h : Provenance engine s) (hcalls : s'.calls = s.calls)
    (hnext : s'.nextId = s.nextId) (hplans : ∀ key state, s'.host.plans key = some state →
      s.host.plans key = some state ∨ PlanOk engine s.calls state)
    (hpumps : ∀ key pump, s'.pumps key = some pump →
      s.pumps key = some pump ∨ PumpOk engine s.calls pump)
    (hchannels : ∀ id chan, s'.router.channels id = some chan →
      s.router.channels id = some chan ∨ QueueOk engine s.calls id chan.sender.queue) :
    Provenance engine s' := by
  refine h.of_parts ?_ ?_ ?_ ?_ ?_ ?_
  · rw [hcalls]
    exact .refl _
  · rw [hcalls, hnext]
    exact h.fresh
  · rwa [hcalls]
  · rwa [hcalls]
  · intro id call hcall
    rw [hcalls] at hcall
    exact .inl hcall
  · rwa [hcalls]

/-- What a plan emits on a transaction are its own rows, and its subscribers may be sent them. -/
theorem transaction_provenance [DecidableEq δ] (h : Provenance d.engine s)
    (hfan : s.host.applyAndFanout d.engine key (attributed defaultTable delta) delta.commitLsn =
      some ((deltas, subscribers), host)) : Provenance d.engine { s with
      host := host
      pumps := update s.pumps key (some ⟨defaultTable, if deltas = [] then none else
        some (pairTransaction (primaryKeyBytes d.datumToKeyBytes [0]) (outputDelta delta deltas),
          subscribers)⟩) } := by
  obtain ⟨state, hplan, ⟨⟩⟩ := map_eq_some_iff.mp hfan
  have hok := h.plans key state hplan
  have hdeltas := d.engine.mem_applyReply state.dataflow.plan state.dataflow.commands
    (attributed defaultTable delta) delta.commitLsn
  refine h.of_same_calls rfl rfl ?_ ?_ (fun _ _ => .inl)
  · intro key' state' hst'
    rcases update_some hst' with hold | ⟨-, rfl⟩
    · exact .inl hold
    · refine .inr ⟨hok.built, ?_, hok.attached⟩
      intro row hrow
      rcases mem_applyDeltasToCache hrow with hold | ⟨change, hchange, rfl⟩
      · exact hok.output row hold
      · exact hdeltas change hchange
  · intro key' pump hpump
    rcases update_some hpump with hold | ⟨-, rfl⟩
    · exact .inl hold
    · right
      intro event targets hdeliver id hid
      obtain ⟨-, ⟨⟩⟩ := ite_none_left_eq_some.mp hdeliver
      apply hok.fed (hok.attached id hid)
      intro row hrow
      obtain ⟨diff, hdiff, rfl⟩ := rows_pairTransaction hrow
      obtain ⟨change, hchange, rfl⟩ := mem_map.mp hdiff
      exact hdeltas change hchange

theorem pumpEvent_queueOk {router : RouterInner δ} {id : SubscriptionId}
    (hqueues : ∀ id chan, router.channels id = some chan →
      QueueOk engine calls id chan.sender.queue) (hev : Fed engine calls id event.rows)
    (h : (router.pumpEvent id event).2.channels id' = some chan) :
    QueueOk engine calls id' chan.sender.queue := by
  rcases eq_none_or_eq_some (router.channels id) with hnone | ⟨old, hold⟩
  · rw [RouterInner.pumpEvent_of_none event hnone] at h
    exact hqueues id' chan h
  · obtain ⟨channel', hchannels, hsend⟩ := RouterInner.pumpEvent_channels event hold
    rw [hchannels] at h
    rcases update_some h with hother | ⟨rfl, rfl⟩
    · exact hqueues id' chan hother
    · intro queued hqueued
      rw [hsend] at hqueued
      rcases Mpsc.mem_trySend hqueued with rfl | hwas
      · exact hev
      · exact hqueues id' old hold queued hwas

theorem setRules_provenance (h : Provenance engine s) (rules) :
    Provenance engine (setRules s rules) := by
  refine h.of_same_calls rfl rfl (fun _ _ => .inl) (fun _ _ => .inl) ?_
  intro id chan hchan
  right
  obtain ⟨old, hold, rfl⟩ := map_eq_some_iff.mp hchan
  have hq := h.channels id old hold
  intro event hev
  rcases Mpsc.mem_trySend hev with rfl | hwas
  · intro row hrow
    cases hrow
  · exact hq event hwas

theorem updateChannel_provenance (h : Provenance engine s) (id) (hf : ∀ c, (f c).queue ⊆ c.queue) :
    Provenance engine (updateChannel s id f) := by
  refine h.of_same_calls rfl rfl (fun _ _ => .inl) (fun _ _ => .inl) ?_
  intro id' chan hchan
  by_cases hid : id' = id
  · subst hid
    simp only [updateChannel, update_self] at hchan
    obtain ⟨old, hold, rfl⟩ := map_eq_some_iff.mp hchan
    exact .inr fun event hev => h.channels id' old hold event (hf _ hev)
  · simp only [updateChannel, update_of_ne hid] at hchan
    exact .inl hchan

end Others

theorem step_provenance [DecidableEq δ] (h : Provenance d.engine s) (a : Action δ) :
    Provenance d.engine (step d s a) := by
  have heffect := step_effect d s a
  generalize step d s a = s' at heffect ⊢
  cases heffect with
  | idle => exact h
  | begin req schema => exact begin_provenance h req schema
  | advance hcall hsection => exact hsection.provenance h hcall
  | startPump =>
    refine h.of_same_calls rfl rfl (fun _ _ => .inl) ?_ (fun _ _ => .inl)
    intro key pump hpump
    rcases update_some hpump with hold | ⟨-, rfl⟩
    · exact .inl hold
    · exact .inr (fun _ _ hdeliver => nomatch hdeliver)
  | exitPump =>
    refine h.of_same_calls rfl rfl (fun _ _ => .inl) ?_ (fun _ _ => .inl)
    intro key pump hpump
    simp only [update_apply, ite_none_left_eq_some] at hpump
    exact .inl hpump.2
  | transaction _ hfan => exact transaction_provenance h hfan
  | deliver hpump =>
    have hok := h.pumps _ _ hpump _ _ rfl
    refine h.of_same_calls (State.note_calls ..) (State.note_nextId ..) ?_ ?_ ?_
    · intro key state hst
      left
      simpa using hst
    · intro key pump hpump'
      rcases update_some hpump' with hold | ⟨-, rfl⟩
      · exact .inl hold
      · right
        rintro event targets ⟨⟩ id hid
        exact hok id (mem_cons_of_mem _ hid)
    · intro id chan hchan
      exact .inr (pumpEvent_queueOk h.channels (hok _ mem_cons_self) hchan)
  | @cursor id call primaryKey delta hcall _ hstage =>
    have hkeep : Keeps call { call with servedBy := call.servedBy ++ [.passThrough] } :=
      ⟨rfl, rfl, rfl, subset_append_left _ _⟩
    apply h.of_call hcall hkeep
    · simp [State.setCall]
    · simp [State.setCall]
    · simp [State.setCall]
    · unfold StageOk
      simp [hstage]
    · intro key state hst
      left
      simpa [State.setCall] using hst
    · intro id' chan hchan
      right
      apply pumpEvent_queueOk ?_ ?_ hchan
      · intro id'' channel' hchan'
        simp only [State.setCall, State.note_calls]
        exact (h.channels id'' channel' hchan').mono (.update hcall hkeep)
      · intro row _
        exact ⟨_, update_self .., .inl (mem_append_right _
          (mem_singleton_self _))⟩
  | setRules rules => exact setRules_provenance h rules
  | unsubscribe =>
    exact h.of_same_calls rfl rfl (fun _ _ => .inl) (fun _ _ => .inl)
      fun _ _ hchan => .inl (RouterInner.unsubscribe_channels hchan)
  | release key id => exact release_provenance h key id
  | receive id => exact updateChannel_provenance h id fun c => tail_subset c.queue
  | hangUp id => exact updateChannel_provenance h id fun c => nil_subset c.queue

theorem start_provenance (engine) : Provenance engine (State.start : State δ) where
  fresh _ _ := rfl
  plans := nofun
  pumps := nofun
  stages _ _ h := by cases h
  channels := nofun

end Palimpsest.Server
