import Palimpsest.Server.Provenance

/-! What one step of the server can do to a subscribe call, to the registered plans and to the
rules. The invariants over runs are all derived from these facts. -/
namespace Palimpsest.Server
open Sql Dataflow Permissions Function

variable {δ : Type}

inductive Moves (s : State δ) (id : SubscriptionId) (call : Call δ) : Call δ → Prop
  | stay : Moves s id call call
  | fail (error : SubscribeBlockingError) : Moves s id call { call with stage := .rejected error }
  | miss : call.stage = .compiled → Moves s id call { call with stage := .looked none }
  | view {key : String} {state : PlanState δ} : call.stage = .compiled →
      call.canonicalKey = some key → s.host.plans key = some state →
      Moves s id call { call with
        stage := .looked (some (state.lastOutput, state.lastLsn))
        servedBy := call.servedBy ++ [.planOf state.builder] }
  | pass {prerunInitial : Option (List (Row δ) × Lsn)} {stats : RewriteStats} :
      call.stage = .looked prerunInitial →
      checkPermissions call.request.graph s.router.rules call.request.userCtx
        call.compiledPlan = .ok stats →
      Moves s id call { call with
        stage := .checked prerunInitial, checkedAt := some s.generation }
  | fill {prerunInitial : Option (List (Row δ) × Lsn)} (opened : Opened δ) :
      call.stage = .checked prerunInitial →
      Moves s id call { call with
        stage := .opened opened
        servedBy := call.servedBy ++ if prerunInitial.isSome then [] else [call.ownSource id] }
  | enter {opened : Opened δ} : call.stage = .opened opened → Moves s id call { call with
        stage := .registered opened.snapshotLsn opened.seedUpdates
        registeredAt := some s.generation }
  | spawn {snapshotLsn : Lsn} {seedUpdates : List (TableDiff δ)}
      (dataflow : IncrementalDataflow δ) (initial : List (Row δ)) :
      call.stage = .registered snapshotLsn seedUpdates → seedUpdates ≠ [] →
      Moves s id call { call with stage := .seeded dataflow initial snapshotLsn }
  | join {key : String} {state : PlanState δ} :
      (∃ snapshotLsn seedUpdates, call.stage = .registered snapshotLsn seedUpdates ∧
        seedUpdates ≠ []) ∨
        (∃ dataflow initial snapshotLsn, call.stage = .seeded dataflow initial snapshotLsn) →
      call.canonicalKey = some key → s.host.plans key = some state →
      Moves s id call { call with
        stage := .accepted, servedBy := call.servedBy ++ [.planOf state.builder] }
  | own {dataflow : IncrementalDataflow δ} {initial : List (Row δ)} {snapshotLsn : Lsn} :
      call.stage = .seeded dataflow initial snapshotLsn → call.canonicalKey.isSome →
      Moves s id call { call with
        stage := .accepted, servedBy := call.servedBy ++ [.planOf id] }
  | done : (∃ snapshotLsn seedUpdates, call.stage = .registered snapshotLsn seedUpdates) ∨
        (∃ dataflow initial snapshotLsn, call.stage = .seeded dataflow initial snapshotLsn) →
      Moves s id call { call with stage := .accepted }
  | raw : call.stage = .accepted → call.canonicalKey = none →
      Moves s id call { call with servedBy := call.servedBy ++ [.passThrough] }

theorem Moves.keeps {s : State δ} {id : SubscriptionId} (h : Moves s id call call') :
    Keeps call call' := by
  cases h with
  | stay => exact .refl call
  | view => exact ⟨rfl, rfl, rfl, List.subset_append_left _ _⟩
  | fill => exact ⟨rfl, rfl, rfl, List.subset_append_left _ _⟩
  | join | own | raw => exact ⟨rfl, rfl, rfl, List.subset_append_left _ _⟩
  | _ => exact ⟨rfl, rfl, rfl, .refl _⟩

/-- A step that is not one of the call's own sections leaves it where it stands; at most it gets
table rows, when it does not run on the host. -/
structure Rests (call call' : Call δ) : Prop where
  stage : call'.stage = call.stage
  checkedAt : call'.checkedAt = call.checkedAt
  registeredAt : call'.registeredAt = call.registeredAt
  sources : ∀ source ∈ call'.servedBy, source ∈ call.servedBy ∨
    source = .passThrough ∧ call.stage = .accepted ∧ call.canonicalKey = none

theorem Rests.refl (call : Call δ) : Rests call call :=
  ⟨rfl, rfl, rfl, fun _ => .inl⟩

/-- The state after a section of call `id`: that call has moved, no other call has changed, and
the rules are as they were. -/
structure Section (s s' : State δ) (id : SubscriptionId) (call : Call δ) : Prop where
  moves : ∃ call', s'.calls = update s.calls id (some call') ∧ Moves s id call call'
  rules : s'.router.rules = s.router.rules
  past : s'.past = s.past

theorem SectionEffect.section {d : Deployment δ} {id : SubscriptionId}
    (hcall : s.calls id = some call) (h : SectionEffect d s id call fetched s') :
    Section s s' id call := by
  cases h with
  | stay => exact ⟨⟨call, (update_eq_self_iff.mpr hcall.symm).symm, .stay⟩, rfl, rfl⟩
  | miss hstage => exact ⟨⟨_, rfl, .miss hstage⟩, rfl, rfl⟩
  | view hstage hkey hst => exact ⟨⟨_, rfl, .view hstage hkey hst⟩, rfl, rfl⟩
  | fail => exact ⟨⟨_, rfl, .fail _⟩, rfl, rfl⟩
  | pass hstage hcheck => exact ⟨⟨_, rfl, .pass hstage hcheck⟩, rfl, rfl⟩
  | fill hstage =>
    refine ⟨⟨_, State.calls_setCall_note .., .fill _ hstage⟩, ?_, ?_⟩
    · simp [State.setCall]
    · simp [State.setCall]
  | enter hstage hrouter =>
    exact ⟨⟨_, rfl, .enter hstage⟩, (RouterInner.register_channels hrouter).2, rfl⟩
  | spawn hstage hseed => exact ⟨⟨_, rfl, .spawn _ _ hstage hseed⟩, rfl, rfl⟩
  | join hjoin hkey hst => exact ⟨⟨_, rfl, .join hjoin hkey hst⟩, rfl, rfl⟩
  | own hstage hkey => exact ⟨⟨_, rfl, .own hstage (by simp [hkey])⟩, rfl, rfl⟩
  | done hcomplete =>
    refine ⟨⟨_, rfl, .done ?_⟩, rfl, rfl⟩
    rcases hcomplete with ⟨_, _, hstage, -⟩ | ⟨_, _, _, hstage, -⟩
    · exact .inl ⟨_, _, hstage⟩
    · exact .inr ⟨_, _, _, hstage⟩

theorem State.rulesAt_generation (s : State δ) : s.rulesAt s.generation = some s.router.rules := by
  simp [rulesAt, generation]

section Steps
variable [DecidableEq δ] {d : Deployment δ}

/-- A step starts a call, or is a section of a call, or leaves the calls alone. -/
theorem step_cases (d : Deployment δ) (s a) : (∃ req schema, a = .begin req schema) ∨
    (∃ id call call', s.calls id = some call ∧
      (step d s a).calls = update s.calls id (some call') ∧ Moves s id call call' ∧
      ((∃ fetched, a = .advance id fetched) ∨ Rests call call')) ∨
    (step d s a).calls = s.calls := by
  have heffect := step_effect d s a
  generalize step d s a = s' at heffect ⊢
  cases heffect with
  | begin req schema => exact .inl ⟨req, schema, rfl⟩
  | advance hcall hsection =>
    obtain ⟨call', hcalls, hmove⟩ := (hsection.section hcall).moves
    exact .inr (.inl ⟨_, _, call', hcall, hcalls, hmove, .inl ⟨_, rfl⟩⟩)
  | cursor hcall hkey hstage =>
    refine .inr (.inl ⟨_, _, _, hcall, State.calls_setCall_note .., .raw hstage hkey,
      .inr ⟨rfl, rfl, rfl, ?_⟩⟩)
    intro src hsrc
    exact (List.mem_append.mp hsrc).imp_right fun hnew => ⟨List.mem_singleton.mp hnew, hstage, hkey⟩
  | deliver => exact .inr (.inr (State.note_calls ..))
  | _ => exact .inr (.inr rfl)

theorem step_call {id : SubscriptionId} (h : (step d s a).calls id = some call') :
    (∃ call, s.calls id = some call ∧ Moves s id call call' ∧
      ((∃ fetched, a = .advance id fetched) ∨ Rests call call')) ∨
    (∃ req schema, a = .begin req schema ∧ id = s.nextId ∧
      call' = ⟨req, compileRequest d.engine s.router.rules req,
        firstStage (compileRequest d.engine s.router.rules req) schema, s.generation, none,
        none, []⟩) := by
  rcases step_cases d s a with ⟨req, schema, rfl⟩ |
    ⟨id', call, moved, hcall, hcalls, hmove, hkind⟩ | hsame
  · rcases update_some h with hold | ⟨rfl, rfl⟩
    · exact .inl ⟨call', hold, .stay, .inr (.refl call')⟩
    · exact .inr ⟨req, schema, rfl, rfl, rfl⟩
  · rw [hcalls] at h
    rcases update_some h with hold | ⟨rfl, rfl⟩
    · exact .inl ⟨call', hold, .stay, .inr (.refl call')⟩
    · exact .inl ⟨call, hcall, hmove, hkind⟩
  · rw [hsame] at h
    exact .inl ⟨call', h, .stay, .inr (.refl call')⟩

theorem step_grows (h : Provenance d.engine s) (a) : Grows s.calls (step d s a).calls := by
  rcases step_cases d s a with ⟨req, schema, rfl⟩ |
    ⟨id, call, moved, hcall, hcalls, hmove, -⟩ | hsame
  · exact Grows.add (h.fresh _ le_rfl) _
  · rw [hcalls]
    exact .update hcall hmove.keeps
  · rw [hsame]
    exact .refl _

theorem step_moved (h : Provenance d.engine s) {id : SubscriptionId}
    (hcall : s.calls id = some call) (a) :
    ∃ call', (step d s a).calls id = some call' ∧ Moves s id call call' ∧
      ((∃ fetched, a = .advance id fetched) ∨ Rests call call') := by
  obtain ⟨call', hcall', -⟩ := step_grows h a id call hcall
  refine ⟨call', hcall', ?_⟩
  rcases step_call hcall' with ⟨prev, hwas, hmove⟩ | ⟨req, schema, -, rfl, -⟩
  · cases Option.mem_unique hcall hwas
    exact hmove
  · simp [h.fresh _ le_rfl] at hcall

theorem step_rules (d : Deployment δ) (s a) : (∃ rules, a = .setRules rules) ∨
      (step d s a).router.rules = s.router.rules ∧ (step d s a).past = s.past := by
  have heffect := step_effect d s a
  generalize step d s a = s' at heffect ⊢
  cases heffect with
  | setRules rules => exact .inl ⟨rules, rfl⟩
  | advance hcall hsection =>
    exact .inr ⟨(hsection.section hcall).rules, (hsection.section hcall).past⟩
  | deliver | cursor => exact .inr ⟨RouterInner.pumpEvent_rules .., State.note_past ..⟩
  | unsubscribe => exact .inr ⟨RouterInner.unsubscribe_rules .., rfl⟩
  | _ => exact .inr ⟨rfl, rfl⟩

theorem step_rulesAt (a) (h : s.rulesAt n = some rules) : (step d s a).rulesAt n = some rules := by
  rcases step_rules d s a with ⟨new, rfl⟩ | ⟨hrules, hpast⟩
  · obtain ⟨hlt, -⟩ := getElem?_eq_some_iff.mp h
    show ((s.past ++ [s.router.rules]) ++ [new])[n]? = some rules
    rw [List.getElem?_append_left hlt]
    exact h
  · rw [State.rulesAt, hrules, hpast]
    exact h

theorem step_generation_le (d : Deployment δ) (s a) : s.generation ≤ (step d s a).generation := by
  rcases step_rules d s a with ⟨new, rfl⟩ | ⟨-, hpast⟩
  · simp [State.generation, step, setRules]
  · simp [State.generation, hpast]

end Steps

section

/-- A plan registered after a step was registered before, or belongs to a call that had seeded its
own worker. -/
def PlansFrom (s s' : State δ) : Prop :=
  ∀ key state', s'.host.plans key = some state' →
    (∃ state, s.host.plans key = some state ∧ state'.builder = state.builder) ∨
    ∃ call dataflow initial snapshotLsn, s.calls state'.builder = some call ∧
      call.stage = .seeded dataflow initial snapshotLsn

variable {s : State δ}

theorem PlansFrom.same (h : s'.host = s.host) : PlansFrom s s' := by
  intro key state hst
  rw [h] at hst
  exact .inl ⟨state, hst, rfl⟩

theorem PlansFrom.put (h : s'.host = s.host.put key state') (hst : s.host.plans key = some state)
    (hbuilt : state'.builder = state.builder) : PlansFrom s s' := by
  intro key' other hother
  rw [h] at hother
  rcases update_some hother with hold | ⟨rfl, rfl⟩
  · exact .inl ⟨other, hold, rfl⟩
  · exact .inl ⟨state, hst, hbuilt⟩

theorem step_plans [DecidableEq δ] (d : Deployment δ) (s a) : PlansFrom s (step d s a) := by
  have heffect := step_effect d s a
  generalize step d s a = s' at heffect ⊢
  cases heffect with
  | advance hcall hsection =>
    cases hsection with
    | view _ _ hst | join _ _ hst => exact .put rfl hst rfl
    | fill => exact .same (State.note_host ..)
    | own hstage =>
      intro key state hst
      rcases update_some hst with hold | ⟨rfl, rfl⟩
      · exact .inl ⟨state, hold, rfl⟩
      · exact .inr ⟨_, _, _, _, hcall, hstage⟩
    | _ => exact .same rfl
  | transaction _ hfan =>
    obtain ⟨state, hst, ⟨⟩⟩ := Option.map_eq_some_iff.mp hfan
    exact .put rfl hst rfl
  | deliver | cursor => exact .same (State.note_host ..)
  | release =>
    intro key state hst
    obtain ⟨prev, hwas, subscribers, -, rfl⟩ := PersistentHost.release_plans hst
    exact .inl ⟨prev, hwas, rfl⟩
  | _ => exact .same rfl

end

end Palimpsest.Server
