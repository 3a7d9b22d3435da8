import Palimpsest.Server.CallSteps
import Palimpsest.Foundation.Runs

/-! Rules in force and the rows that are served. A subscriber sees only rows of its query rewritten
under rules no older than its subscribe call, as long as no call joins an older plan. -/
namespace Palimpsest.Server
open Sql Dataflow Permissions Option List

variable {δ : Type}

@[simp] def Stage.pastCheck : Stage δ → Bool
  | .checked _ | .opened _ | .registered _ _ | .seeded _ _ _ | .accepted => true
  | .compiled | .looked _ | .rejected _ => false

/-- What the history of a call records: its plan is the one its rules gave, its check succeeded
under the rules then in force, and neither the registry nor the host knows a call that has not
passed its check. -/
structure Traced (engine : Engine δ) (s : State δ) : Prop where
  compiled : ∀ id call, s.calls id = some call → ∃ rules, s.rulesAt call.generation = some rules ∧
      call.compiledPlan = compileRequest engine rules call.request
  permitted : ∀ id call n, s.calls id = some call → call.checkedAt = some n →
    ∃ rules stats, s.rulesAt n = some rules ∧
      checkPermissions call.request.graph rules call.request.userCtx call.compiledPlan = .ok stats
  passed : ∀ id call, s.calls id = some call → call.stage.pastCheck → call.checkedAt.isSome
  entered : ∀ id call, s.calls id = some call → call.registeredAt.isSome → call.checkedAt.isSome
  built : ∀ key state, s.host.plans key = some state →
    ∃ call, s.calls state.builder = some call ∧ call.checkedAt.isSome

section
variable {s : State δ} {id : SubscriptionId}

theorem Moves.checkedAt (h : Moves s id call call') (hcheck : call.checkedAt.isSome) :
    call'.checkedAt.isSome := by
  cases h with
  | pass => rfl
  | _ => exact hcheck

theorem Moves.permitted (h : Moves s id call call')
    (hbefore : ∀ n, call.checkedAt = some n → ∃ rules stats, s.rulesAt n = some rules ∧
      checkPermissions call.request.graph rules call.request.userCtx call.compiledPlan = .ok stats)
    (hchecked : call'.checkedAt = some n) : ∃ rules stats, s.rulesAt n = some rules ∧
      checkPermissions call'.request.graph rules call'.request.userCtx call'.compiledPlan =
        .ok stats := by
  cases h with
  | pass _ hok =>
    cases hchecked
    exact ⟨_, _, s.rulesAt_generation, hok⟩
  | _ => exact hbefore n hchecked

theorem Moves.passed (h : Moves s id call call')
    (hpass : call.stage.pastCheck → call.checkedAt.isSome)
    (hpast : call'.stage.pastCheck) : call'.checkedAt.isSome := by
  cases h with
  | stay => exact hpass hpast
  | fail | miss | view => cases hpast
  | pass => rfl
  | fill _ hstage | enter hstage | spawn _ _ hstage | own hstage | raw hstage =>
    exact hpass (by simp [hstage])
  | join hstage =>
    rcases hstage with ⟨_, _, hstage, -⟩ | ⟨_, _, _, hstage⟩
    · exact hpass (by simp [hstage])
    · exact hpass (by simp [hstage])
  | done hstage =>
    rcases hstage with ⟨_, _, hstage⟩ | ⟨_, _, _, hstage⟩
    · exact hpass (by simp [hstage])
    · exact hpass (by simp [hstage])

theorem Moves.entered (h : Moves s id call call')
    (hpass : call.stage.pastCheck → call.checkedAt.isSome)
    (hentered : call.registeredAt.isSome → call.checkedAt.isSome)
    (hreg : call'.registeredAt.isSome) : call'.checkedAt.isSome := by
  cases h with
  | pass => rfl
  | enter hstage => exact hpass (by simp [hstage])
  | _ => exact hentered hreg

theorem step_checked [DecidableEq δ] (hprov : Provenance d.engine s)
    (hcall : s.calls id = some call) (hcheck : call.checkedAt.isSome) (a) :
    ∃ call', (step d s a).calls id = some call' ∧ Keeps call call' ∧ call'.checkedAt.isSome := by
  obtain ⟨call', hcall', hmove, -⟩ := step_moved hprov hcall a
  exact ⟨call', hcall', hmove.keeps, hmove.checkedAt hcheck⟩

theorem step_traced [DecidableEq δ] (hprov : Provenance d.engine s) (h : Traced d.engine s) (a) :
    Traced d.engine (step d s a) where
  compiled id call' hcall' := by
    rcases step_call hcall' with ⟨call, hcall, hmove, -⟩ | ⟨req, schema, -, -, rfl⟩
    · obtain ⟨rules, hrls, hplan⟩ := h.compiled id call hcall
      have hkeep := hmove.keeps
      refine ⟨rules, ?_, ?_⟩
      · rw [hkeep.generation]
        exact step_rulesAt a hrls
      · rw [hkeep.compiledPlan, hkeep.request, hplan]
    · exact ⟨s.router.rules, step_rulesAt a s.rulesAt_generation, rfl⟩
  permitted id call' n hcall' hchecked := by
    rcases step_call hcall' with ⟨call, hcall, hmove, -⟩ | ⟨req, schema, -, -, rfl⟩
    · obtain ⟨rules, stats, hrules, hok⟩ := hmove.permitted (h.permitted id call · hcall) hchecked
      exact ⟨rules, stats, step_rulesAt a hrules, hok⟩
    · cases hchecked
  passed id call' hcall' hpast := by
    rcases step_call hcall' with ⟨call, hcall, hmove, -⟩ | ⟨req, schema, -, -, rfl⟩
    · exact hmove.passed (h.passed id call hcall) hpast
    · exact absurd hpast (firstStage_elim (P := (¬ ·.pastCheck)) nofun nofun _ schema)
  entered id call' hcall' hreg := by
    rcases step_call hcall' with ⟨call, hcall, hmove, -⟩ | ⟨req, schema, -, -, rfl⟩
    · exact hmove.entered (h.passed id call hcall) (h.entered id call hcall) hreg
    · cases hreg
  built key state hst := by
    have hcheck : ∃ call, s.calls state.builder = some call ∧ call.checkedAt.isSome := by
      rcases step_plans d s a key state hst with ⟨old, hold, hbuilt⟩ |
        ⟨call, dataflow, initial, snapshotLsn, hcall, hstage⟩
      · rw [hbuilt]
        exact h.built key old hold
      · exact ⟨call, hcall, h.passed _ call hcall (by simp [hstage])⟩
    obtain ⟨call, hcall, hcheck⟩ := hcheck
    obtain ⟨call', hcall', -, hcheck'⟩ := step_checked hprov hcall hcheck a
    exact ⟨call', hcall', hcheck'⟩

theorem start_traced (engine) : Traced engine (State.start : State δ) where
  compiled _ _ h := by cases h
  permitted _ _ _ h := by cases h
  passed _ _ h := by cases h
  entered _ _ h := by cases h
  built _ _ h := by cases h

end

section
variable {s : State δ} {id : SubscriptionId}

/-- The next section of the call looks for a registered plan to join. -/
def Call.joins (call : Call δ) : Prop :=
  match call.stage with
  | .compiled => True
  | .registered _ seedUpdates => seedUpdates ≠ []
  | .seeded _ _ _ => True
  | _ => False

/-- Where a new source can come from: a plan found under the call's key, the call's own plan, or
the tables when the call does not run on the host. -/
theorem Moves.sources (h : Moves s id call call') (hsrc : src ∈ call'.servedBy) :
    src ∈ call.servedBy ∨
    (call.joins ∧ ∃ key state, call.canonicalKey = some key ∧ s.host.plans key = some state ∧
      src = .planOf state.builder) ∨
    (call.stage.pastCheck ∧ (src = .planOf id ∧ call.compiledPlan.isSome ∨
      src = .passThrough ∧ call.canonicalKey = none)) := by
  cases h with
  | view hstage hkey hst =>
    refine (mem_append.mp hsrc).imp_right fun hnew => ?_
    refine .inl ⟨?_, _, _, hkey, hst, mem_singleton.mp hnew⟩
    simp [Call.joins, hstage]
  | @fill prerunInitial opened hstage =>
    refine (mem_append.mp hsrc).imp_right fun hnew => .inr ⟨by simp [hstage], ?_⟩
    split at hnew
    · cases hnew
    · obtain rfl := mem_singleton.mp hnew
      unfold Call.ownSource
      rcases eq_none_or_eq_some call.compiledPlan with hnone | ⟨plan, hsome⟩
      · simp [hnone, Call.canonicalKey]
      · simp [hsome]
  | join hstage hkey hst =>
    refine (mem_append.mp hsrc).imp_right fun hnew => ?_
    refine .inl ⟨?_, _, _, hkey, hst, mem_singleton.mp hnew⟩
    rcases hstage with ⟨_, _, hstage, hseed⟩ | ⟨_, _, _, hstage⟩
    · simpa [Call.joins, hstage] using hseed
    · simp [Call.joins, hstage]
  | own hstage hkey =>
    refine (mem_append.mp hsrc).imp_right fun hnew => ?_
    refine .inr ⟨by simp [hstage], .inl ⟨mem_singleton.mp hnew, ?_⟩⟩
    rcases eq_none_or_eq_some call.compiledPlan with hnone | ⟨plan, hsome⟩
    · simp [Call.canonicalKey, hnone] at hkey
    · simp [hsome]
  | raw hstage hkey =>
    refine (mem_append.mp hsrc).imp_right fun hnew => ?_
    exact .inr ⟨by simp [hstage], .inr ⟨mem_singleton.mp hnew, hkey⟩⟩
  | _ => exact .inl hsrc

theorem step_sources [DecidableEq δ] (hcall' : (step d s a).calls id = some call')
    (hsrc : src ∈ call'.servedBy) :
    ∃ call, s.calls id = some call ∧ Keeps call call' ∧ (src ∈ call.servedBy ∨
      (∃ fetched key state, a = .advance id fetched ∧ call.joins ∧ call.canonicalKey = some key ∧
        s.host.plans key = some state ∧ src = .planOf state.builder) ∨
      (call.stage.pastCheck ∧ (src = .planOf id ∧ call.compiledPlan.isSome ∨
        src = .passThrough ∧ call.canonicalKey = none))) := by
  rcases step_call hcall' with ⟨call, hcall, hmove, hkind⟩ | ⟨req, schema, -, -, rfl⟩
  · refine ⟨call, hcall, hmove.keeps, ?_⟩
    rcases hkind with ⟨fetched, rfl⟩ | hrests
    · refine (hmove.sources hsrc).imp_right (Or.imp_left ?_)
      rintro ⟨hjoins, key, state, hfound⟩
      exact ⟨fetched, key, state, rfl, hjoins, hfound⟩
    · refine (hrests.sources src hsrc).imp_right fun ⟨hraw, hstage, hkey⟩ => ?_
      exact .inr ⟨by simp [hstage], .inr ⟨hraw, hkey⟩⟩
  · cases hsrc

end

section Current

/-- The rules the call read to compile did rewrite its query. -/
def Rewritten (s : State δ) (call : Call δ) : Prop :=
  ∃ rules outcome, s.rulesAt call.generation = some rules ∧
    rewrite call.request.graph rules call.request.userCtx = .ok outcome

/-- The builder compiled the same query for the same user, from rules no older than the call's. -/
structure NoOlder (call builder : Call δ) : Prop where
  graph : builder.request.graph = call.request.graph
  userCtx : builder.request.userCtx = call.request.userCtx
  generation : call.generation ≤ builder.generation

/-- The steps that keep what is served current: a call only joins a plan built for its own query
and user from rules no older than its own; and a call that passes its check has compiled a plan
for the host from a rewritten graph. -/
def KeepsCurrent (s : State δ) : Action δ → Prop
  | .advance id _ => ∀ call, s.calls id = some call →
    (call.joins → ∀ key state, call.canonicalKey = some key → s.host.plans key = some state →
      ∃ builder, s.calls state.builder = some builder ∧ NoOlder call builder) ∧
    (∀ prerunInitial stats, call.stage = .looked prerunInitial →
      checkPermissions call.request.graph s.router.rules call.request.userCtx
        call.compiledPlan = .ok stats →
      Rewritten s call ∧ call.canonicalKey.isSome)
  | _ => True

structure Current (s : State δ) : Prop where
  rewritten : ∀ id call, s.calls id = some call → call.checkedAt.isSome →
    Rewritten s call ∧ call.canonicalKey.isSome
  sources : ∀ id call, s.calls id = some call → ∀ source ∈ call.servedBy,
    ∃ b builder, source = .planOf b ∧ s.calls b = some builder ∧ NoOlder call builder ∧
      builder.checkedAt.isSome

/-- Every queued row belongs to the subscriber's query, rewritten for its user under rules that
were in force when it subscribed or later. -/
def ServesCurrentRules (engine : Engine δ) (s : State δ) : Prop :=
  ∀ id channel, s.router.channels id = some channel → ∀ event ∈ channel.sender.queue,
    ∀ row ∈ event.rows, ∃ call, s.calls id = some call ∧
      ∃ n rules outcome plan, call.generation ≤ n ∧ s.rulesAt n = some rules ∧
        rewrite call.request.graph rules call.request.userCtx = .ok outcome ∧
        compileMir engine outcome.graph = some plan ∧ row ∈ engine.rowsOf plan

variable {s : State δ}

theorem NoOlder.keeps {call : Call δ} (h : NoOlder call builder) (hcall : Keeps call call')
    (hbuilt : Keeps builder builder') : NoOlder call' builder' where
  graph := by rw [hcall.request, hbuilt.request, h.graph]
  userCtx := by rw [hcall.request, hbuilt.request, h.userCtx]
  generation := by rw [hcall.generation, hbuilt.generation]; exact h.generation

theorem Keeps.canonicalKey {call : Call δ} (h : Keeps call call') :
    call'.canonicalKey = call.canonicalKey := by
  unfold Call.canonicalKey
  rw [h.compiledPlan, h.request]

theorem start_current : Current (State.start : State δ) where
  rewritten _ _ h := by cases h
  sources _ _ h := by cases h

/-- What is recorded as serving a subscriber decides what it can be sent. -/
theorem Current.servesCurrentRules (hprov : Provenance engine s) (htraced : Traced engine s)
    (h : Current s) : ServesCurrentRules engine s := by
  intro id chan hchan event hev row hrow
  obtain ⟨call, hcall, hfeeds⟩ := hprov.channels id chan hchan event hev row hrow
  refine ⟨call, hcall, ?_⟩
  rcases hfeeds with hraw | ⟨b, builder, plan, hmem, hbuilt, hplan, hrows⟩
  · obtain ⟨b, -, ⟨⟩, -⟩ := h.sources id call hcall _ hraw
  · obtain ⟨b', builder', ⟨⟩, hbuilt', hnoOlder, hcheck⟩ := h.sources id call hcall _ hmem
    cases mem_unique hbuilt hbuilt'
    obtain ⟨⟨rules, outcome, hrules, hrw⟩, -⟩ := h.rewritten b builder hbuilt hcheck
    obtain ⟨rules', hrules', hcomp⟩ := htraced.compiled b builder hbuilt
    cases mem_unique hrules hrules'
    refine ⟨builder.generation, rules, outcome, plan, hnoOlder.generation, hrules, ?_, ?_, hrows⟩
    · rw [← hnoOlder.graph, ← hnoOlder.userCtx]
      exact hrw
    · rw [← hplan, hcomp, compileRequest, hrw]

variable [DecidableEq δ]

theorem Rewritten.step (h : Rewritten s call) (hkeep : Keeps call call') :
    Rewritten (step d s a) call' := by
  obtain ⟨rules, outcome, hrules, hrw⟩ := h
  refine ⟨rules, outcome, ?_, ?_⟩
  · rw [hkeep.generation]
    exact step_rulesAt a hrules
  · rw [hkeep.request]
    exact hrw

theorem step_current (hprov : Provenance d.engine s) (htraced : Traced d.engine s)
    (h : Current s) (hmeets : KeepsCurrent s a) : Current (step d s a) where
  rewritten id call' hcall' hchk := by
    rcases step_call hcall' with ⟨call, hcall, hmove, hkind⟩ | ⟨req, schema, -, -, rfl⟩
    · have hkeep := hmove.keeps
      have hwas : Rewritten s call ∧ call.canonicalKey.isSome := by
        by_cases hold : call.checkedAt.isSome
        · exact h.rewritten id call hcall hold
        · rcases hkind with ⟨fetched, rfl⟩ | hrests
          · cases hmove with
            | pass hstage hcheck => exact (hmeets call hcall).2 _ _ hstage hcheck
            | _ => exact absurd hchk hold
          · rw [hrests.checkedAt] at hchk
            exact absurd hchk hold
      exact ⟨hwas.1.step hkeep, hkeep.canonicalKey ▸ hwas.2⟩
    · cases hchk
  sources id call' hcall' src hsrc := by
    obtain ⟨call, hcall, hkeep, horig⟩ := step_sources hcall' hsrc
    have hwas : ∃ b builder, src = .planOf b ∧ s.calls b = some builder ∧
        NoOlder call builder ∧ builder.checkedAt.isSome := by
      rcases horig with hold | ⟨fetched, key, state, rfl, hjoins, hkey, hst, rfl⟩ |
        ⟨hpast, ⟨rfl, -⟩ | ⟨-, hkey⟩⟩
      · exact h.sources id call hcall src hold
      · obtain ⟨builder, hbuilt, hnoOlder⟩ := (hmeets call hcall).1 hjoins key state hkey hst
        obtain ⟨builder', hbuilt', hchk⟩ := htraced.built key state hst
        cases mem_unique hbuilt hbuilt'
        exact ⟨state.builder, builder, rfl, hbuilt, hnoOlder, hchk⟩
      · exact ⟨id, call, rfl, hcall, ⟨rfl, rfl, le_rfl⟩, htraced.passed id call hcall hpast⟩
      · have hhosted := (h.rewritten id call hcall (htraced.passed id call hcall hpast)).2
        simp [hkey] at hhosted
    obtain ⟨b, builder, rfl, hbuilt, hnoOlder, hchk⟩ := hwas
    obtain ⟨builder', hbuilt', hkeep', hchk'⟩ := step_checked hprov hbuilt hchk a
    exact ⟨b, builder', rfl, hbuilt', hnoOlder.keeps hkeep hkeep', hchk'⟩

/-- An invariant that each step keeps in states with traced provenance holds of every reachable
state. -/
theorem reached_traced {P : State δ → Prop} (d) (hstart : P State.start)
    (hstep : ∀ s a, Provenance d.engine s → Traced d.engine s → P s → meets s a → P (step d s a))
    (h : Runs.Reached (step d) meets State.start s) :
    Provenance d.engine s ∧ Traced d.engine s ∧ P s := by
  apply h.invariant (P := fun s => Provenance d.engine s ∧ Traced d.engine s ∧ P s)
  · exact ⟨start_provenance d.engine, start_traced d.engine, hstart⟩
  · rintro s a ⟨hprov, htraced, hp⟩ hmeets
    exact ⟨step_provenance hprov a, step_traced hprov htraced a, hstep s a hprov htraced hp hmeets⟩

/-- Calls served past the host are those without a key to be hosted under. -/
def Bypassed (s : State δ) : Prop :=
  ∀ id call, s.calls id = some call → Source.passThrough ∈ call.servedBy → call.canonicalKey = none

theorem step_bypassed (h : Bypassed s) (a) : Bypassed (step d s a) := by
  intro id call' hcall' hsource
  obtain ⟨call, hcall, hkeep, hold | ⟨_, _, _, -, -, -, -, hplan⟩ | ⟨-, ⟨hplan, -⟩ | ⟨-, hkey⟩⟩⟩ :=
    step_sources hcall' hsource
  · exact hkeep.canonicalKey.trans (h id call hcall hold)
  · cases hplan
  · cases hplan
  · exact hkeep.canonicalKey.trans hkey

/-- Rows on their way to a subscriber come from a plan on record as serving it, unless its call is
not hosted. -/
theorem rows_traced (d : Deployment δ) (actions : List (Action δ)) :
    Provenance d.engine (actions.foldl (step d) .start) ∧
      Bypassed (actions.foldl (step d) .start) := by
  obtain ⟨hprov, -, hbypassed⟩ := reached_traced (P := Bypassed) d (fun _ _ h => by cases h)
    (fun _ a _ _ h _ => step_bypassed h a) ((Runs.Schedule.free _ _ actions).reached .start)
  exact ⟨hprov, hbypassed⟩

/-- No call is registered or builds a plan before it has passed its check. -/
theorem checked_before_served (d : Deployment δ) (actions : List (Action δ)) :
    Traced d.engine (actions.foldl (step d) .start) :=
  (reached_traced (P := fun _ => True) d trivial (fun _ _ _ _ h _ => h)
    ((Runs.Schedule.free _ _ actions).reached .start)).2.1

/-- In every run in which no call joins a plan older than itself, and no call passes its check
without a plan compiled from a rewritten graph, all that is ever queued for a subscriber are rows
of its query under the rules in force when it subscribed, or newer ones. -/
theorem reached_servesCurrentRules (d : Deployment δ)
    (h : Runs.Reached (step d) KeepsCurrent State.start s) : ServesCurrentRules d.engine s := by
  obtain ⟨hprov, htraced, hcurrent⟩ := reached_traced d start_current
    (fun _ _ hprov htraced hcurrent hmeets => step_current hprov htraced hcurrent hmeets) h
  exact hcurrent.servesCurrentRules hprov htraced

end Current

section Posts

/-- The rows that get through the filters of a plan over the posts table. -/
def admitsRow (plan : CompiledPlan) (row : Row ℕ) : Bool :=
  plan.graph.graph.nodes.all fun
    | .filter predicate => predicate != "author_id = 7" || row[1]? == some 7
    | _ => true

def postsEngine : Engine ℕ where
  compile _ := some [1]
  snapshotRun plan inputs := (inputs 1).filter (admitsRow plan)
  seedReply plan inputs := (inputs 1).filter (admitsRow plan)
  applyReply plan _ diffs lsn :=
    (diffs.filter fun diff => admitsRow plan diff.2.1).map fun diff => ⟨diff.2.1, lsn, diff.2.2⟩
  rowsOf plan := {row | admitsRow plan row}
  mem_snapshotRun _ _ _ h := (mem_filter.mp h).2
  mem_seedReply _ _ _ h := (mem_filter.mp h).2
  mem_applyReply plan _ diffs lsn delta h := by
    obtain ⟨diff, hdiff, rfl⟩ := mem_map.mp h
    exact (mem_filter.mp hdiff).2

def postsDeployment : Deployment ℕ :=
  ⟨postsEngine, ⟨2, .dropAndResync, 100, by decide⟩, fun n => [n]⟩

def readPosts (clientId : String) : SubscribeRequest :=
  ⟨1, clientId, "SELECT * FROM posts", readAll "posts", userSeven, none⟩

def twoPosts : SnapshotBatch ℕ := ⟨5, [(1, [[1, 8], [2, 7]])]⟩

/-- A subscribe call with all of its sections in a row. -/
def subscribePosts (clientId : String) (id : SubscriptionId) : List (Action ℕ) :=
  .begin (readPosts clientId) (.ok ()) :: replicate 6 (.advance id (.ok twoPosts))

def postsRun (actions : List (Action ℕ)) : State ℕ :=
  actions.foldl (step postsDeployment) State.start

theorem ownPosts_nodes :
    (rewrite (readAll "posts") ownPosts userSeven).toOption.map (fun o => o.graph.graph.nodes) =
      some [.baseTable "posts" [], .filter "author_id = 7"] := by
  decide +kernel

theorem keepsCurrent_of_no_plan {s : State ℕ} {id : SubscriptionId} (hcall : s.calls id = some call)
    (hplans : ∀ key, s.host.plans key = none)
    (hlooked : ∀ prerunInitial, call.stage = .looked prerunInitial →
      Rewritten s call ∧ call.canonicalKey.isSome) : KeepsCurrent s (.advance id fetched) := by
  intro call' hcall'
  cases mem_unique hcall hcall'
  constructor
  · intro _ key state _ hst
    simp [hplans key] at hst
  · intro prerunInitial stats hstage _
    exact hlooked prerunInitial hstage

theorem subscribe_after_rules_current :
    ServesCurrentRules postsEngine (postsRun (.setRules ownPosts :: subscribePosts "a" 1)) ∧
      ((postsRun (.setRules ownPosts :: subscribePosts "a" 1)).router.channels 1).map
        (fun channel => channel.sender.queue) = some [.initial 5 [[2, 7]]] := by
  refine ⟨reached_servesCurrentRules postsDeployment (Runs.Schedule.reached ?_ .start), rfl⟩
  refine .cons trivial (.cons trivial ?_)
  refine .cons ?_ (.cons ?_ (.cons ?_ (.cons ?_ (.cons ?_ (.cons ?_ (.nil _))))))
  on_goal 2 => exact keepsCurrent_of_no_plan rfl (fun _ => rfl) fun _ _ => ⟨⟨_, _, rfl, rfl⟩, rfl⟩
  all_goals exact keepsCurrent_of_no_plan rfl (fun _ => rfl) (by rintro _ ⟨⟩)

/-- The first subscriber's plan was built without rules; a second one that subscribes after the
rules were installed is served from it. -/
def staleRun : State ℕ :=
  postsRun (subscribePosts "a" 1 ++ .setRules ownPosts :: subscribePosts "b" 2)

theorem stale_plan_served :
    Runs.Reached (step postsDeployment) (fun _ _ => True) State.start staleRun ∧
      ¬ ServesCurrentRules postsEngine staleRun := by
  refine ⟨(Runs.Schedule.free _ _ _).reached .start, fun h => ?_⟩
  obtain ⟨channel, hchan, hq⟩ : ∃ channel, staleRun.router.channels 2 = some channel ∧
      channel.sender.queue = [.initial 5 [[1, 8], [2, 7]]] := ⟨_, rfl, rfl⟩
  have hev : DiffEvent.initial 5 [[1, 8], [2, 7]] ∈ channel.sender.queue := by
    rw [hq]
    exact mem_singleton_self _
  obtain ⟨call, hcall, n, rules, outcome, plan, hn, hrules, hrw, hplan, hrow⟩ :=
    h 2 channel hchan _ hev [1, 8] (by decide)
  -- the call began after the rules were installed, so only they can be meant
  have hcalls : (staleRun.calls 2).map (fun call => (call.generation, call.request)) =
      some (1, readPosts "b") := rfl
  rw [hcall, map_some, some.injEq, Prod.mk.injEq] at hcalls
  rw [hcalls.2] at hrw
  have hhist : staleRun.past ++ [staleRun.router.rules] = [[], ownPosts] := rfl
  unfold State.rulesAt at hrules
  rw [hhist] at hrules
  obtain rfl : n = 1 := by
    obtain ⟨hlt, -⟩ := List.getElem?_eq_some_iff.mp hrules
    simp at hlt
    omega
  obtain rfl : ownPosts = rules := some.inj hrules
  have hnodes := ownPosts_nodes
  change rewrite (readAll "posts") ownPosts userSeven = _ at hrw
  rw [hrw, Except.toOption, map_some, some.injEq] at hnodes
  cases hplan
  simp [postsEngine, admitsRow, hnodes] at hrow

end Posts

end Palimpsest.Server
