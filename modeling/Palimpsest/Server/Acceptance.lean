import Palimpsest.Server.CurrentRules

/-! When a subscribe call is accepted, and what the gate of the subscribe-mode rules would have
to refuse. -/
namespace Palimpsest.Server
open Sql Dataflow Permissions Function

variable {δ : Type}

section Sections

/-- The rest of a call's sections, with nothing in between. -/
def runSections (d : Deployment δ) (id : SubscriptionId)
    (fetched : Except String (SnapshotBatch δ)) : ℕ → State δ → State δ
  | 0, s => s
  | n + 1, s => runSections d id fetched n (advance d s id fetched)

/-- A whole subscribe call, from the rules it reads first to its answer. -/
def subscribeCall (d : Deployment δ) (s : State δ) (request : SubscribeRequest)
    (schema : Except String Unit) (fetched : Except String (SnapshotBatch δ)) : State δ :=
  runSections d s.nextId fetched 6 (begin d s request schema)

/-- After `n` more sections the call is rejected if `refused` holds, and accepted if not. -/
def Settles (d : Deployment δ) (id : SubscriptionId) (fetched : Except String (SnapshotBatch δ))
    (n : ℕ) (s : State δ) (refused : Prop) : Prop :=
  ∃ call, (runSections d id fetched n s).calls id = some call ∧
    ((refused ∧ ∃ error, call.stage = .rejected error) ∨ (¬ refused ∧ call.stage = .accepted))

variable {d : Deployment δ} {id : SubscriptionId} {fetched : Except String (SnapshotBatch δ)}
  {n : ℕ} {s : State δ} {call : Call δ}

theorem Settles.congr (h : Settles d id fetched n s refused) (hiff : refused' ↔ refused) :
    Settles d id fetched n s refused' := by
  rw [propext hiff]
  exact h

theorem Settles.of_advance (hstep : advance d s id fetched = s')
    (h : Settles d id fetched n s' refused) : Settles d id fetched (n + 1) s refused := by
  rw [Settles, runSections, hstep]
  exact h

variable (hcall : s.calls id = some call)
include hcall

theorem advance_rejected (hstage : call.stage = .rejected error) :
    Settles d id fetched n s True := by
  induction n with
  | zero => exact ⟨call, hcall, .inl ⟨trivial, error, hstage⟩⟩
  | succ n ih =>
    apply Settles.of_advance ?_ ih
    simp [advance, hcall, hstage]

theorem advance_accepted (hstage : call.stage = .accepted) : Settles d id fetched n s False := by
  induction n with
  | zero => exact ⟨call, hcall, .inr ⟨not_false, hstage⟩⟩
  | succ n ih =>
    apply Settles.of_advance ?_ ih
    simp [advance, hcall, hstage]

omit hcall in
theorem failOpen_settles {error : RouterError} :
    Settles d id fetched n (failOpen s id call error) True := by
  have hcall : (failOpen s id call error).calls id =
      some { call with stage := .rejected (.router error) } := by
    simp only [failOpen]
    split <;> exact update_self ..
  exact advance_rejected hcall rfl

theorem seeded_settles (hstage : call.stage = .seeded dataflow initial lsn) :
    Settles d id fetched (n + 1) s False := by
  have hstep : advance d s id fetched = insertPlan s id call dataflow initial lsn := by
    simp [advance, hcall, hstage]
  apply Settles.of_advance hstep
  unfold insertPlan
  split <;> exact advance_accepted (update_self ..) rfl

theorem registered_settles (hstage : call.stage = .registered lsn seedUpdates) :
    Settles d id fetched (n + 2) s False := by
  have hstep : advance d s id fetched = seed d s id call lsn seedUpdates := by
    simp [advance, hcall, hstage]
  apply Settles.of_advance hstep
  unfold seed
  split
  · split
    · exact advance_accepted (update_self ..) rfl
    · split
      · exact advance_accepted (update_self ..) rfl
      · exact seeded_settles (update_self ..) rfl
  · exact advance_accepted (update_self ..) rfl

omit hcall

def IdTaken (s : State δ) (request : SubscribeRequest) : Prop :=
  (s.router.registry.byClientId (request.connection, request.clientId)).isSome

theorem opened_settles (hcall : s.calls id = some call) (hstage : call.stage = .opened opened) :
    Settles d id fetched (n + 3) s (IdTaken s call.request) := by
  have hstep : advance d s id fetched = registerCall s id call opened := by
    simp [advance, hcall, hstage]
  apply Settles.of_advance hstep
  simp only [registerCall, IdTaken, RouterInner.register, SubscriptionRegistry.insert]
  cases hcli : s.router.registry.byClientId (call.request.connection, call.request.clientId) with
  | some => exact failOpen_settles.congr (by simp)
  | none => exact (registered_settles (update_self ..) rfl).congr (by simp)

/-- There is no view to serve the first rows from and the provider has none either. -/
def NoRows (prerunInitial : Option (List (Row δ) × Lsn))
    (fetched : Except String (SnapshotBatch δ)) : Prop :=
  prerunInitial = none ∧ ∃ detail, fetched = .error detail

theorem takeSnapshot_cases (engine : Engine δ) (compiledPlan prerunInitial fetched) :
    (NoRows prerunInitial fetched ∧
      ∃ error, takeSnapshot engine compiledPlan prerunInitial fetched = .error error) ∨
    (¬ NoRows prerunInitial fetched ∧
      ∃ snap, takeSnapshot engine compiledPlan prerunInitial fetched = .ok snap) := by
  unfold NoRows takeSnapshot
  cases prerunInitial with
  | some => exact .inr ⟨by simp, _, rfl⟩
  | none =>
    cases fetched with
    | error detail => exact .inl ⟨⟨rfl, detail, rfl⟩, _, rfl⟩
    | ok => exact .inr ⟨by simp, _, rfl⟩

theorem checked_settles (hcall : s.calls id = some call)
    (hstage : call.stage = .checked prerunInitial) :
    Settles d id fetched (n + 4) s (NoRows prerunInitial fetched ∨ IdTaken s call.request) := by
  have hstep : advance d s id fetched = openUp d s id call prerunInitial fetched := by
    simp [advance, hcall, hstage]
  apply Settles.of_advance hstep
  unfold openUp
  rcases takeSnapshot_cases d.engine call.compiledPlan prerunInitial fetched with
    ⟨hnone, error, herr⟩ | ⟨hrows, snap, hsnap⟩
  · rw [herr]
    exact failOpen_settles.congr (by simp [hnone])
  · obtain ⟨chan, hopen, -⟩ := openChannel_ok d.config call.request.resumeLsn snap
    rw [hsnap]
    dsimp only
    rw [hopen]
    refine (opened_settles (update_self ..) rfl).congr ?_
    simp [hrows, IdTaken, State.setCall]

/-- What the check finds wrong with a query under these rules: a table it reads is unbound, or
guarded while the query has no plan. -/
def CheckFails (rules : List CompiledRule) (request : SubscribeRequest)
    (compiledPlan : Option CompiledPlan) : Prop :=
  ∃ table, Reads request.graph table ∧ (Unbound rules request.userCtx table ∨
    Guarded rules table ∧ compiledPlan = none)

theorem checkPermissions_cases (rules request compiledPlan) :
    (CheckFails rules request compiledPlan ∧
      ∃ error, checkPermissions request.graph rules request.userCtx compiledPlan = .error error) ∨
    (¬ CheckFails rules request compiledPlan ∧
      ∃ stats, checkPermissions request.graph rules request.userCtx compiledPlan = .ok stats) := by
  unfold checkPermissions installPermissionFilters
  rcases rewrite_cases rules request.userCtx request.graph with
    ⟨⟨table, hreads, hunbound⟩, e, he⟩ | ⟨hbound, out, hout, hfilts⟩
  · rw [he]
    exact .inl ⟨⟨table, hreads, .inl hunbound⟩, _, rfl⟩
  · rw [hout]
    by_cases hunenforced : 0 < out.stats.filtersInserted ∧ compiledPlan.isNone
    · obtain ⟨table, hreads, hguard⟩ := hfilts.mp hunenforced.1
      refine .inl ⟨⟨table, hreads, .inr ⟨hguard, ?_⟩⟩, _, if_pos hunenforced⟩
      exact Option.isNone_iff_eq_none.mp hunenforced.2
    · refine .inr ⟨?_, _, if_neg hunenforced⟩
      rintro ⟨table, hreads, hunbound | ⟨hguard, hnone⟩⟩
      · exact hbound table hreads hunbound
      · exact hunenforced ⟨hfilts.mpr ⟨table, hreads, hguard⟩, by simp [hnone]⟩

theorem looked_settles (hcall : s.calls id = some call)
    (hstage : call.stage = .looked prerunInitial) :
    Settles d id fetched (n + 5) s (CheckFails s.router.rules call.request call.compiledPlan ∨
      NoRows prerunInitial fetched ∨ IdTaken s call.request) := by
  have hstep : advance d s id fetched = check s id call prerunInitial := by
    simp [advance, hcall, hstage]
  apply Settles.of_advance hstep
  unfold check
  rcases checkPermissions_cases s.router.rules call.request call.compiledPlan with
    ⟨hfails, error, herr⟩ | ⟨hpass, stats, hstats⟩
  · rw [herr]
    exact (advance_rejected (update_self ..) rfl).congr (by simp [hfails])
  · rw [hstats]
    refine (checked_settles (update_self ..) rfl).congr ?_
    simp [hpass, IdTaken, State.setCall]

/-- No plan is registered that the query could join. -/
def NoPlanToJoin (s : State δ) (call : Call δ) : Prop :=
  ∀ key, call.canonicalKey = some key → s.host.plans key = none

theorem compiled_settles (hcall : s.calls id = some call) (hstage : call.stage = .compiled) :
    Settles d id fetched (n + 6) s (CheckFails s.router.rules call.request call.compiledPlan ∨
      (NoPlanToJoin s call ∧ ∃ detail, fetched = .error detail) ∨ IdTaken s call.request) := by
  have hstep : advance d s id fetched = lookUp s id call := by
    simp [advance, hcall, hstage]
  apply Settles.of_advance hstep
  unfold lookUp NoPlanToJoin
  split
  next hkey =>
    refine (looked_settles (update_self ..) rfl).congr ?_
    simp [hkey, NoRows, IdTaken, State.setCall]
  next key hkey =>
    split
    next hplan =>
      refine (looked_settles (update_self ..) rfl).congr ?_
      simp [hkey, hplan, NoRows, IdTaken, State.setCall]
    next state hplan =>
      refine (looked_settles (update_self ..) rfl).congr ?_
      simp [hkey, hplan, NoRows, IdTaken, State.setCall]

end Sections

section

def firstCall (d : Deployment δ) (s : State δ) (request : SubscribeRequest)
    (schema : Except String Unit) : Call δ :=
  let compiledPlan := compileRequest d.engine s.router.rules request
  ⟨request, compiledPlan, firstStage compiledPlan schema, s.generation, none, none, []⟩

/-- Everything a subscribe call is refused for: no plan and no schema, a table it reads is
unbound or cannot be filtered, no rows to start from, or the client's id is taken. -/
def Refuses (d : Deployment δ) (s : State δ) (request : SubscribeRequest)
    (schema : Except String Unit) (fetched : Except String (SnapshotBatch δ)) : Prop :=
  let compiledPlan := compileRequest d.engine s.router.rules request
  (compiledPlan = none ∧ ∃ detail, schema = .error detail) ∨
    CheckFails s.router.rules request compiledPlan ∨
    (NoPlanToJoin s (firstCall d s request schema) ∧ ∃ detail, fetched = .error detail) ∨
    IdTaken s request

variable (d : Deployment δ) (s : State δ) (request : SubscribeRequest)
  (schema : Except String Unit) (fetched : Except String (SnapshotBatch δ))

def Rejected : Prop :=
  ∃ call error, (subscribeCall d s request schema fetched).calls s.nextId = some call ∧
    call.stage = .rejected error

def Accepted : Prop :=
  ∃ call, (subscribeCall d s request schema fetched).calls s.nextId = some call ∧
    call.stage = .accepted

theorem subscribeCall_settles : Settles d s.nextId fetched 6 (begin d s request schema)
      (Refuses d s request schema fetched) := by
  have hcall : (begin d s request schema).calls s.nextId = some (firstCall d s request schema) :=
    update_self ..
  unfold Refuses
  by_cases hschema : compileRequest d.engine s.router.rules request = none ∧
      ∃ detail, schema = .error detail
  · obtain ⟨hnone, detail, rfl⟩ := hschema
    have hstage : (firstCall d s request (.error detail)).stage =
        .rejected (.schemaLookup detail) := by
      simp [firstCall, firstStage, hnone]
    exact (advance_rejected hcall hstage).congr (by simp [hnone])
  · have hstage : (firstCall d s request schema).stage = .compiled := by
      simp only [firstCall, firstStage]
      split
      next hnone => exact absurd ⟨hnone, _, rfl⟩ hschema
      · rfl
    refine (compiled_settles hcall hstage).congr ?_
    simp only [hschema, false_or]
    rfl

theorem rejected_iff_refuses :
    Rejected d s request schema fetched ↔ Refuses d s request schema fetched := by
  obtain ⟨call, hcall, ⟨href, error, herr⟩ | ⟨hacc, hstage⟩⟩ :=
    subscribeCall_settles d s request schema fetched
  · exact ⟨fun _ => href, fun _ => ⟨call, error, hcall, herr⟩⟩
  · refine ⟨?_, fun h => absurd h hacc⟩
    rintro ⟨call', error, hcall', herr⟩
    cases Option.mem_unique hcall hcall'
    simp [hstage] at herr

theorem accepted_iff_not_refuses :
    Accepted d s request schema fetched ↔ ¬ Refuses d s request schema fetched := by
  obtain ⟨call, hcall, ⟨href, error, herr⟩ | ⟨hacc, hstage⟩⟩ :=
    subscribeCall_settles d s request schema fetched
  · refine ⟨?_, fun h => absurd href h⟩
    rintro ⟨call', hcall', hstage⟩
    cases Option.mem_unique hcall hcall'
    simp [herr] at hstage
  · exact ⟨fun _ => hacc, fun _ => ⟨call, hcall, hstage⟩⟩

end

section

/-- The rules a subscribe to this table should be measured by. -/
def gateRules (rules : List CompiledRule) (table : String) : List CompiledRule :=
  rules.filter fun rule => rule.mode.affectsSubscribe && rule.table == table

/-- Every subscribe-mode rule of the table, bound to the context, holds of no row. -/
def GateClosed (holds : String → Row δ → Prop) (rules : List CompiledRule)
    (context : UserContext) (table : String) : Prop :=
  gateRules rules table ≠ [] ∧ ∀ rule ∈ gateRules rules table,
    ∃ text, rule.predicate.materialize context = .ok text ∧ ∀ row, ¬ holds text row

def Barred (holds : String → Row δ → Prop) (rules : List CompiledRule)
    (request : SubscribeRequest) : Prop :=
  ∃ table, Reads request.graph table ∧ GateClosed holds rules request.userCtx table

/-- A subscribe that reads a table closed to its user is rejected exactly when it is refused for
a reason that has nothing to do with the gate. -/
theorem barred_rejected_iff (holds : String → Row δ → Prop) (d : Deployment δ) (s : State δ)
    (request : SubscribeRequest) (schema : Except String Unit)
    (fetched : Except String (SnapshotBatch δ)) :
    (Barred holds s.router.rules request → Rejected d s request schema fetched) ↔
      (¬ Barred holds s.router.rules request ∨ Refuses d s request schema fetched) := by
  rw [rejected_iff_refuses]
  exact imp_iff_not_or

def closedPosts : List CompiledRule :=
  [⟨"closed", "posts", .subscribe, ⟨"false", []⟩, none⟩]

def constantHolds (text : String) (_ : Row ℕ) : Prop := text ≠ "false"

theorem barred_subscribe_accepted :
    ¬ (Barred constantHolds (postsRun [.setRules closedPosts]).router.rules (readPosts "a") →
      Rejected postsDeployment (postsRun [.setRules closedPosts]) (readPosts "a") (.ok ())
        (.ok twoPosts)) ∧
    ((subscribeCall postsDeployment (postsRun [.setRules closedPosts]) (readPosts "a") (.ok ())
        (.ok twoPosts)).router.channels 1).map (fun channel => channel.sender.queue) =
      some [.initial 5 [[1, 8], [2, 7]]] := by
  refine ⟨?_, rfl⟩
  intro h
  obtain ⟨call, error, hcall, hstage⟩ := h ⟨"posts", ⟨0, [], rfl⟩, by decide, by
    intro rule hrule
    obtain rfl : rule = ⟨"closed", "posts", .subscribe, ⟨"false", []⟩, none⟩ :=
      List.mem_singleton.mp hrule
    exact ⟨"false", by decide, fun _ h => h rfl⟩⟩
  cases hcall
  cases hstage

end

end Palimpsest.Server
