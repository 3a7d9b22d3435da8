import Palimpsest.Client.Cache
import Palimpsest.Dataflow.Host
import Palimpsest.Foundation.Runs

/-! The connection manager of the client: what it keeps for each subscription over reconnects, and
what each message of the server does to it. -/
namespace Palimpsest.Client
open Function Fallible
open Dataflow (Lsn)

inductive CodecError where
  | unknownSchema (schemaId : ℕ)
  | arity (expected actual : ℕ)
  | schemaMismatch (column : ℕ)
  | decode (message : String)
  | rowCount (expected actual : ℕ)
deriving Repr, DecidableEq

inductive ClientEvent (δ : Type) where
  | accepted (schemaId : ℕ) (snapshotLsn : Lsn) (schema : Schema)
  | diff (lsn : Lsn) (op : DiffOp) (rows : List (WireRow δ))
  | transaction (commitLsn : Lsn) (changes : List (WireRowChange δ))
  | resync
  | codec (error : CodecError)
  | emptyServerMessage
deriving Repr, DecidableEq

/-- What the manager keeps for a subscription. The events are those sent to its user. -/
structure SubState (δ : Type) where
  cache : Option (LocalCache δ)
  schemaId : Option ℕ
  lastSeenLsn : Lsn
  lastAckedLsn : Option Lsn
  events : List (ClientEvent δ)

structure ConnectionTask (δ : Type) where
  state : String → Option (SubState δ)
  registry : ℕ → Option Schema

inductive Command where
  | subscribe (subscriptionId : String) (cached : Bool)
  | unsubscribe (subscriptionId : String)
  | ack (subscriptionId : String) (lsn : Lsn)
deriving Repr, DecidableEq

inductive ServerMessage (δ : Type) where
  | accepted (subscriptionId : String) (schemaId : ℕ) (snapshotLsn : Lsn) (schema : Option Schema)
  | diff (subscriptionId : String) (lsn : Lsn) (op : DiffOp) (schemaId : ℕ)
      (rows : List (WireRow δ))
  | transactionUpdate (subscriptionId : String) (commitLsn : Lsn) (schemaId : ℕ)
      (changes : List (WireRowChange δ))
  | resync (subscriptionId : String)
deriving Repr, DecidableEq

variable {δ : Type}

def ServerMessage.subscriptionId : ServerMessage δ → String
  | .accepted id _ _ _ => id
  | .diff id _ _ _ _ => id
  | .transactionUpdate id _ _ _ => id
  | .resync id => id

def ServerMessage.isData : ServerMessage δ → Bool
  | .diff .. => true
  | .transactionUpdate .. => true
  | _ => false

section
variable (isCompatible : Schema → ℕ → δ → Bool)

def validateRow (schema : Schema) (row : WireRow δ) : Except CodecError Unit :=
  if row.length ≠ schema.columns.length then .error (.arity schema.columns.length row.length)
  else
    match row.zipIdx.find? fun entry => !isCompatible schema entry.2 entry.1 with
    | some (_, column) => .error (.schemaMismatch column)
    | none => .ok ()

def WireRowChange.images (change : WireRowChange δ) : List (WireRow δ) :=
  change.old.toList ++ change.new.toList

/-- Rows are checked against the schema registered under the id that comes with them. -/
def decode (registry : ℕ → Option Schema) (schemaId : ℕ) (rows : List (WireRow δ)) :
    Except CodecError Unit :=
  match registry schemaId with
  | none => .error (.unknownSchema schemaId)
  | some schema => rows.forM (validateRow isCompatible schema)

theorem decode_ok (hreg : registry schemaId = some schema)
    (h : ∀ row ∈ rows, validateRow isCompatible schema row = .ok ()) :
    decode isCompatible registry schemaId rows = .ok () := by
  rw [decode, hreg]
  exact forM_ok_iff.mpr h

end

namespace SubState
variable (sub : SubState δ)

def new (cached : Bool) : SubState δ :=
  ⟨if cached then some .default else none, none, 0, none, []⟩

def emit (event : ClientEvent δ) : SubState δ := { sub with events := sub.events ++ [event] }

/-- The highest acknowledged LSN is where the subscription resumes. -/
def ack (lsn : Lsn) : SubState δ :=
  { sub with lastAckedLsn := some ((sub.lastAckedLsn.map (max · lsn)).getD lsn) }

/-- A new schema starts with an empty cache; the last seen LSN stays. -/
def accept (schemaId : ℕ) (snapshotLsn : Lsn) (schema : Schema) : SubState δ :=
  emit { sub with
    schemaId := some schemaId
    cache := sub.cache.map fun _ => .forSchema schema } (.accepted schemaId snapshotLsn schema)

/-- Messages at or below the last seen LSN have been applied before. -/
def isReplayed (lsn : Lsn) : Bool := lsn ≤ sub.lastSeenLsn && 0 < sub.lastSeenLsn

section
variable [DecidableEq δ] (isCompatible : Schema → ℕ → δ → Bool) (registry : ℕ → Option Schema)

def diff (lsn : Lsn) (op : DiffOp) (schemaId : ℕ) (rows : List (WireRow δ)) : SubState δ :=
  if sub.isReplayed lsn then sub
  else
    match decode isCompatible registry schemaId rows with
    | .error err => sub.emit (.codec err)
    | .ok () =>
      emit { sub with
        cache := sub.cache.map fun cache => cache.apply op rows
        lastSeenLsn := lsn } (.diff lsn op rows)

def transactionUpdate (commitLsn : Lsn) (schemaId : ℕ) (changes : List (WireRowChange δ)) :
    SubState δ :=
  if sub.isReplayed commitLsn then sub
  else
    match decode isCompatible registry schemaId (changes.flatMap WireRowChange.images) with
    | .error err => sub.emit (.codec err)
    | .ok () =>
      emit { sub with
        cache := sub.cache.map fun cache => cache.applyTransaction changes
        lastSeenLsn := commitLsn } (.transaction commitLsn changes)

end

/-- Everything is forgotten, the key columns too. -/
def resync : SubState δ :=
  emit { sub with
    lastSeenLsn := 0
    cache := sub.cache.map fun _ => .default } .resync

end SubState

namespace ConnectionTask

def empty : ConnectionTask δ := ⟨fun _ => none, fun _ => none⟩

/-- Messages for subscriptions the manager does not know are ignored. -/
def modify (task : ConnectionTask δ) (subscriptionId : String) (f : SubState δ → SubState δ) :
    ConnectionTask δ :=
  { task with state := update task.state subscriptionId ((task.state subscriptionId).map f) }

def handleCommand (task : ConnectionTask δ) : Command → ConnectionTask δ
  | .subscribe id cached => { task with state := update task.state id (some (.new cached)) }
  | .unsubscribe id =>
    { task with
      state := update task.state id none
      registry :=
        match (task.state id).bind SubState.schemaId with
        | some schemaId => update task.registry schemaId none
        | none => task.registry }
  | .ack id lsn => task.modify id fun sub => sub.ack lsn

section
variable [DecidableEq δ] (isCompatible : Schema → ℕ → δ → Bool)

def dispatchServer (task : ConnectionTask δ) : ServerMessage δ → ConnectionTask δ
  | .accepted id _ _ none => task.modify id fun sub => sub.emit .emptyServerMessage
  | .accepted id schemaId snapshotLsn (some schema) =>
    { task.modify id fun sub => sub.accept schemaId snapshotLsn schema with
      registry := update task.registry schemaId (some schema) }
  | .diff id lsn op schemaId rows =>
    task.modify id fun sub => sub.diff isCompatible task.registry lsn op schemaId rows
  | .transactionUpdate id commitLsn schemaId changes =>
    task.modify id fun sub =>
      sub.transactionUpdate isCompatible task.registry commitLsn schemaId changes
  | .resync id => task.modify id SubState.resync

end

end ConnectionTask

/-- Where the server is with a subscription on the current connection: nothing sent, accepted with
the rows still to come, everything sent up to a position, or reset. -/
inductive Phase where
  | silent
  | accepted
  | streaming (position : Lsn)
  | resynced
deriving Repr, DecidableEq

/-- The client together with what the server has told each subscription: the phase, the schema it
was accepted with, and the LSN it was resumed from. -/
structure Session (δ : Type) where
  task : ConnectionTask δ
  phase : String → Phase
  granted : String → Option (ℕ × Schema)
  resume : String → Option Lsn

inductive SessionAction (δ : Type) where
  | command (command : Command)
  | reconnect
  | replay (subscriptionId : String)
  | receive (message : ServerMessage δ)
deriving Repr, DecidableEq

namespace Session
variable [DecidableEq δ] (isCompatible : Schema → ℕ → δ → Bool)

def start : Session δ := ⟨.empty, fun _ => .silent, fun _ => none, fun _ => none⟩

def setPhase (s : Session δ) (subscriptionId : String) (phase : Phase) : Session δ :=
  { s with phase := update s.phase subscriptionId phase }

def step (s : Session δ) : SessionAction δ → Session δ
  | .command command =>
    let s := { s with task := s.task.handleCommand command }
    match command with
    | .subscribe id _ => { s.setPhase id .silent with resume := update s.resume id none }
    | .unsubscribe id => s.setPhase id .silent
    | .ack _ _ => s
  | .reconnect =>
    { s with
      phase := fun _ => .silent
      resume := fun id => (s.task.state id).bind SubState.lastAckedLsn }
  | .replay id =>
    match s.resume id with
    | some lsn => s.setPhase id (.streaming lsn)
    | none => s
  | .receive message =>
    let s := { s with task := s.task.dispatchServer isCompatible message }
    match message with
    | .accepted _ _ _ none => s
    | .accepted id schemaId _ (some schema) =>
      { s.setPhase id .accepted with granted := update s.granted id (some (schemaId, schema)) }
    | .diff id lsn _ _ _ => s.setPhase id (.streaming lsn)
    | .transactionUpdate id commitLsn _ _ => s.setPhase id (.streaming commitLsn)
    | .resync id => s.setPhase id .resynced

section
variable (view : String → Lsn → List (WireRow δ))

def Carries (pkColumns : List ℕ) (before after : List (WireRow δ))
    (changes : List (WireRowChange δ)) : Prop :=
  ∀ cache : LocalCache δ, cache.pkColumns = pkColumns → cache.Holds before →
    (cache.applyTransaction changes).Holds after

/-- What a correct server may send. The key of an accepted schema tells the rows of the view apart.
The initial rows are the view at their LSN. Updates follow the position of the stream, and nothing
happens in between. A replay continues from the LSN the client asked for. -/
def Correct (s : Session δ) : SessionAction δ → Prop
  | .receive (.accepted id _ _ schema) =>
    ∃ granted, schema = some granted ∧
      ∀ lsn, LocalCache.KeysApart granted.primaryKeyColumns (view id lsn)
  | .receive (.diff id lsn op schemaId rows) =>
    op = .initial ∧ (s.phase id = .accepted ∨ s.phase id = .resynced) ∧
      (∀ row, row ∈ rows ↔ row ∈ view id lsn) ∧
      ∃ schema, s.granted id = some (schemaId, schema) ∧
        ∀ row ∈ rows, validateRow isCompatible schema row = .ok ()
  | .receive (.transactionUpdate id commitLsn schemaId changes) =>
    ∃ position schema, s.phase id = .streaming position ∧ position < commitLsn ∧
      (∀ lsn, position ≤ lsn → lsn < commitLsn → view id lsn = view id position) ∧
      s.granted id = some (schemaId, schema) ∧
      Carries schema.primaryKeyColumns (view id position) (view id commitLsn) changes ∧
      ∀ row ∈ changes.flatMap WireRowChange.images, validateRow isCompatible schema row = .ok ()
  | .replay id => s.phase id = .accepted ∧ (s.resume id).isSome
  | _ => True

/-- The conditions under which the state reset by an acceptance is built up again: initial rows come
after an acceptance and are not taken for a replay; a replay starts from an empty view; and the
registry still has the schema that the subscription was accepted with. -/
def Rebuilds (s : Session δ) : SessionAction δ → Prop
  | .receive (.diff id lsn _ schemaId _) =>
    s.phase id = .accepted ∧ s.task.registry schemaId = (s.granted id).map Prod.snd ∧
      ∀ sub, s.task.state id = some sub → sub.lastSeenLsn = 0 ∨ sub.lastSeenLsn < lsn
  | .receive (.transactionUpdate id _ schemaId _) =>
    s.task.registry schemaId = (s.granted id).map Prod.snd
  | .replay id => ∀ sub lsn, s.task.state id = some sub → s.resume id = some lsn →
    view id (max lsn sub.lastSeenLsn) = []
  | _ => True

/-- The cache of a subscription shows the view at the last LSN seen, by the key of its schema. -/
def Current (s : Session δ) (id : String) : Prop :=
  ∀ sub, s.task.state id = some sub → ∀ cache ∈ sub.cache, ∃ schemaId schema,
    s.granted id = some (schemaId, schema) ∧ cache.pkColumns = schema.primaryKeyColumns ∧
      cache.Holds (view id sub.lastSeenLsn)

/-- What is known of a cache in each phase. While a replay repeats what has been seen, the cache is
ahead of the position of the stream. -/
def CacheAt (bags : Lsn → List (WireRow δ)) (granted : Option (ℕ × Schema)) (lastSeenLsn : Lsn)
    (cache : LocalCache δ) : Phase → Prop
  | .accepted => ∃ schemaId schema, granted = some (schemaId, schema) ∧ cache = .forSchema schema ∧
    ∀ lsn, LocalCache.KeysApart schema.primaryKeyColumns (bags lsn)
  | .streaming position => ∃ schemaId schema, granted = some (schemaId, schema) ∧
    cache.pkColumns = schema.primaryKeyColumns ∧ cache.Holds (bags (max position lastSeenLsn))
  | _ => True

def Follows (s : Session δ) (id : String) : Prop :=
  ∀ sub, s.task.state id = some sub → ∀ cache ∈ sub.cache,
    CacheAt (view id) (s.granted id) sub.lastSeenLsn cache (s.phase id)

end

section Steps
variable {isCompatible : Schema → ℕ → δ → Bool} {view : String → Lsn → List (WireRow δ)}
variable {schemaId : ℕ} {other : String}
  {s : Session δ} {id : String}

section
omit [DecidableEq δ]

theorem follows_start : (start : Session δ).Follows view id := nofun

theorem Follows.congr {s' : Session δ} (h : s.Follows view id)
    (hst : s'.task.state id = s.task.state id) (hphase : s'.phase id = s.phase id)
    (hgrant : s'.granted id = s.granted id) : s'.Follows view id := by
  rw [Follows, hst, hphase, hgrant]
  exact h

theorem Current.follows {pos : Lsn} (h : s.Current view id) (hphase : s.phase id = .streaming pos)
    (hseen : ∀ sub, s.task.state id = some sub → pos ≤ sub.lastSeenLsn) : s.Follows view id := by
  intro sub hsub cache hcache
  obtain ⟨schemaId, schema, hgrant, hpk, hholds⟩ := h sub hsub cache hcache
  rw [hphase]
  refine ⟨schemaId, schema, hgrant, hpk, ?_⟩
  rw [max_eq_right (hseen sub hsub)]
  exact hholds

theorem state_modify_self {task : ConnectionTask δ} {id : String} {f : SubState δ → SubState δ}
    {sub : SubState δ} (h : (task.modify id f).state id = some sub) :
    ∃ prev, task.state id = some prev ∧ f prev = sub := by
  exact Option.map_eq_some_iff.mp ((update_self id _ task.state).symm.trans h)

theorem state_modify_of_ne (task : ConnectionTask δ) {id other : String} (h : other ≠ id)
    (f : SubState δ → SubState δ) : (task.modify id f).state other = task.state other :=
  update_of_ne h ..

end

variable (h : s.Follows view id)
include h

theorem Follows.command (command) : (s.step isCompatible (.command command)).Follows view id := by
  cases command with
  | subscribe other =>
    rcases eq_or_ne id other with rfl | hid
    · intro sub _ cache _
      simp only [step, setPhase, update_self]
      trivial
    · exact h.congr (update_of_ne hid ..) (update_of_ne hid ..) rfl
  | unsubscribe other =>
    rcases eq_or_ne id other with rfl | hid
    · intro sub hsub
      simp [step, setPhase, ConnectionTask.handleCommand, update_self] at hsub
    · exact h.congr (update_of_ne hid ..) (update_of_ne hid ..) rfl
  | ack other =>
    rcases eq_or_ne id other with rfl | hid
    · intro sub hsub cache hcache
      obtain ⟨prev, hwas, rfl⟩ := state_modify_self hsub
      exact h prev hwas cache hcache
    · exact h.congr (state_modify_of_ne _ hid _) rfl rfl

theorem Follows.replay (hcorrect : s.Correct isCompatible view (.replay other))
    (hrebuild : s.Rebuilds view (.replay other)) :
    (s.step isCompatible (.replay other)).Follows view id := by
  obtain ⟨hacc, hresume⟩ := hcorrect
  obtain ⟨lsn, hlsn⟩ := Option.isSome_iff_exists.mp hresume
  simp only [step, hlsn]
  by_cases hid : id = other
  · subst hid
    intro sub hsub cache hcache
    have hat := h sub hsub cache hcache
    rw [hacc] at hat
    obtain ⟨schemaId, schema, hgrant, rfl, -⟩ := hat
    simp only [setPhase, update_self]
    refine ⟨schemaId, schema, hgrant, rfl, ?_⟩
    rw [hrebuild sub lsn hsub hlsn]
    intro row
    simp [LocalCache.forSchema, LocalCache.empty]
  · exact h.congr rfl (update_of_ne hid ..) rfl

theorem Follows.accepted (hcorrect : s.Correct isCompatible view
      (.receive (.accepted other schemaId snapshotLsn schema))) :
    (s.step isCompatible (.receive (.accepted other schemaId snapshotLsn schema))).Follows
      view id := by
  obtain ⟨granted, rfl, hapart⟩ := hcorrect
  by_cases hid : id = other
  · subst hid
    intro sub hsub cache hcache
    obtain ⟨prev, hwas, rfl⟩ := state_modify_self hsub
    simp only [step, setPhase, update_self]
    obtain ⟨old, -, rfl⟩ := Option.map_eq_some_iff.mp hcache
    exact ⟨schemaId, granted, rfl, rfl, hapart⟩
  · exact h.congr (state_modify_of_ne _ hid _) (update_of_ne hid ..)
      (update_of_ne hid ..)

theorem Follows.resync (other) :
    (s.step isCompatible (.receive (.resync other))).Follows view id := by
  by_cases hid : id = other
  · subst hid
    intro sub _ cache _
    simp only [step, setPhase, update_self]
    trivial
  · exact h.congr (state_modify_of_ne _ hid _) (update_of_ne hid ..) rfl

theorem Follows.diff_current
    (hcorrect : s.Correct isCompatible view (.receive (.diff id lsn op schemaId rows)))
    (hrebuild : s.Rebuilds view (.receive (.diff id lsn op schemaId rows))) :
    (s.step isCompatible (.receive (.diff id lsn op schemaId rows))).Current view id ∧
      ∀ sub, (s.step isCompatible (.receive (.diff id lsn op schemaId rows))).task.state id =
        some sub →
        sub.lastSeenLsn = lsn := by
  obtain ⟨rfl, -, hrows, schema, hgrant, hvalid⟩ := hcorrect
  obtain ⟨hacc, hreg, hnew⟩ := hrebuild
  rw [hgrant] at hreg
  have hdecode := decode_ok isCompatible hreg hvalid
  refine forall₂_and.mp fun sub hsub => ?_
  obtain ⟨prev, hwas, rfl⟩ := state_modify_self hsub
  have happlied : prev.isReplayed lsn = false := by
    rcases hnew prev hwas with hlsn | hlsn <;> simp [SubState.isReplayed, hlsn]
  rw [SubState.diff, happlied, hdecode]
  refine ⟨fun cache hcache => ?_, rfl⟩
  obtain ⟨old, hold, rfl⟩ := Option.map_eq_some_iff.mp hcache
  have hat := h prev hwas old hold
  rw [hacc, hgrant] at hat
  obtain ⟨_, _, ⟨⟩, rfl, hapart⟩ := hat
  have hapart : LocalCache.KeysApart schema.primaryKeyColumns rows := fun row hrow row' hrow' =>
    hapart lsn row ((hrows row).mp hrow) row' ((hrows row').mp hrow')
  exact ⟨schemaId, schema, hgrant, LocalCache.pkColumns_initial _ _,
    fun row => ((LocalCache.holds_initial_iff schema rows).mpr hapart row).trans (hrows row)⟩

/-- An update is applied to the view it starts from, or it repeats what has been seen. -/
theorem Follows.transactionUpdate_current (hcorrect : s.Correct isCompatible view (.receive
      (.transactionUpdate id commitLsn schemaId changes)))
    (hrebuild : s.Rebuilds view (.receive (.transactionUpdate id commitLsn schemaId changes))) :
    (s.step isCompatible (.receive (.transactionUpdate id commitLsn schemaId changes))).Current
      view id ∧
      ∀ sub, (s.step isCompatible (.receive (.transactionUpdate id commitLsn schemaId
        changes))).task.state id = some sub → commitLsn ≤ sub.lastSeenLsn := by
  obtain ⟨position, schema, hphase, hlater, hquiet, hgrant, hcarry, hvalid⟩ := hcorrect
  have hreg : s.task.registry schemaId = some schema := by
    have hreg : s.task.registry schemaId = (s.granted id).map Prod.snd := hrebuild
    simp [hreg, hgrant]
  have hdecode := decode_ok isCompatible hreg hvalid
  refine forall₂_and.mp fun sub hsub => ?_
  obtain ⟨prev, hwas, rfl⟩ := state_modify_self hsub
  by_cases hrep : prev.isReplayed commitLsn = true
  · rw [SubState.transactionUpdate, if_pos hrep]
    simp only [SubState.isReplayed, Bool.and_eq_true, decide_eq_true_eq] at hrep
    refine ⟨fun cache hcache => ?_, hrep.1⟩
    have hat := h prev hwas cache hcache
    rw [hphase] at hat
    obtain ⟨schemaId', schema', hgrant', hpk, hholds⟩ := hat
    rw [max_eq_right (by lia)] at hholds
    exact ⟨schemaId', schema', hgrant', hpk, hholds⟩
  · rw [SubState.transactionUpdate, if_neg hrep, hdecode]
    simp only [SubState.isReplayed] at hrep
    refine ⟨fun cache hcache => ?_, le_rfl⟩
    obtain ⟨old, hold, rfl⟩ := Option.map_eq_some_iff.mp hcache
    have hat := h prev hwas old hold
    rw [hphase, hgrant] at hat
    obtain ⟨_, _, ⟨⟩, hpk, hholds⟩ := hat
    have hpos : view id (max position prev.lastSeenLsn) = view id position :=
      hquiet _ (le_max_left _ _) (by lia)
    rw [hpos] at hholds
    exact ⟨schemaId, schema, hgrant,
      (LocalCache.pkColumns_applyTransaction old changes).trans hpk, hcarry old hpk hholds⟩

theorem Follows.diff
    (hcorrect : s.Correct isCompatible view (.receive (.diff other lsn op schemaId rows)))
    (hrebuild : s.Rebuilds view (.receive (.diff other lsn op schemaId rows))) :
    (s.step isCompatible (.receive (.diff other lsn op schemaId rows))).Follows view id := by
  by_cases hid : id = other
  · subst hid
    obtain ⟨hcursor, hseen⟩ := h.diff_current hcorrect hrebuild
    exact hcursor.follows (update_self ..) fun sub hsub => (hseen sub hsub).ge
  · exact h.congr (state_modify_of_ne _ hid _) (update_of_ne hid ..) rfl

theorem Follows.transactionUpdate (hcorrect : s.Correct isCompatible view (.receive
      (.transactionUpdate other commitLsn schemaId changes)))
    (hrebuild : s.Rebuilds view (.receive (.transactionUpdate other commitLsn schemaId changes))) :
    (s.step isCompatible (.receive (.transactionUpdate other commitLsn schemaId changes))).Follows
      view id := by
  by_cases hid : id = other
  · subst hid
    obtain ⟨hcursor, hseen⟩ := h.transactionUpdate_current hcorrect hrebuild
    exact hcursor.follows (update_self ..) hseen
  · exact h.congr (state_modify_of_ne _ hid _) (update_of_ne hid ..) rfl

theorem Follows.step (hcorrect : s.Correct isCompatible view action)
    (hrebuild : s.Rebuilds view action) : (s.step isCompatible action).Follows view id := by
  cases action with
  | command command => exact h.command command
  | reconnect => exact fun sub _ cache _ => trivial
  | replay => exact h.replay hcorrect hrebuild
  | receive msg =>
    cases msg with
    | accepted => exact h.accepted hcorrect
    | diff => exact h.diff hcorrect hrebuild
    | transactionUpdate =>
      exact h.transactionUpdate hcorrect hrebuild
    | resync other => exact h.resync other

omit h

/-- After each data message the cache of its subscription shows the server's view at the last LSN
seen, under the right key. -/
theorem cache_current (h : Runs.Reached (step isCompatible)
      (fun s action => Correct isCompatible view s action ∧ Rebuilds view s action) start s)
    {message : ServerMessage δ} (hdata : message.isData = true)
    (hcorrect : s.Correct isCompatible view (.receive message))
    (hrebuilds : s.Rebuilds view (.receive message)) :
    (s.step isCompatible (.receive message)).Current view message.subscriptionId := by
  have hfollows : s.Follows view message.subscriptionId :=
    h.invariant (P := fun s => s.Follows view message.subscriptionId) follows_start
      fun _ _ hs hmeets => hs.step hmeets.1 hmeets.2
  cases message with
  | accepted => cases hdata
  | diff => exact (hfollows.diff_current hcorrect hrebuilds).1
  | transactionUpdate => exact (hfollows.transactionUpdate_current hcorrect hrebuilds).1
  | resync => cases hdata

end Steps

section

/-- One counter that is raised at LSN 6. -/
def counter (_ : String) (lsn : Lsn) : List (WireRow ℕ) := if lsn < 6 then [[1, 10]] else [[1, 11]]

def counterSchema : Schema := ⟨["id", "n"], [0]⟩

def acceptCounter : SessionAction ℕ := .receive (.accepted "counter" 0 5 (some counterSchema))

def counterRows (lsn : Lsn) : ServerMessage ℕ :=
  .diff "counter" lsn .initial 0 (counter "counter" lsn)

/-- Subscribed, accepted and filled at LSN 5; then accepted again on a new connection. -/
def reconnected : List (SessionAction ℕ) :=
  [.command (.subscribe "counter" true), acceptCounter, .receive (counterRows 5), .reconnect,
    acceptCounter]

theorem keysApart_counter (lsn : Lsn) : LocalCache.KeysApart [0] (counter "counter" lsn) := by
  unfold counter
  split <;> simp [LocalCache.KeysApart]

theorem correct_acceptCounter (s : Session ℕ) :
    s.Correct (fun _ _ _ => true) counter acceptCounter :=
  ⟨counterSchema, rfl, keysApart_counter⟩

theorem correct_counterRows {s : Session ℕ} (hphase : s.phase "counter" = .accepted)
    (hgrant : s.granted "counter" = some (0, counterSchema)) :
    s.Correct (fun _ _ _ => true) counter (.receive (counterRows lsn)) := by
  refine ⟨rfl, .inl hphase, fun row => .rfl, counterSchema, hgrant, ?_⟩
  unfold counter
  split <;> decide

theorem advanced_reconnect_current :
    ((reconnected.foldl (step fun _ _ _ => true) start).step (fun _ _ _ => true)
      (.receive (counterRows 6))).Current counter "counter" := by
  have hrun : Runs.Schedule (step fun _ _ _ => true) (fun s action =>
      Correct (fun _ _ _ => true) counter s action ∧ Rebuilds counter s action) start
        reconnected := by
    refine .cons ⟨trivial, trivial⟩ (.cons ⟨correct_acceptCounter _, trivial⟩
      (.cons ⟨correct_counterRows rfl rfl, rfl, rfl, ?_⟩ (.cons ⟨trivial, trivial⟩
        (.cons ⟨correct_acceptCounter _, trivial⟩ (.nil _)))))
    rintro sub ⟨⟩
    exact .inl rfl
  refine cache_current (hrun.reached .start) rfl (correct_counterRows rfl rfl) ⟨rfl, rfl, ?_⟩
  rintro sub ⟨⟩
  exact .inr (by decide)

/-- The rows at the LSN already seen are dropped, and the cache that the acceptance emptied stays
empty. -/
theorem unadvanced_reconnect_empties :
    Runs.Schedule (step fun _ _ _ => true) (Correct (fun _ _ _ => true) counter) start
      (reconnected ++ [SessionAction.receive (counterRows 5)]) ∧
    ¬ ((reconnected ++ [SessionAction.receive (counterRows 5)]).foldl (step fun _ _ _ => true)
      start).Current counter "counter" := by
  refine ⟨.cons trivial (.cons (correct_acceptCounter _) (.cons (correct_counterRows rfl rfl)
    (.cons trivial (.cons (correct_acceptCounter _) (.cons (correct_counterRows rfl rfl)
      (.nil _)))))), fun h => ?_⟩
  have hempty : ∃ sub, ((reconnected ++ [SessionAction.receive (counterRows 5)]).foldl
      (step fun _ _ _ => true) start).task.state "counter" = some sub ∧ sub.lastSeenLsn = 5 ∧
        ∃ cache, sub.cache = some cache ∧ ∀ key, cache.rows key = none :=
    ⟨_, rfl, rfl, _, rfl, fun _ => rfl⟩
  obtain ⟨sub, hsub, hseen, cache, hcache, hnone⟩ := hempty
  obtain ⟨_, _, -, -, hholds⟩ := h sub hsub cache hcache
  rw [hseen] at hholds
  obtain ⟨key, hkey⟩ := (hholds [1, 10]).mpr (by decide)
  simp [hnone] at hkey

end

end Session

end Palimpsest.Client
