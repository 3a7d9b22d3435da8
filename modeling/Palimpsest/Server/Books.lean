import Palimpsest.Server.Connections

/-! What the connections know of their subscriptions in every run. Whatever a connection has on
record is a call of its own that was accepted, and a call that is not over is one of its tasks. -/
namespace Palimpsest.Server
open Sql Dataflow Permissions Function List Option

variable {δ : Type}

def Stage.settled : Stage δ → Bool
  | .accepted | .rejected _ => true
  | _ => false

section
variable [DecidableEq δ] {d : Deployment δ} {id : SubscriptionId}

theorem step_keeps_call (hprov : Provenance d.engine s) (hcall : s.calls id = some call) (b) :
    ∃ call', (step d s b).calls id = some call' ∧ Keeps call call' ∧
      (call.stage.settled = true → call'.stage = call.stage) := by
  obtain ⟨call', hcall', hmove, hkind⟩ := step_moved hprov hcall b
  refine ⟨call', hcall', hmove.keeps, fun hsettled => ?_⟩
  rcases hkind with ⟨fetched, rfl⟩ | hrests
  · have hsame : step d s (.advance id fetched) = s := by
      show advance d s id fetched = s
      rw [advance, hcall]
      dsimp only
      split <;> first | rfl | (rename_i hstage; rw [hstage] at hsettled; cases hsettled)
    rw [hsame, hcall] at hcall'
    rw [some.inj hcall']
  · exact hrests.stage

theorem step_unsettled (hprov : Provenance d.engine s) (hcall' : (step d s b).calls id = some call')
    (hstage : call'.stage.settled = false) :
    (∃ call, s.calls id = some call ∧ Keeps call call' ∧ call.stage.settled = false) ∨
      ∃ request schema, b = .begin request schema ∧ id = s.nextId ∧ call'.request = request := by
  rcases step_call hcall' with ⟨call, hcall, -, -⟩ | ⟨request, schema, rfl, rfl, rfl⟩
  · obtain ⟨after, hnow, hkeep, hsettled⟩ := step_keeps_call hprov hcall b
    cases mem_unique hcall' hnow
    refine .inl ⟨call, hcall, hkeep, ?_⟩
    by_contra hover
    have hover : call.stage.settled = true := by simpa using hover
    simp [hsettled hover, hover] at hstage
  · exact .inr ⟨request, schema, rfl, rfl, rfl⟩

theorem step_absent (hcall : s.calls id = some call) (hsettled : call.stage.settled = true)
    (habs : s.router.registry.byId id = none) (b) :
    (step d s b).router.registry.byId id = none := by
  cases step_tables d s b with
  | same hsame =>
    have hmap := hsame.byId id
    rw [habs] at hmap
    exact map_eq_none_iff.mp hmap
  | @enter id' fetched prev after opened hwas hopen hcalls hkeep hpast hreg =>
    obtain ⟨sub, -, hbyId, -⟩ := RouterInner.register_tables hreg
    have hne : id ≠ id' := by
      rintro rfl
      cases mem_unique hwas hcall
      rw [hopen] at hsettled
      cases hsettled
    rw [hbyId, update_of_ne hne, habs]
  | @leave id' hrouter =>
    rw [hrouter, RouterInner.unsubscribe_byId]
    by_cases hid : id = id'
    · rw [hid, update_self]
    · rw [update_of_ne hid, habs]

end
variable {id : SubscriptionId} {connection : Connection}

/-- The subscription the loop is at, with the key it would detach it from. -/
inductive LoopStage.Mentions : LoopStage → SubscriptionId → Option String → Prop
  | unsubscribing {id : SubscriptionId} {hostCanonical : Option String} :
      Mentions (.unsubscribing id hostCanonical) id hostCanonical
  | detaching {id : SubscriptionId} {hostCanonical : Option String} :
      Mentions (.detaching id hostCanonical) id hostCanonical
  | draining {attachments : List (SubscriptionId × String)} {id : SubscriptionId} {key : String} :
      (id, key) ∈ attachments → Mentions (.draining attachments) id (some key)

/-- Where a connection speaks of an accepted subscription. -/
inductive Connection.Mentions (connection : Connection) : SubscriptionId → Option String → Prop
  | label {clientId : ClientSubscriptionId} {id : SubscriptionId} :
      connection.byClientId clientId = some id → Mentions connection id none
  | recorded {id : SubscriptionId} : id ∈ connection.recorded → Mentions connection id none
  | attached {id : SubscriptionId} {key : String} : (id, key) ∈ connection.hostCanonicals →
      Mentions connection id (some key)
  | stage {id : SubscriptionId} {key : Option String} : connection.stage.Mentions id key →
      Mentions connection id key

theorem Connection.Mentions.mono {connection' : Connection} (h : connection'.Mentions id key)
    (hlabels : ∀ clientId id, connection'.byClientId clientId = some id →
      connection.byClientId clientId = some id) (hrec : connection'.recorded ⊆ connection.recorded)
    (hatt : connection'.hostCanonicals ⊆ connection.hostCanonicals)
    (hstage : connection'.stage.Mentions id key → connection.Mentions id key) :
    connection.Mentions id key := by
  cases h with
  | label hlabel => exact .label (hlabels _ _ hlabel)
  | recorded hmem => exact .recorded (hrec hmem)
  | attached hmem => exact .attached (hatt hmem)
  | stage hmention => exact hstage hmention

theorem Connection.Mentions.of_unsubscribing
    (h : connection.stage = .unsubscribing id hostCanonical) :
    connection.Mentions id hostCanonical :=
  .stage (h ▸ .unsubscribing)

theorem Connection.Mentions.of_detaching (h : connection.stage = .detaching id hostCanonical) :
    connection.Mentions id hostCanonical :=
  .stage (h ▸ .detaching)

theorem Connection.Mentions.of_draining (h : connection.stage = .draining attachments)
    (hmem : (id, key) ∈ attachments) : connection.Mentions id (some key) :=
  .stage (h ▸ .draining hmem)

/-- The call belongs to the connection, was accepted, and runs under the key if one is given. -/
def AcceptedOn (s : State δ) (c : ConnectionId) (id : SubscriptionId)
    (key : Option String) : Prop :=
  ∃ call, s.calls id = some call ∧ call.request.connection = c ∧ call.stage = .accepted ∧
    ∀ canonical, key = some canonical → call.canonicalKey = some canonical

def CalledOn (s : State δ) (c : ConnectionId) (id : SubscriptionId) : Prop :=
  ∃ call, s.calls id = some call ∧ call.request.connection = c

theorem CalledOn.unique {s : State δ} (h : CalledOn s c id) (h' : CalledOn s c' id) : c = c' := by
  obtain ⟨call, hcall, rfl⟩ := h
  obtain ⟨call', hcall', rfl⟩ := h'
  rw [mem_unique hcall hcall']

namespace Service

structure Books (d : Deployment δ) (v : Service δ) : Prop where
  provenance : Provenance d.engine v.system
  enrolled : Enrolled v.system
  attachments : Attachments v.system
  served : Served v.system
  spawned : ∀ c, ∀ request ∈ (v.connections c).spawned, request.connection = c
  blocking : ∀ c, ∀ id ∈ (v.connections c).blocking, CalledOn v.system c id
  unsettled : ∀ id call, v.system.calls id = some call → call.stage.settled = false →
    id ∈ (v.connections call.request.connection).blocking
  mentioned : ∀ c id key, (v.connections c).Mentions id key → AcceptedOn v.system c id key
  detached : ∀ c id hostCanonical, (v.connections c).stage = .detaching id hostCanonical →
    v.system.router.registry.byId id = none
  disconnecting : ∀ c ids, (v.connections c).stage = .disconnecting ids →
    ∀ id ∈ ids, CalledOn v.system c id

theorem start_books (d) (maxSubscriptions : ℕ) : Books d (start maxSubscriptions : Service δ) where
  provenance := start_provenance d.engine
  enrolled := start_enrolled
  attachments := start_attachments
  served := (start_provenance d.engine).served
  spawned := nofun
  blocking := nofun
  unsettled _ _ h := by cases h
  mentioned c id key h := by
    cases h with
    | label h => cases h
    | recorded h | attached h | stage h => cases h
  detached := nofun
  disconnecting := nofun

section Steps
variable [DecidableEq δ] {d : Deployment δ} {v : Service δ} {a : ServiceAction δ} {s' : State δ}

/-- The server stays as it is or takes one step. -/
def Onward (d : Deployment δ) (s s' : State δ) : Prop := s' = s ∨ ∃ b, s' = Server.step d s b

theorem Moves.onward (h : Moves d v c a s' connection) : Onward d v.system s' := by
  cases h with
  | begin | pump | leave | detach | drain | disconnect => exact .inr ⟨_, rfl⟩
  | _ => exact .inl rfl

section

theorem Onward.call (h : Onward d s s') (hprov : Provenance d.engine s) {call : Call δ}
    (hcall : s.calls id = some call) : ∃ call', s'.calls id = some call' ∧ Keeps call call' ∧
      (call.stage.settled = true → call'.stage = call.stage) := by
  rcases h with rfl | ⟨b, rfl⟩
  · exact ⟨call, hcall, .refl call, fun _ => rfl⟩
  · exact step_keeps_call hprov hcall b

theorem Onward.calledOn (h : Onward d s s') (hprov : Provenance d.engine s)
    (hcalled : CalledOn s c id) : CalledOn s' c id := by
  obtain ⟨call, hcall, hconn⟩ := hcalled
  obtain ⟨call', hcall', hkeep, -⟩ := h.call hprov hcall
  exact ⟨call', hcall', by rw [hkeep.request, hconn]⟩

theorem Onward.acceptedOn (h : Onward d s s') (hprov : Provenance d.engine s)
    (hacc : AcceptedOn s c id key) : AcceptedOn s' c id key := by
  obtain ⟨call, hcall, hconn, hstage, hkey⟩ := hacc
  obtain ⟨call', hcall', hkeep, hsettled⟩ := h.call hprov hcall
  refine ⟨call', hcall', by rw [hkeep.request, hconn], ?_, fun canonical hcan => ?_⟩
  · rw [hsettled (by rw [hstage]; rfl), hstage]
  · rw [hkeep.canonicalKey, hkey canonical hcan]

theorem Onward.absent (h : Onward d s s') (hacc : AcceptedOn s c id key)
    (habs : s.router.registry.byId id = none) : s'.router.registry.byId id = none := by
  obtain ⟨call, hcall, -, hstage, -⟩ := hacc
  rcases h with rfl | ⟨b, rfl⟩
  · exact habs
  · exact step_absent hcall (by rw [hstage]; rfl) habs b

end

variable (h : Moves d v c a s' connection)
include h

theorem Moves.spawned (hreq : req ∈ connection.spawned) :
    req ∈ (v.connections c).spawned ∨ req.connection = c := by
  cases h with
  | admission =>
    rcases mem_append.mp hreq with hold | hnew
    · exact .inl hold
    · rw [mem_singleton.mp hnew]
      exact .inr rfl
  | refuse | begin => exact .inl (mem_of_mem_eraseIdx hreq)
  | _ => exact .inl hreq

theorem Moves.blocking (hid : id ∈ connection.blocking) :
    id ∈ (v.connections c).blocking ∨ ∃ req ∈ (v.connections c).spawned, ∃ schema,
      s' = Server.step d v.system (.begin req schema) ∧ id = v.system.nextId := by
  cases h with
  | begin hreq =>
    exact (mem_append.mp hid).imp_right fun hnew => ⟨_, hreq, _, rfl, mem_singleton.mp hnew⟩
  | accept | reject => exact .inl (mem_filter.mp hid).1
  | _ => exact .inl hid

theorem Moves.still_blocking (hid : id ∈ (v.connections c).blocking)
    (hcall : v.system.calls id = some call) (hstage : call.stage.settled = false) :
    id ∈ connection.blocking := by
  have hleft {id' : SubscriptionId} {call' : Call δ} (hcall' : v.system.calls id' = some call')
      (hsettled : call'.stage.settled = true) :
      id ∈ (v.connections c).blocking.filter (· ≠ id') := by
    refine mem_filter.mpr ⟨hid, ?_⟩
    have hne : id ≠ id' := by
      rintro rfl
      cases mem_unique hcall hcall'
      simp [hsettled] at hstage
    simpa using hne
  cases h with
  | begin => exact mem_append_left _ hid
  | accept _ hcall' hacc => exact hleft hcall' (by rw [hacc]; rfl)
  | reject _ hcall' hrejected => exact hleft hcall' (by rw [hrejected]; rfl)
  | _ => exact hid

omit h

theorem lookup_mem {entries : List (SubscriptionId × String)}
    (h : entries.lookup id = some canonical) : (id, canonical) ∈ entries := by
  induction entries with
  | nil => cases h
  | cons entry entries ih =>
    rw [lookup_cons] at h
    split at h
    next hsame =>
      cases h
      rw [eq_of_beq hsame]
      exact mem_cons_self
    next => exact mem_cons_of_mem _ (ih h)

variable (h : Moves d v c a s' connection)
include h

/-- A connection speaks only of what it spoke of before, and of the call it records. -/
theorem Moves.mentions (hbooks : Books d v) (hmention : connection.Mentions id key) :
    (v.connections c).Mentions id key ∨ AcceptedOn v.system c id key := by
  have hlabels : ∀ clientId id, (v.connections c).byClientId clientId = some id →
      (v.connections c).byClientId clientId = some id := fun _ _ hlabel => hlabel
  have hsame : (v.connections c).stage.Mentions id key → (v.connections c).Mentions id key := .stage
  cases h with
  | pace | admission | refuse | begin | reject =>
    exact .inl (hmention.mono hlabels (.refl _) (.refl _) hsame)
  | announce | pump => exact .inl (hmention.mono hlabels ((filter_subset_self _)) (.refl _) hsame)
  | @accept id' call hblock hcall hstage =>
    obtain ⟨call', hcall', hconn⟩ := hbooks.blocking c id' hblock
    cases mem_unique hcall hcall'
    cases hmention with
    | label hlabel =>
      rcases update_some hlabel with hold | ⟨-, rfl⟩
      · exact .inl (.label hold)
      · exact .inr ⟨call, hcall, hconn, hstage, by rintro _ ⟨⟩⟩
    | recorded hmem =>
      rcases mem_append.mp hmem with hold | hnew
      · exact .inl (.recorded hold)
      · rw [mem_singleton.mp hnew]
        exact .inr ⟨call, hcall, hconn, hstage, by rintro _ ⟨⟩⟩
    | attached hmem =>
      simp only [record] at hmem
      split at hmem
      next canonical hcan =>
        rcases mem_cons.mp hmem with hnew | hold
        · cases hnew
          refine .inr ⟨call, hcall, hconn, hstage, fun _ hsame => ?_⟩
          rw [hcan, hsame]
        · exact .inl (.attached (mem_filter.mp hold).1)
      next => exact .inl (.attached hmem)
    | stage hin => exact .inl (.stage hin)
  | @forget clientId id' hrun hlabel =>
    refine .inl (hmention.mono ?_ (.refl _) ((filter_subset_self _)) fun hstage => ?_)
    · intro clientId' id'' hsome
      exact (update_none hsome).2
    · cases hstage
      cases hlook : (v.connections c).hostCanonicals.lookup id with
      | none => exact .label hlabel
      | some => exact .attached (lookup_mem hlook)
  | hangUp =>
    refine .inl (hmention.mono hlabels (.refl _) (nil_subset _) fun hstage => ?_)
    cases hstage with
    | draining hmem => exact .attached hmem
  | leave hstage =>
    refine .inl (hmention.mono hlabels (.refl _) (.refl _) fun hin => ?_)
    cases hin
    exact .stage (hstage ▸ .unsubscribing)
  | drain hstage =>
    refine .inl (hmention.mono hlabels (.refl _) (.refl _) fun hin => ?_)
    cases hin with
    | draining hmem => exact .stage (hstage ▸ .draining (mem_of_mem_eraseIdx hmem))
  | unknown | keep | detach | enumerate | disconnect | finish =>
    exact .inl (hmention.mono hlabels (.refl _) (.refl _) fun hin => by cases hin)

theorem Moves.detaching (hstage : connection.stage = .detaching id hostCanonical) :
    s'.router.registry.byId id = none ∨ (v.connections c).stage = .detaching id hostCanonical := by
  cases h with
  | leave =>
    cases hstage
    left
    show (v.system.router.unsubscribe id).2.registry.byId id = none
    rw [RouterInner.unsubscribe_byId, update_self]
  | pace | admission | refuse | begin | accept | reject | announce | pump => exact .inr hstage
  | _ => cases hstage

theorem Moves.disconnecting (hstage : connection.stage = .disconnecting ids) (hid : id ∈ ids) :
    id ∈ v.system.router.registry.byConnection c ∨
      ∃ before, (v.connections c).stage = .disconnecting before ∧ id ∈ before := by
  cases h with
  | enumerate =>
    cases hstage
    exact .inl hid
  | disconnect hwas =>
    cases hstage
    exact .inr ⟨_, hwas, mem_cons_of_mem _ hid⟩
  | pace | admission | refuse | begin | accept | reject | announce | pump =>
    exact .inr ⟨ids, hstage, hid⟩
  | _ => cases hstage

theorem Moves.serving (hserves : connection.stage.serving = true) :
    (v.connections c).stage.serving = true := by
  cases h with
  | pace | admission | refuse | begin | accept | reject | announce | pump => exact hserves
  | forget hstage | hangUp hstage
  | unknown hstage | leave hstage | keep _ hstage | detach _ hstage => rw [hstage]; rfl
  | drain | enumerate | disconnect | finish => cases hserves

/-- No loop and no task is where a call moves on or attaches. -/
theorem Moves.call (hprov : Provenance d.engine v.system) {call : Call δ}
    (hcall : v.system.calls id = some call) :
    ∃ call', s'.calls id = some call' ∧ Keeps call call' ∧ call'.stage = call.stage := by
  have hstep {b : Action δ} (hb : ∀ fetched, b ≠ .advance id fetched) :
      ∃ call', (Server.step d v.system b).calls id = some call' ∧ Keeps call call' ∧
        call'.stage = call.stage := by
    obtain ⟨call', hcall', hmove, hkind⟩ := step_moved hprov hcall b
    refine ⟨call', hcall', hmove.keeps, ?_⟩
    rcases hkind with ⟨fetched, hfetch⟩ | hrests
    · exact absurd hfetch (hb fetched)
    · exact hrests.stage
  cases h with
  | begin | pump | leave | detach | drain | disconnect => exact hstep nofun
  | _ => exact ⟨call, hcall, .refl call, rfl⟩

omit h

theorem Onward.system_books (h : Onward d s s') (hprov : Provenance d.engine s)
    (henrolled : Enrolled s) (hatts : Attachments s) :
    Provenance d.engine s' ∧ Enrolled s' ∧ Attachments s' := by
  rcases h with rfl | ⟨b, rfl⟩
  · exact ⟨hprov, henrolled, hatts⟩
  · exact ⟨step_provenance hprov b, step_enrolled hprov henrolled b,
      step_attachments hprov hatts b⟩

theorem Inner.unsettled (h : Inner a b) (hprov : Provenance d.engine v.system)
    (hcall' : (Server.step d v.system b).calls id = some call')
    (hstage : call'.stage.settled = false) :
    ∃ call, v.system.calls id = some call ∧ Keeps call call' ∧ call.stage.settled = false := by
  rcases step_unsettled hprov hcall' hstage with hwas | ⟨req, schema, rfl, -⟩
  · exact hwas
  · cases h

/-- A call that begins is a task of the connection it was spawned on. -/
theorem Moves.unsettled (h : Moves d v c a s' connection) (hprov : Provenance d.engine v.system)
    (hcall' : s'.calls id = some call') (hstage : call'.stage.settled = false) :
    (∃ call, v.system.calls id = some call ∧ Keeps call call' ∧ call.stage.settled = false) ∨
      call'.request ∈ (v.connections c).spawned ∧ id ∈ connection.blocking := by
  have hstep {b : Action δ} (hb : ∀ req schema, b ≠ .begin req schema)
      (hcall' : (Server.step d v.system b).calls id = some call') :
      ∃ call, v.system.calls id = some call ∧ Keeps call call' ∧ call.stage.settled = false :=
    (step_unsettled hprov hcall' hstage).resolve_right fun ⟨req, schema, hbegin, _⟩ =>
      hb req schema hbegin
  cases h with
  | begin hreq =>
    rcases step_unsettled hprov hcall' hstage with hwas | ⟨req, schema, hbegin, rfl, hcalled⟩
    · exact .inl hwas
    · cases hbegin
      exact .inr ⟨hcalled ▸ hreq, mem_append_right _ mem_cons_self⟩
  | pump | leave | detach | drain | disconnect =>
    exact .inl (hstep (fun _ _ h => by cases h) hcall')
  | _ => exact .inl ⟨call', hcall', .refl call', hstage⟩

theorem Books.inner (h : Books d v) (hinner : Inner a b)
    (hsys : v'.system = Server.step d v.system b) (hstill : v'.connections = v.connections) :
    Books d v' := by
  have honward : Onward d v.system v'.system := .inr ⟨b, hsys⟩
  obtain ⟨hprov, henrolled, hatts⟩ :=
    honward.system_books h.provenance h.enrolled h.attachments
  refine ⟨hprov, henrolled, hatts, hprov.served, ?_, ?_, ?_, ?_, ?_, ?_⟩
  · rw [hstill]
    exact h.spawned
  · rw [hstill]
    exact fun c id hid => honward.calledOn h.provenance (h.blocking c id hid)
  · rw [hstill]
    intro id call' hcall' hstage
    rw [hsys] at hcall'
    obtain ⟨call, hcall, hkeep, hunset⟩ := hinner.unsettled h.provenance hcall' hstage
    rw [hkeep.request]
    exact h.unsettled id call hcall hunset
  · rw [hstill]
    exact fun c id key hmention => honward.acceptedOn h.provenance (h.mentioned c id key hmention)
  · rw [hstill]
    intro c id hostCanonical hstage
    exact honward.absent (h.mentioned c id _ (.of_detaching hstage))
      (h.detached c id hostCanonical hstage)
  · rw [hstill]
    exact fun c ids hstage id hid =>
      honward.calledOn h.provenance (h.disconnecting c ids hstage id hid)

theorem Books.touched (h : Books d v)
    (hothers : ∀ c', c' ≠ c → v'.connections c' = v.connections c')
    (hmove : Moves d v c a v'.system (v'.connections c)) : Books d v' := by
  have honward := hmove.onward
  obtain ⟨hprov, henrolled, hatts⟩ :=
    honward.system_books h.provenance h.enrolled h.attachments
  refine ⟨hprov, henrolled, hatts, hprov.served, ?_, ?_, ?_, ?_, ?_, ?_⟩
  · intro c' req hreq
    rcases eq_or_ne c' c with rfl | hc
    · exact (hmove.spawned hreq).elim (h.spawned c' req) id
    · rw [hothers c' hc] at hreq
      exact h.spawned c' req hreq
  · intro c' id hid
    rcases eq_or_ne c' c with rfl | hc
    · rcases hmove.blocking hid with hold | ⟨req, hreq, schema, hbegin, rfl⟩
      · exact honward.calledOn h.provenance (h.blocking c' id hold)
      · rw [hbegin]
        exact ⟨_, update_self .., h.spawned c' req hreq⟩
    · rw [hothers c' hc] at hid
      exact honward.calledOn h.provenance (h.blocking c' id hid)
  · intro id call' hcall' hstage
    rcases hmove.unsettled h.provenance hcall' hstage with
      ⟨call, hcall, hkeep, hunset⟩ | ⟨hreq, hid⟩
    · have hwas := h.unsettled id call hcall hunset
      rw [hkeep.request]
      by_cases hc : call.request.connection = c
      · rw [hc] at hwas ⊢
        exact hmove.still_blocking hwas hcall hunset
      · rwa [hothers _ hc]
    · rwa [h.spawned c _ hreq]
  · intro c' id key hmention
    rcases eq_or_ne c' c with rfl | hc
    · rcases hmove.mentions h hmention with hold | hacc
      · exact honward.acceptedOn h.provenance (h.mentioned c' id key hold)
      · exact honward.acceptedOn h.provenance hacc
    · rw [hothers c' hc] at hmention
      exact honward.acceptedOn h.provenance (h.mentioned c' id key hmention)
  · intro c' id hostCanonical hstage
    have hold (hwas : (v.connections c').stage = .detaching id hostCanonical) :
        v'.system.router.registry.byId id = none :=
      honward.absent (h.mentioned c' id _ (.of_detaching hwas))
        (h.detached c' id hostCanonical hwas)
    rcases eq_or_ne c' c with rfl | hc
    · exact (hmove.detaching hstage).elim (fun h => h) hold
    · rw [hothers c' hc] at hstage
      exact hold hstage
  · intro c' ids hstage id hid
    rcases eq_or_ne c' c with rfl | hc
    · rcases hmove.disconnecting hstage hid with hentered | ⟨prev, hwas, hmem⟩
      · obtain ⟨entry, hentry, hconn⟩ := h.enrolled.listed c' id hentered
        obtain ⟨-, call, hcall, hreq, -⟩ := h.enrolled.entry id entry hentry
        exact honward.calledOn h.provenance ⟨call, hcall, hreq.trans hconn⟩
      · exact honward.calledOn h.provenance (h.disconnecting c' prev hwas id hmem)
    · rw [hothers c' hc] at hstage
      exact honward.calledOn h.provenance (h.disconnecting c' ids hstage id hid)

theorem step_books (h : Books d v) (a) : Books d (step d v a) := by
  rcases step_moves d v a with ⟨b, hinner, hsys, hstill⟩ | ⟨c, htouches⟩
  · exact h.inner hinner hsys hstill
  · exact h.touched htouches.others htouches.moves

/-- The router, the host and the connections never contradict each other. -/
theorem books_agree (d : Deployment δ) (limit : ℕ) (actions : List (ServiceAction δ)) :
    Books d (actions.foldl (step d) (start limit)) :=
  ((Runs.Schedule.free _ _ actions).reached .start).invariant (start_books d _)
    fun _ a h _ => step_books h a

end Steps

end Service

end Palimpsest.Server
